import ClassLang.SourceUnit
import ClassLang.Syntax.Tree

/-!
# Parts

What building a syntax tree gives for one of its nodes. A part is put together from whatever the
children of the node gave, fitting or not: trees made by hand may have a property where a field
belongs. The functions `property?`, `declaration?`, `class?` and so on say what a part stands for
when everything in it fits; `ofProperty`, `ofDeclaration`, `ofClass` go the other way, and reading
back what they give is the identity. Everything that is built from a text fits.
-/

namespace ClassLang

/-- A layer around a type. -/
inductive Layer where
  | array
  | matrix
  | pointer (depth : PointerDepth)
  | reference
  deriving DecidableEq

def Layer.wrap : Layer → DataType → DataType
  | array => .array
  | matrix => .matrix
  | pointer depth => .pointer depth
  | reference => .reference

inductive Part where
  | absent
  | token (kind : Label Terminal) (text : String) (range : Range)
  | tree (rule : Label Rule) (range : Option Range) (children : List Part)
  | list (items : List Part)
  | word (text : String)
  | value (v : Value)
  | property (name : String) (value : Part) (isMeta : Bool)
  | type (t : DataType)
  | layer (l : Layer) (inner : Part)
  /-- The spelling of a type: its text, the type, and whether it is marked constant. -/
  | spelling (text : String) (inner : Part) (isConst : Bool)
  | argument (name type : String) (value : Part) (properties : List Part)
  | field (name type value : Part) (properties : List Part) (isStatic : Bool)
  | method (name : Part) (returns : String) (arguments properties : List Part) (isStatic : Bool)
  | block (properties inner : List Part)
  | classDecl (name : String) (bases properties inner : List Part)
  | unit (classes : List Part)

namespace Part

def isAbsent : Part → Bool
  | absent => true
  | _ => false

def isDeclaration : Part → Bool
  | field _ _ _ _ _ => true
  | method _ _ _ _ _ => true
  | block _ _ => true
  | _ => false

/-- The kind of a part, as messages name it. -/
def kindName : Part → String
  | absent => "NoneType"
  | token _ _ _ => "Token"
  | tree _ _ _ => "Tree"
  | list _ => "list"
  | word _ => "str"
  | value _ => "Value"
  | property _ _ _ => "Property"
  | type (.primitive _) => "PrimitiveType"
  | type (.named _) => "ClassType"
  | type (.array _) => "ArrayType"
  | type (.matrix _) => "MatrixType"
  | type (.pointer _ _) => "PointerType"
  | type (.reference _) => "ReferenceType"
  | layer .array _ => "ArrayType"
  | layer .matrix _ => "MatrixType"
  | layer (.pointer _) _ => "PointerType"
  | layer .reference _ => "ReferenceType"
  | spelling _ _ _ => "TypeSpelling"
  | argument _ _ _ _ => "Argument"
  | field _ _ _ _ _ => "Field"
  | method _ _ _ _ _ => "Method"
  | block _ _ => "Block"
  | classDecl _ _ _ _ => "Class"
  | unit _ => "TranslationUnit"

/-! ### What a part holds -/

/-- The text of a part that is a text. -/
def text? : Part → Option String
  | token _ text _ => some text
  | word text => some text
  | _ => none

/-- What a part holds as its value: a token its text, a declaration its initial value. -/
def held? : Part → Option Part
  | token _ text _ => some (word text)
  | property _ v _ => some v
  | argument _ _ v _ => some v
  | field _ _ v _ _ => some v
  | _ => none

def children? : Part → Option (List Part)
  | tree _ _ children => some children
  | _ => none

/-- Puts properties in front of those of a declaration. -/
def addProperties (ps : List Part) : Part → Part
  | field name t v qs isStatic => field name t v (ps ++ qs) isStatic
  | method name returns arguments qs isStatic => method name returns arguments (ps ++ qs) isStatic
  | block qs inner => block (ps ++ qs) inner
  | p => p

/-! ### What a part stands for -/

def word? : Part → Option String
  | word text => some text
  | _ => none

def value? : Part → Option Value
  | value v => some v
  | _ => none

/-- The value of a part that may be absent. -/
def initial? : Part → Option (Option Value)
  | absent => some none
  | value v => some (some v)
  | _ => none

def property? : Part → Option Property
  | property name v isMeta => do return ⟨name, ← v.initial?, isMeta⟩
  | _ => none

def type? : Part → Option DataType
  | type t => some t
  | layer l inner => (type? inner).map l.wrap
  | _ => none

def argument? : Part → Option Argument
  | argument name written v ps => do
    return ⟨name, written, ← v.initial?, ← ps.mapM property?⟩
  | _ => none

def leaf? : Part → Option Leaf
  | field name t v ps isStatic => do
    return .field ⟨← name.word?, ← t.type?, ← v.initial?, ← ps.mapM property?, isStatic⟩
  | method name returns as ps isStatic => do
    return .method ⟨← name.word?, returns, ← as.mapM argument?, ← ps.mapM property?, isStatic⟩
  | _ => none

mutual

def declaration? : Part → Option Declaration
  | block ps inner => do return .block (← ps.mapM property?) (← declarations? inner)
  | p => p.leaf?.map .leaf

def declarations? : List Part → Option (List Declaration)
  | [] => some []
  | p :: ps => do return (← declaration? p) :: (← declarations? ps)

end

def block? : Part → Option Block
  | block ps inner => do return ⟨← ps.mapM property?, ← declarations? inner⟩
  | _ => none

def class? : Part → Option Class
  | classDecl name bases ps inner => do
    return ⟨name, ← bases.mapM word?, ← ps.mapM property?, ⟨[], ← declarations? inner⟩⟩
  | _ => none

def unit? : Part → Option SourceUnit
  | unit classes => do return ⟨← classes.mapM class?⟩
  | _ => none

def properties? : Part → Option (List Property)
  | list items => items.mapM property?
  | _ => none

/-! ### The part that stands for something -/

def ofInitial : Option Value → Part
  | none => absent
  | some v => value v

def ofProperty (p : Property) : Part := property p.name (ofInitial p.value) p.isMeta

def ofType : DataType → Part
  | .array t => layer .array (ofType t)
  | .matrix t => layer .matrix (ofType t)
  | .pointer depth t => layer (.pointer depth) (ofType t)
  | .reference t => layer .reference (ofType t)
  | t => type t

def ofArgument (a : Argument) : Part :=
  argument a.name a.type (ofInitial a.value) (a.properties.map ofProperty)

def ofLeaf : Leaf → Part
  | .field f =>
    field (word f.name) (ofType f.type) (ofInitial f.value) (f.properties.map ofProperty) f.isStatic
  | .method m =>
    method (word m.name) m.returns (m.arguments.map ofArgument) (m.properties.map ofProperty)
      m.isStatic

mutual

def ofDeclaration : Declaration → Part
  | .leaf l => ofLeaf l
  | .block ps inner => block (ps.map ofProperty) (ofDeclarations inner)

def ofDeclarations : List Declaration → List Part
  | [] => []
  | d :: ds => ofDeclaration d :: ofDeclarations ds

end

def ofBlock (b : Block) : Part := block (b.properties.map ofProperty) (ofDeclarations b.inner)

/-- The part of a class; the properties of its body are not kept. -/
def ofClass (c : Class) : Part :=
  classDecl c.name (c.bases.map word) (c.properties.map ofProperty) (ofDeclarations c.body.inner)

def ofUnit (u : SourceUnit) : Part := unit (u.classes.map ofClass)

/-! ### Reading back -/

theorem mapM_map {α : Type} {of : α → Part} {read : Part → Option α} {as : List α}
    (h : ∀ a ∈ as, read (of a) = some a) : (as.map of).mapM read = some as := by
  induction as with
  | nil => rfl
  | cons a as ih =>
    rw [List.map_cons, List.mapM_cons, h a List.mem_cons_self,
      ih fun b hb => h b (List.mem_cons_of_mem a hb)]
    rfl

theorem word?_word (text : String) : (word text).word? = some text := rfl

theorem initial?_ofInitial (v : Option Value) : (ofInitial v).initial? = some v := by
  cases v <;> rfl

theorem property?_ofProperty (p : Property) : (ofProperty p).property? = some p := by
  rw [ofProperty, property?, initial?_ofInitial]
  rfl

theorem mapM_property? (ps : List Property) : (ps.map ofProperty).mapM property? = some ps :=
  mapM_map fun p _ => property?_ofProperty p

theorem type?_ofType (t : DataType) : (ofType t).type? = some t := by
  induction t with
  | primitive p => rfl
  | named name => rfl
  | array t ih => rw [ofType, type?, ih]; rfl
  | matrix t ih => rw [ofType, type?, ih]; rfl
  | pointer depth t ih => rw [ofType, type?, ih]; rfl
  | reference t ih => rw [ofType, type?, ih]; rfl

theorem argument?_ofArgument (a : Argument) : (ofArgument a).argument? = some a := by
  rw [ofArgument, argument?, initial?_ofInitial, mapM_property?]
  rfl

theorem leaf?_ofLeaf (l : Leaf) : (ofLeaf l).leaf? = some l := by
  cases l with
  | field f =>
    rw [ofLeaf, leaf?, type?_ofType, initial?_ofInitial, mapM_property?]
    rfl
  | method m =>
    rw [ofLeaf, leaf?, mapM_map fun a _ => argument?_ofArgument a, mapM_property?]
    rfl

theorem declaration?_ofLeaf (l : Leaf) : (ofLeaf l).declaration? = some (.leaf l) := by
  have h := leaf?_ofLeaf l
  cases l with
  | field f =>
    rw [ofLeaf] at h ⊢
    rw [declaration?, h, Option.map_some]
    exact nofun
  | method m =>
    rw [ofLeaf] at h ⊢
    rw [declaration?, h, Option.map_some]
    exact nofun

mutual

theorem declaration?_ofDeclaration :
    (d : Declaration) → (ofDeclaration d).declaration? = some d
  | .leaf l => declaration?_ofLeaf l
  | .block ps inner => by
    rw [ofDeclaration, declaration?, mapM_property?,
      declarations?_ofDeclarations inner]
    rfl

theorem declarations?_ofDeclarations :
    (ds : List Declaration) → declarations? (ofDeclarations ds) = some ds
  | [] => rfl
  | d :: ds => by
    rw [ofDeclarations, declarations?, declaration?_ofDeclaration d,
      declarations?_ofDeclarations ds]
    rfl

end

theorem block?_ofBlock (b : Block) : (ofBlock b).block? = some b := by
  rw [ofBlock, block?, mapM_property?, declarations?_ofDeclarations]
  rfl

theorem class?_ofClass {c : Class} (h : c.body.properties = []) :
    (ofClass c).class? = some c := by
  rw [ofClass, class?, mapM_property?, declarations?_ofDeclarations,
    mapM_map fun w _ => word?_word w, ← h]
  rfl

theorem unit?_ofUnit {u : SourceUnit} (h : ∀ c ∈ u.classes, c.body.properties = []) :
    (ofUnit u).unit? = some u := by
  rw [ofUnit, unit?, mapM_map fun c hc => class?_ofClass (h c hc)]
  rfl

/-! ### Equality, in which numbers are compared as numbers -/

/-- Whether two parts stand for the same thing of one sort. -/
def sameBy {α : Type} (read : Part → Option α) (same : α → α → Bool) (p q : Part) : Bool :=
  match read p, read q with
  | some a, some b => same a b
  | _, _ => false

/-- Whether two parts stand for the same thing. -/
def same (p q : Part) : Bool :=
  sameBy value? Value.same p q || sameBy property? Property.same p q ||
    sameBy properties? (sameList Property.same) p q || sameBy type? (· == ·) p q ||
    sameBy argument? Argument.same p q || sameBy declaration? Declaration.same p q ||
    sameBy class? Class.same p q || sameBy unit? SourceUnit.same p q

end Part

end ClassLang
