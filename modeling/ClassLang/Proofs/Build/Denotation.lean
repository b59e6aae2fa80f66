import ClassLang.Build.Node
import Mathlib.Data.List.Forall2

/-!
# What trees denote

The meaning of a syntax tree over its text, said without building anything: which property, type,
argument, field, method, declaration or class a node stands for. Only literals are read, and the
written form of a type is cut out of the text. A member of a class is denoted together with the
property lists in front of the declarations around it, which `Tree.members` collects.
-/

namespace ClassLang

namespace Tree

def IsName (t : Tree) (name : String) : Prop := ∃ range, t = .token (.known .identifier) name range

/-- A mark that is there or absent. -/
inductive Marks (k : Terminal) : Tree → Bool → Prop
  | absent : Marks k .absent false
  | present {text : String} {range : Range} : Marks k (.token (.known k) text range) true

/-! ### Values and properties -/

inductive DenotesValue : Tree → Value → Prop
  | literal {r : Option Range} {kind : Label Terminal} {text : String} {range : Range} {v : Value}
      (h : Build.literal kind text = .ok v) :
      DenotesValue (.node (.known .value) r [.token kind text range]) v

inductive DenotesInitial : Tree → Option Value → Prop
  | absent : DenotesInitial .absent none
  | present {t : Tree} {v : Value} (h : DenotesValue t v) : DenotesInitial t (some v)

inductive DenotesProperty : Tree → Property → Prop
  | property {r : Option Range} {mark name initial : Tree} {text : String} {v : Option Value}
      {isMeta : Bool} (hm : Marks .kwMeta mark isMeta) (hn : name.IsName text)
      (hv : DenotesInitial initial v) :
      DenotesProperty (.node (.known .property) r [mark, name, initial]) ⟨text, v, isMeta⟩

inductive DenotesList : Tree → List Property → Prop
  | list {r : Option Range} {ts : List Tree} {ps : List Property}
      (h : List.Forall₂ DenotesProperty ts ps) :
      DenotesList (.node (.known .properties) r ts) ps

inductive DenotesList? : Tree → List Property → Prop
  | absent : DenotesList? .absent []
  | present {t : Tree} {ps : List Property} (h : DenotesList t ps) : DenotesList? t ps

def DenoteLists (ts : List Tree) (ps : List Property) : Prop :=
  ∃ pss, List.Forall₂ DenotesList ts pss ∧ ps = pss.flatten

/-! ### Types -/

inductive DenotesType : Tree → DataType → Prop
  | name {r : Option Range} {ts : List Tree} {names : List String}
      (h : List.Forall₂ IsName ts names) :
      DenotesType (.node (.known .typeName) r ts) (.ofName ("::".intercalate names))
  | pointer {r : Option Range} {t : Tree} {d : DataType} (h : DenotesType t d) :
      DenotesType (.node (.known .pointerType) r [t]) (.pointer .one d)
  | doublePointer {r : Option Range} {t : Tree} {d : DataType} (h : DenotesType t d) :
      DenotesType (.node (.known .doublePointerType) r [t]) (.pointer .two d)
  | reference {r : Option Range} {t : Tree} {d : DataType} (h : DenotesType t d) :
      DenotesType (.node (.known .referenceType) r [t]) (.reference d)
  | array {r : Option Range} {t : Tree} {d : DataType} (h : DenotesType t d) :
      DenotesType (.node (.known .arrayType) r [t]) (.array d)
  | matrix {r : Option Range} {opening : String} {range : Range} {t : Tree} {d : DataType}
      (h : DenotesType t d) :
      DenotesType (.node (.known .matrixType) r [.token (.known .matrixOpen) opening range, t])
        (.matrix d)

/-- The written form of a type, the type, and whether it is marked constant. -/
inductive DenotesSpelling (text : List Char) : Tree → String → DataType → Bool → Prop
  | spelling {range : Range} {mark type : Tree} {d : DataType} {isConst : Bool}
      (hm : Marks .kwConst mark isConst) (ht : DenotesType type d) :
      DenotesSpelling text (.node (.known .typeSpelling) (some range) [mark, type])
        (String.ofList (Layout.collapse (Build.slice text range))) d isConst

/-! ### Members -/

inductive DenotesArgument (text : List Char) : Tree → Argument → Prop
  | argument {r : Option Range} {list spelling name initial : Tree} {id written : String}
      {d : DataType} {isConst : Bool} {v : Option Value} {ps : List Property}
      (hl : DenotesList? list ps) (hs : DenotesSpelling text spelling written d isConst)
      (hn : name.IsName id) (hv : DenotesInitial initial v) :
      DenotesArgument text (.node (.known .argument) r [list, spelling, name, initial])
        ⟨id, written, v, ps⟩

inductive DenoteArguments (text : List Char) : Tree → List Argument → Prop
  | absent : DenoteArguments text .absent []
  | present {r : Option Range} {ts : List Tree} {as : List Argument}
      (h : List.Forall₂ (DenotesArgument text) ts as) :
      DenoteArguments text (.node (.known .arguments) r ts) as

/-- A field or method that is given its properties. -/
inductive DenotesMember (text : List Char) (ps : List Property) : Tree → Leaf → Prop
  | field {r : Option Range} {mark spelling name initial : Tree} {id written : String}
      {d : DataType} {v : Option Value} {isStatic : Bool} (hm : Marks .kwStatic mark isStatic)
      (hs : DenotesSpelling text spelling written d false) (hn : name.IsName id)
      (hv : DenotesInitial initial v) :
      DenotesMember text ps (.node (.known .fieldDecl) r [mark, spelling, name, initial])
        (.field ⟨id, d, v, ps, isStatic⟩)
  | method {r : Option Range} {mark spelling name arguments : Tree} {id written : String}
      {d : DataType} {isConst : Bool} {as : List Argument} {isStatic : Bool}
      (hm : Marks .kwStatic mark isStatic)
      (hs : DenotesSpelling text spelling written d isConst) (hn : name.IsName id)
      (ha : DenoteArguments text arguments as) :
      DenotesMember text ps (.node (.known .methodDecl) r [mark, spelling, name, arguments])
        (.method ⟨id, written, as, ps, isStatic⟩)

/-- A field, a method or a block, with the property lists in front of it. -/
inductive DenotesDeclaration (text : List Char) : Tree → Declaration → Prop
  | leaf {r : Option Range} {lists : List Tree} {member : Tree} {ps : List Property} {l : Leaf}
      (hl : DenoteLists lists ps) (hm : DenotesMember text ps member l) :
      DenotesDeclaration text (.node (.known .declaration) r (lists ++ [member])) (.leaf l)
  | block {r rb ri : Option Range} {lists inner : List Tree} {ps : List Property}
      {ds : List Declaration} (hl : DenoteLists lists ps)
      (hi : List.Forall₂ (DenotesDeclaration text) inner ds) :
      DenotesDeclaration text
        (.node (.known .declaration) r
          (lists ++ [.node (.known .blockDecl) rb [.node (.known .body) ri inner]]))
        (.block ps ds)

/-! ### Classes -/

inductive DenoteBases : Tree → List String → Prop
  | absent : DenoteBases .absent []
  | present {r : Option Range} {ts : List Tree} {names : List String}
      (h : List.Forall₂ IsName ts names) : DenoteBases (.node (.known .inheritance) r ts) names

inductive DenotesClass (text : List Char) : Tree → Class → Prop
  | classDecl {r ri : Option Range} {list name bases : Tree} {keyword id : String} {range : Range}
      {inner : List Tree} {ps : List Property} {names : List String} {ds : List Declaration}
      (hl : DenotesList? list ps) (hn : name.IsName id) (hb : DenoteBases bases names)
      (hi : List.Forall₂ (DenotesDeclaration text) inner ds) :
      DenotesClass text
        (.node (.known .classDecl) r [list, .token (.known .kwClass) keyword range, name, bases,
          .node (.known .body) ri inner])
        ⟨id, names, ps, ⟨[], ds⟩⟩

/-! ### The members below a node -/

def isPropertyList : Tree → Bool
  | node (.known .properties) _ _ => true
  | _ => false

mutual

/-- The fields and methods below a node in the order of the text. Each comes with the property lists
of all declarations on the way down to it, the outermost ones first. -/
def members (lists : List Tree) : Tree → List (List Tree × Tree)
  | node (.known .fieldDecl) r ts => [(lists, node (.known .fieldDecl) r ts)]
  | node (.known .methodDecl) r ts => [(lists, node (.known .methodDecl) r ts)]
  | node (.known .declaration) _ ts => membersAll (lists ++ ts.filter isPropertyList) ts
  | node _ _ ts => membersAll lists ts
  | token _ _ _ => []
  | absent => []

def membersAll (lists : List Tree) : List Tree → List (List Tree × Tree)
  | [] => []
  | t :: ts => members lists t ++ membersAll lists ts

end

end Tree

end ClassLang
