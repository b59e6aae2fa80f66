import ClassLang.DataType
import ClassLang.Property

/-!
# Declarations

What a class body is made of: fields, methods and blocks of further declarations. Fields and
methods are the leaves; they can take over the properties of what encloses them. A block is a list
of declarations with properties of its own.
-/

namespace ClassLang

/-- An argument of a method; its type is kept as it was written. -/
structure Argument where
  name : String
  type : String
  value : Option Value
  properties : List Property
  deriving DecidableEq

structure Field where
  name : String
  type : DataType
  value : Option Value
  properties : List Property
  isStatic : Bool
  deriving DecidableEq

/-- A method; its return type is kept as it was written. -/
structure Method where
  name : String
  returns : String
  arguments : List Argument
  properties : List Property
  isStatic : Bool
  deriving DecidableEq

/-- A declaration that holds no further ones. -/
inductive Leaf where
  | field (f : Field)
  | method (m : Method)
  deriving DecidableEq

inductive Declaration where
  | leaf (l : Leaf)
  | block (properties : List Property) (inner : List Declaration)

structure Block where
  properties : List Property
  inner : List Declaration

/-! ### Leaves -/

namespace Leaf

def name : Leaf → String
  | .field f => f.name
  | .method m => m.name

def properties : Leaf → List Property
  | .field f => f.properties
  | .method m => m.properties

/-- Puts properties in front of those of a leaf. -/
def propagate (ps : List Property) : Leaf → Leaf
  | .field f => .field { f with properties := ps ++ f.properties }
  | .method m => .method { m with properties := ps ++ m.properties }

def field? : Leaf → Option Field
  | .field f => some f
  | .method _ => none

def method? : Leaf → Option Method
  | .field _ => none
  | .method m => some m

theorem properties_propagate (ps : List Property) (l : Leaf) :
    (l.propagate ps).properties = ps ++ l.properties := by
  cases l <;> rfl

theorem name_propagate (ps : List Property) (l : Leaf) : (l.propagate ps).name = l.name := by
  cases l <;> rfl

theorem propagate_nil (l : Leaf) : l.propagate [] = l := by
  cases l <;> rfl

theorem propagate_propagate (ps qs : List Property) (l : Leaf) :
    (l.propagate qs).propagate ps = l.propagate (ps ++ qs) := by
  cases l <;> simp only [propagate, List.append_assoc]

end Leaf

namespace Declaration

def leaf? : Declaration → Option Leaf
  | .leaf l => some l
  | .block _ _ => none

def block? : Declaration → Option Block
  | .leaf _ => none
  | .block ps inner => some ⟨ps, inner⟩

def addProperties (ps : List Property) : Declaration → Declaration
  | .leaf l => .leaf (l.propagate ps)
  | .block qs inner => .block (ps ++ qs) inner

end Declaration

def Block.toDeclaration (b : Block) : Declaration := .block b.properties b.inner

/-! ### Equality, in which numbers are compared as numbers -/

def Argument.same (a b : Argument) : Bool :=
  a.name == b.name && a.type == b.type && Value.same? a.value b.value &&
    sameList Property.same a.properties b.properties

def Field.same (f g : Field) : Bool :=
  f.name == g.name && f.type == g.type && Value.same? f.value g.value &&
    sameList Property.same f.properties g.properties && f.isStatic == g.isStatic

def Method.same (m n : Method) : Bool :=
  m.name == n.name && m.returns == n.returns && sameList Argument.same m.arguments n.arguments &&
    sameList Property.same m.properties n.properties && m.isStatic == n.isStatic

def Leaf.same : Leaf → Leaf → Bool
  | .field f, .field g => f.same g
  | .method m, .method n => m.same n
  | _, _ => false

mutual

def Declaration.same : Declaration → Declaration → Bool
  | .leaf l, .leaf k => l.same k
  | .block ps ds, .block qs es => sameList Property.same ps qs && sameDeclarations ds es
  | _, _ => false

def sameDeclarations : List Declaration → List Declaration → Bool
  | [], [] => true
  | d :: ds, e :: es => d.same e && sameDeclarations ds es
  | _, _ => false

end

def Block.same (b c : Block) : Bool :=
  sameList Property.same b.properties c.properties && sameDeclarations b.inner c.inner

end ClassLang
