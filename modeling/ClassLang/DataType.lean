import ClassLang.Text.Quoted

/-!
# Types

A type is a primitive or a class, wrapped in any number of array, matrix, pointer and reference
layers. A pointer layer has depth one or two. The layers of a type end in its innermost type,
which has no inner type of its own. The text of a type is put together by one call for each layer,
inside that for the layer around it, so there is one only for types that do not have more layers
than calls can be nested; the innermost type is found by a loop.
-/

namespace ClassLang

inductive Primitive where
  | void
  | char
  | bool
  | float
  | string
  | integer
  deriving DecidableEq, Repr

namespace Primitive

def name : Primitive → String
  | .void => "void"
  | .char => "char"
  | .bool => "bool"
  | .float => "float"
  | .string => "string"
  | .integer => "integer"

/-- How a primitive is written in a type. -/
def spelling : Primitive → String
  | .integer => "int"
  | p => p.name

/-- The place of a primitive among all primitives. -/
def number : Primitive → Nat
  | .void => 0
  | .char => 1
  | .bool => 2
  | .float => 3
  | .string => 4
  | .integer => 5

end Primitive

/-- How many stars one pointer layer has. -/
inductive PointerDepth where
  | one
  | two
  deriving DecidableEq, Repr

namespace PointerDepth

def toNat : PointerDepth → Nat
  | .one => 1
  | .two => 2

def ofInt? (n : Int) : Option PointerDepth :=
  if n = 1 then some .one else if n = 2 then some .two else none

def outOfRange (n : Int) : String := s!"pointer depth must be 1 or 2, got {n}"

theorem ofInt?_toNat (d : PointerDepth) : ofInt? d.toNat = some d := by
  cases d <;> rfl

end PointerDepth

inductive DataType where
  | primitive (p : Primitive)
  | named (name : String)
  | array (inner : DataType)
  | matrix (inner : DataType)
  | pointer (depth : PointerDepth) (inner : DataType)
  | reference (inner : DataType)
  deriving DecidableEq, Repr

namespace DataType

/-- The names that stand for primitives. -/
def keywords : List (String × Primitive) :=
  [("bool", .bool), ("char", .char), ("float", .float), ("double", .float), ("int", .integer),
    ("long", .integer), ("string", .string)]

/-- The type that a name stands for. -/
def ofName (name : String) : DataType :=
  match keywords.lookup name with
  | some p => .primitive p
  | none => .named name

/-- How many layers a type has. -/
def height : DataType → Nat
  | .primitive _ => 0
  | .named _ => 0
  | .array t => t.height + 1
  | .matrix t => t.height + 1
  | .pointer _ t => t.height + 1
  | .reference t => t.height + 1

/-- How many layers calls can be nested for where nothing else has been set. -/
def usualDepth : Nat := 490

/-- The text of a type, unless it has more layers than calls can be nested. -/
def text? : Nat → DataType → Option String
  | _, .primitive p => some p.spelling
  | _, .named name => some name
  | 0, _ => none
  | depth + 1, .array t => (text? depth t).map fun s => s ++ "[]"
  | depth + 1, .matrix t => (text? depth t).map fun s => "Matrix<" ++ s ++ ">"
  | depth + 1, .pointer .one t => (text? depth t).map fun s => s ++ "*"
  | depth + 1, .pointer .two t => (text? depth t).map fun s => s ++ "**"
  | depth + 1, .reference t => (text? depth t).map fun s => s ++ "&"

/-- The text of a type, where calls can be nested as deep as it takes. -/
def text : DataType → String
  | .primitive p => p.spelling
  | .named name => name
  | .array t => t.text ++ "[]"
  | .matrix t => "Matrix<" ++ t.text ++ ">"
  | .pointer .one t => t.text ++ "*"
  | .pointer .two t => t.text ++ "**"
  | .reference t => t.text ++ "&"

def kindName : DataType → String
  | .primitive p => p.name
  | .named _ => "class"
  | .array _ => "array"
  | .matrix _ => "matrix"
  | .pointer _ _ => "pointer"
  | .reference _ => "ref"

def isPrimitive : DataType → Bool
  | .primitive _ => true
  | _ => false

def isClass : DataType → Bool
  | .named _ => true
  | _ => false

def isArray : DataType → Bool
  | .array _ => true
  | _ => false

def isMatrix : DataType → Bool
  | .matrix _ => true
  | _ => false

def isPointer : DataType → Bool
  | .pointer _ _ => true
  | _ => false

def isReference : DataType → Bool
  | .reference _ => true
  | _ => false

def inner? : DataType → Option DataType
  | .primitive _ => none
  | .named _ => none
  | .array t => some t
  | .matrix t => some t
  | .pointer _ t => some t
  | .reference t => some t

theorem text?_eq (depth : Nat) (t : DataType) :
    t.text? depth = if t.height ≤ depth then some t.text else none := by
  induction t generalizing depth with
  | primitive p => simp [text?, text, height]
  | named name => simp [text?, text, height]
  | array t ih => cases depth <;> simp [text?, text, height, ih, apply_ite (Option.map _)]
  | matrix t ih => cases depth <;> simp [text?, text, height, ih, apply_ite (Option.map _)]
  | pointer d t ih =>
    cases depth <;> cases d <;> simp [text?, text, height, ih, apply_ite (Option.map _)]
  | reference t ih => cases depth <;> simp [text?, text, height, ih, apply_ite (Option.map _)]

theorem text?_eq_some {depth : Nat} {t : DataType} {s : String} :
    t.text? depth = some s ↔ t.height ≤ depth ∧ t.text = s := by
  rw [text?_eq]
  split <;> simp [*]

def withoutInner (t : DataType) : String := t.text ++ " has no inner type"

def isComposite (t : DataType) : Bool := t.inner?.isSome

/-- The type under all layers. -/
def innermost : DataType → DataType
  | .primitive p => .primitive p
  | .named name => .named name
  | .array t => t.innermost
  | .matrix t => t.innermost
  | .pointer _ t => t.innermost
  | .reference t => t.innermost

theorem inner?_innermost (t : DataType) : t.innermost.inner? = none := by
  induction t with
  | primitive p => rfl
  | named name => rfl
  | array t ih => exact ih
  | matrix t ih => exact ih
  | pointer d t ih => exact ih
  | reference t ih => exact ih

theorem innermost_of_inner? {t u : DataType} (h : t.inner? = some u) :
    t.innermost = u.innermost := by
  cases t <;> simp only [inner?, Option.some.injEq, reduceCtorEq] at h <;> subst h <;> rfl

def depth : DataType → Nat
  | .pointer d _ => d.toNat
  | _ => 0

def shown : DataType → String
  | .primitive p => s!"PrimitiveType(primitive=<Primitive.{p.name}: {p.number}>)"
  | .named name => s!"ClassType(name={Quoted.quote name})"
  | .array t => s!"ArrayType(wrapped={t.shown})"
  | .matrix t => s!"MatrixType(wrapped={t.shown})"
  | .pointer d t => s!"PointerType(wrapped={t.shown}, depth={d.toNat})"
  | .reference t => s!"ReferenceType(wrapped={t.shown})"

end DataType

end ClassLang
