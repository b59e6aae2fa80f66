import ClassLang.Block

/-!
# Classes and units

A class has a name, bases of which the first is the primary one, properties and a body. A unit is
the list of the classes of one text in the order in which they stand.
-/

namespace ClassLang

structure Class where
  name : String
  bases : List String
  properties : List Property
  body : Block

namespace Class

/-- The base that decides which template is used. -/
def primaryBase (c : Class) : Option String := c.bases.head?

def text (c : Class) : String :=
  match c.bases with
  | [] => "class " ++ c.name
  | bases => "class " ++ c.name ++ " : " ++ ", ".intercalate bases

def fields (c : Class) : List Field := c.body.fields

def methods (c : Class) : List Method := c.body.methods

def same (c d : Class) : Bool :=
  c.name == d.name && c.bases == d.bases && sameList Property.same c.properties d.properties &&
    c.body.same d.body

end Class

structure SourceUnit where
  classes : List Class

namespace SourceUnit

def find? (u : SourceUnit) (name : String) : Option Class :=
  u.classes.find? fun c => c.name == name

/-- The place that an index means: a negative one counts from the end. -/
def position? (u : SourceUnit) (i : Int) : Option Nat :=
  let place := if i < 0 then i + u.classes.length else i
  if 0 ≤ place ∧ place < u.classes.length then some place.toNat else none

/-- The class at an index; a negative index counts from the end. -/
def at? (u : SourceUnit) (i : Int) : Option Class := (u.position? i).bind (u.classes[·]?)

def outOfRange : String := "tuple index out of range"

/-- Whether two indices hold equal classes; a class always equals itself. -/
def sameAt? (u : SourceUnit) (i j : Int) : Option Bool := do
  let c ← u.at? i
  let d ← u.at? j
  return u.position? i == u.position? j || c.same d

theorem at?_isSome {u : SourceUnit} {i : Int} :
    (u.at? i).isSome ↔ -(u.classes.length : Int) ≤ i ∧ i < u.classes.length := by
  simp only [at?, position?]
  by_cases h : i < 0
  · simp only [h, if_true]
    split
    · rename_i hb
      simp only [Option.bind_some, isSome_getElem?]
      omega
    · simp only [Option.bind_none, Option.isSome_none, Bool.false_eq_true, false_iff]
      omega
  · simp only [h, if_false]
    split
    · rename_i hb
      simp only [Option.bind_some, isSome_getElem?]
      omega
    · simp only [Option.bind_none, Option.isSome_none, Bool.false_eq_true, false_iff]
      omega

def same (u v : SourceUnit) : Bool := sameList Class.same u.classes v.classes

end SourceUnit

end ClassLang
