import ClassLang.Value

/-!
# Properties

A property has a name, perhaps a value, and may be marked as meta. Properties are kept in the order
in which they apply, outermost scope first, so looking one up takes the last that fits: in a
concatenation the second part decides, and the first counts only where the second has nothing.
-/

namespace ClassLang

/-- A property; without a value it is a flag. -/
structure Property where
  name : String
  value : Option Value
  isMeta : Bool
  deriving DecidableEq

namespace Property

def isFlag (p : Property) : Bool := p.value.isNone

def text (p : Property) : String :=
  let head := if p.isMeta then "meta " ++ p.name else p.name
  match p.value with
  | none => head
  | some v => head ++ "=" ++ v.text

/-- Whether a property has this name and, if a mark is asked for, this mark. -/
def fits (name : String) (mark : Option Bool) (p : Property) : Bool :=
  p.name == name && (match mark with
    | none => true
    | some m => p.isMeta == m)

/-- The last property that fits. -/
def find? (ps : List Property) (name : String) (mark : Option Bool) : Option Property :=
  ps.reverse.find? (fits name mark)

def has (ps : List Property) (name : String) (mark : Option Bool) : Bool :=
  (find? ps name mark).isSome

theorem find?_append (ps qs : List Property) (name : String) (mark : Option Bool) :
    find? (ps ++ qs) name mark = (find? qs name mark).or (find? ps name mark) := by
  simp only [find?, List.reverse_append, List.find?_append]

theorem has_append (ps qs : List Property) (name : String) (mark : Option Bool) :
    has (ps ++ qs) name mark = (has ps name mark || has qs name mark) := by
  rw [has, find?_append, Option.isSome_or, Bool.or_comm]
  rfl

theorem has_iff {ps : List Property} {name : String} {mark : Option Bool} :
    has ps name mark = true ↔ ∃ p ∈ ps, fits name mark p = true := by
  simp only [has, find?, List.find?_isSome, List.mem_reverse]

/-- Equality of properties, in which numbers are compared as numbers. -/
def same (p q : Property) : Bool :=
  p.name == q.name && Value.same? p.value q.value && p.isMeta == q.isMeta

end Property

/-- Equality of lists, item by item. -/
def sameList {α : Type} (same : α → α → Bool) : List α → List α → Bool
  | [], [] => true
  | a :: as, b :: bs => same a b && sameList same as bs
  | _, _ => false

end ClassLang
