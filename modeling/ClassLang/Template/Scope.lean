import ClassLang.Disk.Path
import ClassLang.View

/-!
# Scopes

What a template run sees: named values, in the order in which the names were first set. A file has
one scope for all its classes. Setting a name keeps its place and leaves all other names as they
are, so what one class left behind is there for the next, but for the names that describe a class.
Those are set together, and none of them is where the class has no view.
-/

namespace ClassLang

inductive ScopeValue where
  | text (s : String)
  | texts (items : List String)
  | number (n : Int)
  | properties (items : List PropertyView)
  | fields (items : List FieldView)
  | methods (items : List MethodView)
  | classView (c : ClassView)

structure Scope where
  entries : List (String × ScopeValue)

namespace Scope

def get? (s : Scope) (name : String) : Option ScopeValue := s.entries.lookup name

def setIn (name : String) (value : ScopeValue) :
    List (String × ScopeValue) → List (String × ScopeValue)
  | [] => [(name, value)]
  | (n, v) :: rest => if n = name then (name, value) :: rest else (n, v) :: setIn name value rest

def set (s : Scope) (name : String) (value : ScopeValue) : Scope := ⟨setIn name value s.entries⟩

theorem lookup_setIn (name other : String) (value : ScopeValue)
    (entries : List (String × ScopeValue)) :
    (setIn name value entries).lookup other =
      if other = name then some value else entries.lookup other := by
  induction entries with
  | nil =>
    by_cases h : other = name
    · rw [if_pos h, setIn, h, List.lookup_cons_self]
    · rw [if_neg h, setIn, List.lookup_cons, beq_eq_false_iff_ne.2 h]
  | cons e rest ih =>
    obtain ⟨n, v⟩ := e
    rw [setIn]
    by_cases hn : n = name
    · rw [if_pos hn, List.lookup_cons, List.lookup_cons, hn]
      by_cases h : other = name
      · rw [if_pos h, beq_iff_eq.2 h]
      · rw [if_neg h, beq_eq_false_iff_ne.2 h]
    · rw [if_neg hn, List.lookup_cons, List.lookup_cons, ih]
      by_cases ho : other = n
      · have hne : ¬other = name := fun e => hn (ho.symm.trans e)
        rw [beq_iff_eq.2 ho, if_neg hne, if_neg hne]
      · rw [beq_eq_false_iff_ne.2 ho]

theorem get?_set (s : Scope) (name other : String) (value : ScopeValue) :
    (s.set name value).get? other = if other = name then some value else s.get? other :=
  lookup_setIn name other value s.entries

/-- The scope of the file at a path before its first class. -/
def ofFile (work : List String) (p : Path) : Scope :=
  ⟨[("Filename", .text p.baseName), ("Path", .text (p.directory work).text)]⟩

/-- The names that describe a class, with their values. -/
def classEntries? (depth : Nat) (c : Class) : Option (List (String × ScopeValue)) := do
  let view ← c.view? depth
  let fields ← c.fields.mapM (Field.view? depth)
  return [("Name", .text c.name), ("Inherit", .texts c.bases),
    ("Properties", .properties (c.properties.map Property.view)), ("Class", .classView view),
    ("Fields", .fields fields), ("Methods", .methods (c.methods.map Method.view))]

theorem classEntries?_eq_some {depth : Nat} {c : Class} {entries : List (String × ScopeValue)} :
    classEntries? depth c = some entries ↔
      ∃ view fields, c.view? depth = some view ∧
        c.fields.mapM (Field.view? depth) = some fields ∧
        entries = [("Name", .text c.name), ("Inherit", .texts c.bases),
          ("Properties", .properties (c.properties.map Property.view)),
          ("Class", .classView view), ("Fields", .fields fields),
          ("Methods", .methods (c.methods.map Method.view))] := by
  rw [classEntries?]
  cases c.view? depth <;> cases c.fields.mapM (Field.view? depth) <;> simp [eq_comm]

/-- The scope with the given names set. -/
def setAll (s : Scope) (entries : List (String × ScopeValue)) : Scope :=
  entries.foldl (fun s e => s.set e.1 e.2) s

end Scope

end ClassLang
