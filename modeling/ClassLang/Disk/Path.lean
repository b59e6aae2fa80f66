/-!
# Paths

A path is the list of its names, as they stand between the slashes of its text. A name may be empty
or a dot, which both mean the directory they are in, or two dots, which mean the one above. Paths
keep such names, since their text is shown as it was given; `Path.normalize` removes them. A text
that starts with a slash is a path from the root of all paths, and any other one starts in the
working directory, which is given by the names that lead to it from the root.
-/

namespace ClassLang

structure Path where
  names : List String
  deriving DecidableEq, Repr

namespace Path

/-- The names between the slashes of a text. -/
def namesOf (s : String) : List String := (s.toList.splitOn '/').map String.ofList

def ofText (s : String) : Path := ⟨namesOf s⟩

def text (p : Path) : String := "/".intercalate p.names

/-- A path followed by a text. A text that starts at the root of all paths replaces the path, and a
slash at the end of the path is not doubled. -/
def join (p : Path) (s : String) : Path :=
  if s.toList.head? = some '/' then ofText s
  else if p.names.getLast? = some "" then ⟨p.names.dropLast ++ namesOf s⟩
  else ⟨p.names ++ namesOf s⟩

/-- What is behind the last slash. -/
def baseName (p : Path) : String := p.names.getLast?.getD ""

/-- A path without the slashes at its end, unless it is made of slashes only. -/
def trimmed (p : Path) : Path :=
  match p.names.reverse.dropWhile (· = "") with
  | [] => p
  | names => ⟨names.reverse⟩

/-- The path around the last name. -/
def around (p : Path) : Path := ⟨p.names.dropLast⟩

/-- The paths of the directories that a path leads through, the nearest first. -/
def way (p : Path) : List Path :=
  (((List.range p.trimmed.names.length).map fun n => Path.mk (p.names.take n)).filter
    fun q => q.baseName ≠ "").reverse

/-- One more name of a normalized path. -/
def push (names : List String) (name : String) : List String :=
  if name = "" ∨ name = "." then names
  else if name = ".." then names.dropLast
  else names ++ [name]

/-- The names without those that only move about. -/
def normalize (names : List String) : List String := names.foldl push []

/-- Whether the text of a path starts with a slash. -/
def isAbsolute (p : Path) : Bool := p.names.head? = some "" && 1 < p.names.length

/-- What stands in front of the names of a normalized path: one slash, or two if there are two and
no third one. -/
def root (p : Path) : List String :=
  match p.names with
  | ["", "", ""] => ["", ""]
  | "" :: "" :: name :: _ => if name = "" then [""] else ["", ""]
  | _ => [""]

/-- The path from the root of all paths of the directory that holds the last name. -/
def directory (work : List String) (p : Path) : Path :=
  let names := (normalize (if p.isAbsolute then p.names else work ++ p.names)).dropLast
  ⟨p.root ++ if names = [] then [""] else names⟩

/-- Whether a name can stand between two slashes and moves nowhere. -/
def IsPlain (name : String) : Prop :=
  name ≠ "" ∧ name ≠ "." ∧ name ≠ ".." ∧ '/' ∉ name.toList

theorem namesOf_of_not_mem {s : String} (h : '/' ∉ s.toList) : namesOf s = [s] := by
  rw [namesOf, List.splitOn, List.splitOnP_eq_singleton]
  · simp only [List.map_cons, List.map_nil, String.ofList_toList]
  · intro c hc
    exact beq_eq_false_iff_ne.2 (fun e => h (e ▸ hc))

end Path

end ClassLang
