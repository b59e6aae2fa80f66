import ClassLang.Build.Node
import ClassLang.Text.Newline
import ClassLang.Text.Utf8

/-!
# From text to declarations

The public entry points: `tokenize` gives the syntax tree of a text, `parseRule` what the text
denotes when it is read as one rule, `parse` the unit of a whole text, and `parseBytes` the unit of
a file. A file is decoded as a whole before its line ends are made equal, and both happen before
anything is read.
-/

namespace ClassLang

def StartRule.unknown (name : String) : String := "unknown start rule " ++ Quoted.quote name

def tokenize (r : StartRule) (text : List Char) : Except Failure Tree :=
  match r.read text with
  | .ok tree => .ok tree
  | .error cause => .error (.rejected text cause)

/-- What a rule on its own gives: a body is a block and a property list is a list. -/
def Part.settle : Part → Part
  | tree (.known .body) _ children => block [] children
  | tree _ _ children => list children
  | p => p

/-- What a text denotes when it is read as one rule. -/
def parseRule (r : StartRule) (text : List Char) : Except Failure Part := do
  let tree ← tokenize r text
  let part ← tree.build text
  return part.settle

/-- The unit of a text. What is built from a text always fits, so it stands for a unit. -/
def parse (text : List Char) : Except Failure SourceUnit := do
  let tree ← tokenize .unit text
  let part ← tree.build text
  return part.unit?.getD ⟨[]⟩

inductive FileFailure where
  | encoding (cause : Utf8.Fault)
  | text (cause : Failure)
  deriving DecidableEq

def parseBytes (bytes : List UInt8) : Except FileFailure SourceUnit :=
  match Utf8.decode bytes with
  | .error cause => .error (.encoding cause)
  | .ok cs =>
    match parse (Newline.normalize cs) with
    | .error cause => .error (.text cause)
    | .ok u => .ok u

/-! ### Results that are computed -/

variable {ε α β : Type} {e : Except ε α}

theorem exists_ok_of_isSome (h : e.toOption.isSome = true) : ∃ a, e = .ok a := by
  cases e with
  | error e => cases h
  | ok a => exact ⟨a, rfl⟩

theorem exists_error_of_isSome (h : e.toOption.isSome = false) : ∃ f, e = .error f := by
  cases e with
  | error e => exact ⟨e, rfl⟩
  | ok a => cases h

theorem exists_ok_of_map {f : α → β} {b : β} (h : e.toOption.map f = some b) :
    ∃ a, e = .ok a ∧ f a = b := by
  cases e with
  | error e => cases h
  | ok a => exact ⟨a, rfl, Option.some.inj h⟩

end ClassLang
