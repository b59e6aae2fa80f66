/-!
# Positions in a text

A position is an offset in characters together with the line and the column it falls on. Only a
line feed starts a new line. `Position.advance` walks over a piece of text, and walking over two
pieces is walking over their concatenation, so a position depends on nothing but the characters
before it.
-/

namespace ClassLang

/-- An offset counted from 0, with its line and column counted from 1. -/
structure Position where
  offset : Nat
  line : Nat
  column : Nat
  deriving DecidableEq, Repr

namespace Position

def start : Position := ⟨0, 1, 1⟩

def next (p : Position) (c : Char) : Position :=
  if c = '\n' then ⟨p.offset + 1, p.line + 1, 1⟩ else ⟨p.offset + 1, p.line, p.column + 1⟩

/-- The position after a piece of text. -/
def advance (p : Position) (cs : List Char) : Position := cs.foldl next p

theorem advance_nil (p : Position) : p.advance [] = p := rfl

theorem advance_cons (p : Position) (c : Char) (cs : List Char) :
    p.advance (c :: cs) = (p.next c).advance cs := rfl

theorem advance_append (p : Position) (cs ds : List Char) :
    p.advance (cs ++ ds) = (p.advance cs).advance ds := by
  simp only [advance, List.foldl_append]

theorem next_offset (p : Position) (c : Char) : (p.next c).offset = p.offset + 1 := by
  unfold next
  split <;> rfl

theorem advance_offset (p : Position) (cs : List Char) :
    (p.advance cs).offset = p.offset + cs.length := by
  induction cs generalizing p with
  | nil => rfl
  | cons c cs ih =>
    rw [advance_cons, ih, next_offset, List.length_cons]
    omega

theorem offset_advance_start (cs : List Char) : (start.advance cs).offset = cs.length := by
  rw [advance_offset, start, Nat.zero_add]

theorem advance_line (p : Position) (cs : List Char) :
    (p.advance cs).line = p.line + cs.count '\n' := by
  induction cs generalizing p with
  | nil => rfl
  | cons c cs ih =>
    rw [advance_cons, ih, List.count_cons]
    by_cases h : c = '\n'
    · simp only [next, h, if_true, beq_self_eq_true]
      omega
    · simp only [next, h, if_false, beq_iff_eq]
      omega

end Position

structure Range where
  start : Position
  stop : Position
  deriving DecidableEq, Repr

/-- A stretch of a text with what stands there, as it is reported. -/
structure Span where
  start : Int
  stop : Int
  line : Int
  column : Int
  endLine : Int
  endColumn : Int
  fragment : String
  deriving DecidableEq, Repr

namespace Span

def ofRange (r : Range) (fragment : String) : Span :=
  ⟨r.start.offset, r.stop.offset, r.start.line, r.start.column, r.stop.line, r.stop.column,
    fragment⟩

def text (s : Span) : String := s!"{s.line}:{s.column}-{s.endLine}:{s.endColumn}"

end Span

end ClassLang
