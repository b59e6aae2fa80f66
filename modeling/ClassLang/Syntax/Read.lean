import ClassLang.Syntax.Layout
import ClassLang.Syntax.Lexeme
import ClassLang.Syntax.Step
import ClassLang.Text.Excerpt

/-!
# Reading a text

A `Reading` is a text that is read up to a place. A move skips layout, takes the next lexeme among
the terminals acceptable at the point there, and moves the point over it. Where that fails the text
is rejected at that place. Where the text ends too early it is rejected at the start of its last
token. Each move leaves less of the text, so `Reading.run` ends.
-/

namespace ClassLang

/-- What was met where a text is rejected: something that starts like a token of the language, or
the end of the text, or characters that start no token at all. -/
inductive Unexpected where
  | token
  | characters
  deriving DecidableEq, Repr

structure Rejection where
  unexpected : Unexpected
  place : Position
  deriving DecidableEq, Repr

namespace Rejection

def atText (place : Position) (rest : List Char) : Rejection :=
  ⟨if Terminal.startsAt rest then .token else .characters, place⟩

def word (r : Rejection) : String :=
  match r.unexpected with
  | .token => "UnexpectedToken"
  | .characters => "UnexpectedCharacters"

/-- The message of a rejection, which shows the place in the text. -/
def detail (text : List Char) (r : Rejection) : String :=
  r.word ++ "\n" ++ String.ofList (Excerpt.around text r.place.offset)

end Rejection

/-- A text that is read up to a place: the point there, where the last token starts, where the rest
of the text starts, and that rest. -/
structure Reading where
  point : Point
  last : Position
  place : Position
  rest : List Char

/-- What reading comes to next: one token further, or an answer. -/
inductive Move where
  | next (r : Reading)
  | answer (a : Except Rejection Tree)

namespace Reading

def answerAtEnd (r : Reading) : Except Rejection Tree :=
  match r.point.finish? with
  | some tree => .ok tree
  | none => .error ⟨.token, r.last⟩

/-- The move over a token that starts at a place. -/
def moveAt (r : Reading) (place : Position) (cs : List Char) : Move :=
  match lexeme? r.point.accepts cs with
  | none => .answer (.error (.atText place cs))
  | some l =>
    let stop := place.advance l.text
    match r.point.step ⟨l.terminal, String.ofList l.text, ⟨place, stop⟩⟩ with
    | none => .answer (.error (.atText place cs))
    | some q => .next ⟨q, place, stop, l.rest⟩

/-- The move over some layout and what follows it. -/
def moveOver (r : Reading) (gap cs : List Char) : Move :=
  if cs.isEmpty then .answer r.answerAtEnd else r.moveAt (r.place.advance gap) cs

def move (r : Reading) : Move := r.moveOver (Layout.split r.rest).1 (Layout.split r.rest).2

theorem moveAt_next {r s : Reading} {place : Position} {cs : List Char}
    (h : r.moveAt place cs = .next s) :
    ∃ l, lexeme? r.point.accepts cs = some l ∧
      r.point.step ⟨l.terminal, String.ofList l.text, ⟨place, place.advance l.text⟩⟩ =
        some s.point ∧
      s = ⟨s.point, place, place.advance l.text, l.rest⟩ := by
  unfold moveAt at h
  split at h
  · simp at h
  · rename_i l hl
    simp only at h
    split at h
    · simp at h
    · rename_i q hq
      simp only [Move.next.injEq] at h
      subst h
      exact ⟨l, hl, hq, rfl⟩

theorem move_next {r s : Reading} (h : r.move = .next s) :
    (Layout.split r.rest).2 ≠ [] ∧
      r.moveAt (r.place.advance (Layout.split r.rest).1) (Layout.split r.rest).2 = .next s := by
  unfold move moveOver at h
  split at h
  · simp at h
  · rename_i he
    exact ⟨fun e => he (by rw [e]; rfl), h⟩

theorem rest_length_lt {r s : Reading} (h : r.move = .next s) :
    s.rest.length < r.rest.length := by
  obtain ⟨l, hl, -, hs⟩ := moveAt_next (move_next h).2
  rw [hs]
  exact Nat.lt_of_lt_of_le (lexeme?_shorter hl) (Layout.split_length_le r.rest)

def run (r : Reading) : Except Rejection Tree :=
  match _h : r.move with
  | .answer a => a
  | .next s => run s
  termination_by r.rest.length
  decreasing_by exact rest_length_lt _h

theorem run_of_answer {r : Reading} {a : Except Rejection Tree} (h : r.move = .answer a) :
    r.run = a := by
  rw [run]
  split <;> simp_all only [Move.answer.injEq, reduceCtorEq]

theorem run_of_next {r s : Reading} (h : r.move = .next s) : r.run = s.run := by
  rw [run]
  split <;> simp_all only [Move.next.injEq, reduceCtorEq]

end Reading

def StartRule.reading (r : StartRule) (text : List Char) : Reading :=
  ⟨r.point, .start, .start, text⟩

def StartRule.read (r : StartRule) (text : List Char) : Except Rejection Tree :=
  (r.reading text).run

end ClassLang
