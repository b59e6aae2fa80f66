import ClassLang.Proofs.Syntax.LaidReading
import ClassLang.Proofs.Syntax.Joined

/-!
# Texts on lines of their own

Two texts that are laid out from tokens are laid out together when the second stands on a new line
behind the first: a line feed carries on no lexeme and closes a comment. The tokens of the second
text stand where the first one puts them (`Laid.onNextLine`).
-/

namespace ClassLang

open Terminal

theorem Layout.IsGap.append {closed : Bool} {gap rest : List Char} (h : IsGap true gap)
    (h' : IsGap closed rest) : IsGap closed (gap ++ rest) := by
  generalize htrue : true = b at h
  induction h with
  | nil => exact h'
  | blank hc _ ih => exact .blank hc (ih htrue)
  | block hb _ ih =>
    simp only [List.cons_append, List.append_assoc]
    exact .block hb (ih htrue)
  | line hb _ ih =>
    simp only [List.cons_append, List.append_assoc]
    exact .line hb (ih htrue)
  | lastLine => cases htrue

theorem Terminal.EndsBefore.newline {t : Terminal} {rest : List Char} (h : t.EndsBefore rest)
    {ext : List Char} (ha : Scan.angle (rest ++ '\n' :: ext) = none) :
    t.EndsBefore (rest ++ '\n' :: ext) := by
  have hends : ∀ {f : Char → Bool}, f '\n' = false → startsWith f rest = false →
      startsWith f (rest ++ '\n' :: ext) = false := fun hf hr => startsWith_append hr hf
  cases t with
  | kwClass | kwStatic | kwConst | kwMeta | kwNullptr | bool | identifier =>
    exact ⟨hends rfl h.1, ha⟩
  | float => exact hends rfl h
  | integer => exact ⟨hends rfl h.1, hends rfl h.2⟩
  | star => exact hends rfl h
  | colon => exact hends rfl h
  | _ => trivial

/-! ### Texts in other places -/

/-- Where the tokens of a text stand when the text starts at another place. -/
def Relocation.moving (p q : Position) (text : List Char) : Relocation :=
  let place := fun r : Position => q.advance (text.take (r.offset - p.offset))
  ⟨place, place⟩

theorem Relocation.moving_start (p q : Position) (before rest : List Char) :
    (moving p q (before ++ rest)).start (p.advance before) = q.advance before := by
  have hoffset : (p.advance before).offset - p.offset = before.length := by
    rw [Position.advance_offset, Nat.add_sub_cancel_left]
  show q.advance ((before ++ rest).take ((p.advance before).offset - p.offset)) = _
  rw [hoffset, List.take_left]

theorem Relocation.moving_stop (p q : Position) (before rest : List Char) :
    (moving p q (before ++ rest)).stop (p.advance before) = q.advance before :=
  moving_start p q before rest

namespace Laid

variable {p : Position} {ts us : List Token} {text other : List Char}

/-- No text that is laid out starts like what opens a matrix behind its name. -/
theorem angle {ext : List Char} (h : Laid p ts text) (he : Scan.angle ext = none) :
    Scan.angle (text ++ ext) = none := by
  cases h with
  | nil hg => exact hg.angle he
  | cons hg _ hm _ _ =>
    rw [List.append_assoc, List.append_assoc]
    exact hg.angle (Terminal.angle_word hm)

theorem behind_gap {gap : List Char} (hg : Layout.IsGap true gap)
    (h : Laid (p.advance gap) ts text) : Laid p ts (gap ++ text) := by
  cases h with
  | nil hrest => exact .nil (hg.append hrest)
  | @cons _ t ts inner rest hi hr hm he h =>
    rw [← List.append_assoc]
    refine .cons (hg.append hi) ?_ hm he h
    rw [hr, Position.advance_append]

theorem shift (offset lines : Nat) (h : Laid p ts text) :
    Laid (p.shift offset lines) (ts.map (Token.relocate (.shift offset lines))) text := by
  induction h with
  | nil hg => exact .nil hg
  | @cons p t ts gap rest hg hr hm he _ ih =>
    refine .cons hg ?_ hm he ih
    rw [Token.relocate, Range.relocate, hr, Position.advance_shift, Position.advance_shift]
    rfl

theorem moving (q : Position) {before : List Char} (h : Laid (p.advance before) ts text) :
    Laid (q.advance before)
      (ts.map (Token.relocate (Relocation.moving p q (before ++ text)))) text := by
  generalize hp : p.advance before = s at h
  induction h generalizing before with
  | nil hg => exact .nil hg
  | @cons s t ts gap rest hg hr hm he _ ih =>
    subst hp
    have hback : before ++ (gap ++ (t.text.toList ++ rest)) =
        (before ++ gap ++ t.text.toList) ++ rest := by
      simp only [List.append_assoc]
    have hstop : t.range.stop = p.advance (before ++ gap ++ t.text.toList) := by
      rw [hr, ← Position.advance_append, ← Position.advance_append]
    have hrange : (t.relocate (.moving p q (before ++ (gap ++ (t.text.toList ++ rest))))).range =
        ⟨q.advance (before ++ gap), q.advance (before ++ gap ++ t.text.toList)⟩ := by
      rw [Token.relocate, Range.relocate, hr, hback, ← Position.advance_append,
        ← Position.advance_append, Relocation.moving_stop, List.append_assoc,
        Relocation.moving_start]
    have hrest := ih hstop.symm
    rw [← hback] at hrest
    refine .cons hg ?_ hm he ?_
    · rw [hrange, ← Position.advance_append, ← Position.advance_append]
      rfl
    · rw [hrange]
      exact hrest

theorem exists_moved (h : Laid .start ts text) (q : Position) :
    ∃ m : Relocation, Laid q (ts.map (Token.relocate m)) text := by
  have hstart : Laid (Position.start.advance []) ts text := h
  exact ⟨_, moving q hstart⟩

/-- Texts that are laid out one behind the other, on lines of their own. -/
theorem append_newline (h : Laid p ts text) (h' : Laid (p.advance (text ++ ['\n'])) us other) :
    Laid p (ts ++ us) (text ++ '\n' :: other) := by
  induction h with
  | nil hg =>
    have hgap := behind_gap hg.newline h'
    rwa [List.append_assoc, List.singleton_append] at hgap
  | @cons p t ts gap rest hg hr hm he h ih =>
    have hplace : p.advance (gap ++ (t.text.toList ++ rest) ++ ['\n']) =
        t.range.stop.advance (rest ++ ['\n']) := by
      rw [hr, ← Position.advance_append, ← Position.advance_append]
      simp only [List.append_assoc]
    rw [hplace] at h'
    have hangle : Scan.angle (rest ++ '\n' :: other) = none := by
      have hline : Scan.angle ('\n' :: other) = none := by
        have hother : Scan.angle (other ++ []) = none := h'.angle rfl
        rw [List.append_nil] at hother
        exact Scan.angle_cons_blank rfl hother
      exact h.angle hline
    rw [List.append_assoc, List.append_assoc]
    exact .cons hg hr hm (he.newline hangle) (ih h')

theorem onNextLine (h : Laid .start ts text) (h' : Laid .start us other) :
    Laid .start (ts ++ us.map (Token.relocate (.behind text)))
      (text ++ '\n' :: other) := by
  refine h.append_newline ?_
  rw [Position.advance_newline]
  exact h'.shift _ _

end Laid

end ClassLang
