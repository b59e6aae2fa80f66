import ClassLang.Text.Newline
import ClassLang.Text.Position

/-!
# Other line ends

`Newline.write` gives a text other line ends, and `Newline.widen` puts a carriage return in front of
each line feed. Reading a file takes such line ends back (`normalize_write`). A carriage return in
front of a line feed moves no other character to another line or column (`advance_widen`).
-/

namespace ClassLang

namespace Newline

/-- A text with each of its line feeds written another way. -/
def write (e : List Char) (cs : List Char) : List Char :=
  cs.flatMap fun c => if c = '\n' then e else [c]

theorem write_cons (e : List Char) (c : Char) (cs : List Char) :
    write e (c :: cs) = (if c = '\n' then e else [c]) ++ write e cs := List.flatMap_cons

theorem normalize_cons {c : Char} {cs : List Char} (hc : c ≠ '\r') :
    normalize (c :: cs) = c :: normalize cs := by
  rw [normalize, if_neg hc]
  exact fun cs h => absurd h hc

theorem normalize_return {cs : List Char} (h : '\n' ∉ cs) :
    normalize ('\r' :: cs) = '\n' :: normalize cs := by
  rw [normalize]
  · rfl
  · rintro cs - rfl
    exact h List.mem_cons_self

/-- The ways in which the lines of a file may end. -/
def ends : List (List Char) := [['\n'], ['\r', '\n'], ['\r']]

theorem newline_not_mem_write {e cs : List Char} (he : '\n' ∉ e) : '\n' ∉ write e cs := by
  intro h
  obtain ⟨c, -, hc⟩ := List.mem_flatMap.1 h
  split at hc
  · exact he hc
  · rename_i hne
    exact hne (List.mem_singleton.1 hc).symm

/-- However its lines end, a file is read to the text with line feeds. -/
theorem normalize_write {e cs : List Char} (he : e ∈ ends) (h : '\r' ∉ cs) :
    normalize (write e cs) = cs := by
  induction cs with
  | nil => rfl
  | cons c cs ih =>
    obtain ⟨hc, hcs⟩ := not_or.1 (mt List.mem_cons.2 h)
    have hrest := ih hcs
    rw [write_cons]
    split
    · rename_i hnewline
      simp only [ends, List.mem_cons, List.not_mem_nil, or_false] at he
      rcases he with rfl | rfl | rfl
      · rw [List.singleton_append, normalize_cons (by decide), hrest, hnewline]
      · show normalize ('\r' :: '\n' :: write ['\r', '\n'] cs) = _
        rw [normalize, hrest, hnewline]
      · rw [List.singleton_append, normalize_return (newline_not_mem_write (by decide)), hrest,
          hnewline]
    · rw [List.singleton_append, normalize_cons (Ne.symm hc), hrest]

/-- A text with a carriage return in front of each line feed. -/
def widen (cs : List Char) : List Char := write ['\r', '\n'] cs

def widenString (s : String) : String := String.ofList (widen s.toList)

theorem widen_nil : widen [] = [] := rfl

theorem widen_newline (cs : List Char) : widen ('\n' :: cs) = '\r' :: '\n' :: widen cs := rfl

theorem widen_cons {c : Char} (hc : c ≠ '\n') (cs : List Char) :
    widen (c :: cs) = c :: widen cs := by
  rw [widen, write_cons, if_neg hc]
  rfl

theorem widen_append (cs ds : List Char) : widen (cs ++ ds) = widen cs ++ widen ds :=
  List.flatMap_append

theorem widen_of_not_mem {cs : List Char} (h : '\n' ∉ cs) : widen cs = cs := by
  induction cs with
  | nil => rfl
  | cons c cs ih =>
    obtain ⟨hc, hcs⟩ := not_or.1 (mt List.mem_cons.2 h)
    rw [widen_cons (Ne.symm hc), ih hcs]

theorem widen_eq_nil {cs : List Char} : widen cs = [] ↔ cs = [] := by
  cases cs with
  | nil => exact Iff.rfl
  | cons c cs =>
    by_cases hc : c = '\n'
    · rw [hc, widen_newline]
      exact iff_of_false (List.cons_ne_nil _ _) (List.cons_ne_nil _ _)
    · rw [widen_cons hc]
      exact iff_of_false (List.cons_ne_nil _ _) (List.cons_ne_nil _ _)

theorem isEmpty_widen (cs : List Char) : (widen cs).isEmpty = cs.isEmpty := by
  rw [Bool.eq_iff_iff, List.isEmpty_iff, List.isEmpty_iff, widen_eq_nil]

/-! ### Stretches of characters -/

variable {p : Char → Bool}

theorem takeWhile_widen (h : p '\r' = p '\n') (cs : List Char) :
    (widen cs).takeWhile p = widen (cs.takeWhile p) := by
  induction cs with
  | nil => rfl
  | cons c cs ih =>
    by_cases hc : c = '\n'
    · subst hc
      rw [widen_newline, List.takeWhile_cons, List.takeWhile_cons, List.takeWhile_cons, h]
      cases hp : p '\n' with
      | false => rfl
      | true => simp only [if_true, ih, widen_newline]
    · rw [widen_cons hc, List.takeWhile_cons, List.takeWhile_cons, ih]
      cases p c with
      | false => rfl
      | true => rw [if_pos rfl, if_pos rfl, widen_cons hc]

theorem dropWhile_widen (h : p '\r' = p '\n') (cs : List Char) :
    (widen cs).dropWhile p = widen (cs.dropWhile p) := by
  have hwhole := congrArg widen (List.takeWhile_append_dropWhile (p := p) (l := cs))
  have hparts : (widen cs).takeWhile p ++ (widen cs).dropWhile p = widen cs :=
    List.takeWhile_append_dropWhile
  rw [widen_append, ← takeWhile_widen h] at hwhole
  exact List.append_cancel_left (hparts.trans hwhole.symm)

end Newline

/-! ### Lines and columns -/

/-- Whether two positions are on the same line and in the same column. -/
def Position.SamePlace (p q : Position) : Prop := q.line = p.line ∧ q.column = p.column

theorem Position.SamePlace.refl (p : Position) : p.SamePlace p := ⟨rfl, rfl⟩

/-- Carriage returns in front of line feeds move nothing to another line or column. -/
theorem Position.SamePlace.widen {p q : Position} (h : p.SamePlace q) (cs : List Char) :
    (p.advance cs).SamePlace (q.advance (Newline.widen cs)) := by
  induction cs generalizing p q with
  | nil => exact h
  | cons c cs ih =>
    obtain ⟨hline, hcolumn⟩ := h
    by_cases hc : c = '\n'
    · subst hc
      rw [Newline.widen_newline, advance_cons, advance_cons, advance_cons]
      apply ih
      exact ⟨congrArg Nat.succ hline, rfl⟩
    · rw [Newline.widen_cons hc, advance_cons, advance_cons]
      apply ih
      simp only [next, hc, if_false]
      exact ⟨hline, congrArg Nat.succ hcolumn⟩

end ClassLang
