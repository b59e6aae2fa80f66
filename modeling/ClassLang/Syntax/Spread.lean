import ClassLang.Syntax.Pattern
import ClassLang.Syntax.Read

/-!
# Tokens in a text

A text is its tokens in order with layout before, between and behind them: `Spread`. Each token is
given with its range, which is where it stands, and its text belongs to its terminal. Main
statement: a text that is read is spread from tokens over which the reading point moves to a point
where the text may end.
-/

namespace ClassLang

namespace Layout

/-- What may stand inside a block comment: no star is followed by a slash. -/
inductive IsCommentBody : List Char → Prop
  | nil : IsCommentBody []
  | cons {c : Char} {cs : List Char} (hc : ¬(c = '*' ∧ cs.head? = some '/'))
      (h : IsCommentBody cs) : IsCommentBody (c :: cs)

/-- A stretch of layout. In a closed one every line comment is ended by its line feed; only at the
end of a text may one be open. -/
inductive IsGap : Bool → List Char → Prop
  | nil {closed : Bool} : IsGap closed []
  | blank {closed : Bool} {c : Char} {cs : List Char} (hc : Blank.isLayout c = true)
      (h : IsGap closed cs) : IsGap closed (c :: cs)
  | block {closed : Bool} {body cs : List Char} (hb : IsCommentBody body) (h : IsGap closed cs) :
      IsGap closed ('/' :: '*' :: (body ++ '*' :: '/' :: cs))
  | line {closed : Bool} {body cs : List Char} (hb : '\n' ∉ body)
      (h : IsGap closed ('\n' :: cs)) : IsGap closed ('/' :: '/' :: (body ++ '\n' :: cs))
  | lastLine {body : List Char} (hb : '\n' ∉ body) : IsGap false ('/' :: '/' :: body)

theorem isCommentBody_of_blockComment? {cs inside rest : List Char}
    (h : blockComment? cs = some (inside, rest)) :
    ∃ body, IsCommentBody body ∧ inside = body ++ ['*', '/'] := by
  fun_induction blockComment? cs generalizing inside rest with
  | case1 => simp at h
  | case2 cs =>
    simp only [Option.some.injEq, Prod.mk.injEq] at h
    exact ⟨[], .nil, h.1.symm⟩
  | case3 c cs hne ih =>
    obtain ⟨⟨inner, after⟩, hi, he⟩ := Option.map_eq_some_iff.1 h
    simp only [Prod.mk.injEq] at he
    obtain ⟨rfl, rfl⟩ := he
    obtain ⟨body, hb, rfl⟩ := ih hi
    refine ⟨c :: body, .cons ?_ hb, rfl⟩
    rintro ⟨hc, hs⟩
    have ha := blockComment?_append hi
    cases body with
    | nil => simp at hs
    | cons d ds =>
      simp only [List.head?_cons, Option.some.injEq] at hs
      subst hc hs
      exact hne (ds ++ ['*', '/'] ++ after) rfl ha.symm

theorem dropWhile_newline (cs : List Char) :
    cs.dropWhile (· ≠ '\n') = [] ∨ ∃ rest, cs.dropWhile (· ≠ '\n') = '\n' :: rest := by
  induction cs with
  | nil => exact Or.inl rfl
  | cons c cs ih =>
    by_cases hc : c = '\n'
    · exact Or.inr ⟨cs, by rw [List.dropWhile_cons_of_neg (by simpa using hc), hc]⟩
    · rw [List.dropWhile_cons_of_pos (by simpa using hc)]
      exact ih

theorem piece?_newline (cs : List Char) : piece? ('\n' :: cs) = some (['\n'], cs) := rfl

/-- The layout in front of a text is a gap, and a closed one if something follows. -/
theorem isGap_split (closed : Bool) (cs : List Char)
    (hc : closed = true → (split cs).2 ≠ []) : IsGap closed (split cs).1 := by
  cases hp : piece? cs with
  | none =>
    rw [split_of_none hp]
    exact .nil
  | some pr =>
    obtain ⟨piece, rest⟩ := pr
    have hs := piece?_shorter hp
    rw [split_of_some hp] at hc ⊢
    have ih := isGap_split closed rest hc
    unfold piece? at hp
    split at hp
    · rename_i ds
      simp only [Option.some.injEq, Prod.mk.injEq] at hp
      obtain ⟨rfl, rfl⟩ := hp
      have hn := Excerpt.newline_not_mem_takeWhile ds
      rcases dropWhile_newline ds with hd | ⟨after, hd⟩
      · rw [hd] at hc ⊢
        rw [split_of_none rfl] at hc ⊢
        cases closed with
        | true => exact absurd rfl (hc rfl)
        | false =>
          rw [List.append_nil]
          exact .lastLine hn
      · rw [hd] at ih ⊢
        rw [split_of_some (piece?_newline after)] at ih ⊢
        exact .line hn ih
    · obtain ⟨⟨inside, after⟩, hb, he⟩ := Option.map_eq_some_iff.1 hp
      simp only [Prod.mk.injEq] at he
      obtain ⟨rfl, rfl⟩ := he
      obtain ⟨body, hbody, rfl⟩ := isCommentBody_of_blockComment? hb
      simp only [List.cons_append, List.append_assoc, List.nil_append]
      exact .block hbody ih
    · split at hp
      · rename_i hl
        simp only [Option.some.injEq, Prod.mk.injEq] at hp
        obtain ⟨rfl, rfl⟩ := hp
        exact .blank hl ih
      · simp at hp
    · simp at hp
  termination_by cs.length

end Layout

/-- Tokens as they are spread over a text that starts at a position. -/
inductive Spread : Position → List Token → List Char → Prop
  | nil {p : Position} {gap : List Char} (hg : Layout.IsGap false gap) : Spread p [] gap
  | cons {p : Position} {t : Token} {ts : List Token} {gap w rest : List Char}
      (hg : Layout.IsGap true gap) (hr : t.range = ⟨p.advance gap, (p.advance gap).advance w⟩)
      (ht : t.text = String.ofList w) (hm : t.terminal.Matches w)
      (h : Spread t.range.stop ts rest) : Spread p (t :: ts) (gap ++ (w ++ rest))

/-- The point behind some tokens. -/
def Point.run (p : Point) (ts : List Token) : Option Point := ts.foldlM step p

theorem Point.run_cons (p : Point) (t : Token) (ts : List Token) :
    p.run (t :: ts) = (p.step t).bind fun q => q.run ts := rfl

theorem Point.run_append (p : Point) (ts us : List Token) :
    p.run (ts ++ us) = (p.run ts).bind fun q => q.run us := by
  simp only [run, List.foldlM_append]
  rfl

/-- A text that is read is spread from tokens that lead to a point where it may end. -/
theorem spread_of_run (r : Reading) {tree : Tree} (h : r.run = .ok tree) :
    ∃ ts q, Spread r.place ts r.rest ∧ r.point.run ts = some q ∧ q.finish? = some tree := by
  have ha := Layout.split_append r.rest
  cases hm : r.move with
  | answer a =>
    rw [Reading.run_of_answer hm] at h
    subst h
    unfold Reading.move Reading.moveOver at hm
    split at hm
    · rename_i he
      have hnil := List.isEmpty_iff.1 he
      simp only [Move.answer.injEq, Reading.answerAtEnd] at hm
      split at hm
      · rename_i t ht
        simp only [Except.ok.injEq] at hm
        subst hm
        refine ⟨[], r.point, ?_, rfl, ht⟩
        rw [← ha, hnil, List.append_nil]
        exact .nil (Layout.isGap_split false r.rest (fun e => absurd e Bool.false_ne_true))
      · simp at hm
    · unfold Reading.moveAt at hm
      split at hm
      · simp at hm
      · simp only at hm
        split at hm <;> simp at hm
  | next s =>
    have hlt := Reading.rest_length_lt hm
    rw [Reading.run_of_next hm] at h
    obtain ⟨ts, q, hsp, hrun, hfin⟩ := spread_of_run s h
    obtain ⟨hne, hmove⟩ := Reading.move_next hm
    obtain ⟨l, hl, hstep, hs⟩ := Reading.moveAt_next hmove
    have hplace : s.place = (r.place.advance (Layout.split r.rest).1).advance l.text := by rw [hs]
    have hrest : s.rest = l.rest := by rw [hs]
    rw [hplace, hrest] at hsp
    have hgap := Layout.isGap_split true r.rest (fun _ => hne)
    have hspread := Spread.cons hgap (t := ⟨l.terminal, String.ofList l.text, _⟩) rfl rfl
      (lexeme?_matches hl) hsp
    rw [lexeme?_append hl, ha] at hspread
    refine ⟨_, q, hspread, ?_, hfin⟩
    rw [Point.run_cons, hstep]
    exact hrun
  termination_by r.rest.length

end ClassLang
