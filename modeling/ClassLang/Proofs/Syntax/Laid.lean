import ClassLang.Parse
import ClassLang.Proofs.Syntax.Accepts
import ClassLang.Proofs.Syntax.Delimited
import ClassLang.Syntax.Spread

/-!
# Reading along a path

A path of reading points over tokens (`Point.Leads`) is a run of steps in which no name is mistaken
for a keyword that is looked for where the name stands. A text is laid out from tokens (`Laid`) if
layout stands between them and each of them is delimited. Main statement: a text that is laid out
from tokens along a path to a point where it may end is read to the tree of that point.
-/

namespace ClassLang

/-! ### Layout in front of a token -/

namespace Layout

theorem piece?_blank {c : Char} {cs : List Char} (hc : Blank.isLayout c = true) :
    piece? (c :: cs) = some ([c], cs) := by
  simp only [Blank.isLayout, Bool.or_eq_true, decide_eq_true_eq] at hc
  rcases hc with (((rfl | rfl) | rfl) | rfl) | rfl <;> rfl

theorem blockComment?_of_isCommentBody {body cs : List Char} (h : IsCommentBody body) :
    blockComment? (body ++ '*' :: '/' :: cs) = some (body ++ ['*', '/'], cs) := by
  induction h with
  | nil => rfl
  | @cons c ds hc _ ih =>
    rw [List.cons_append, blockComment?, ih]
    · rfl
    · rintro es rfl he
      cases ds with
      | nil => cases he
      | cons d ds => exact hc ⟨rfl, congrArg some (List.cons.inj he).1⟩

theorem takeWhile_line {body cs : List Char} (hb : '\n' ∉ body) :
    (body ++ '\n' :: cs).takeWhile (· ≠ '\n') = body ∧
      (body ++ '\n' :: cs).dropWhile (· ≠ '\n') = '\n' :: cs := by
  refine Scan.takeWhile_delimited ?_ rfl
  intro c hc
  refine decide_eq_true ?_
  rintro rfl
  exact hb hc

theorem takeWhile_lastLine {body : List Char} (hb : '\n' ∉ body) :
    body.takeWhile (· ≠ '\n') = body ∧ body.dropWhile (· ≠ '\n') = [] := by
  have h : (body ++ []).takeWhile (· ≠ '\n') = body ∧ (body ++ []).dropWhile (· ≠ '\n') = [] := by
    refine Scan.takeWhile_delimited ?_ rfl
    intro c hc
    refine decide_eq_true ?_
    rintro rfl
    exact hb hc
  rwa [List.append_nil] at h

/-- A gap is exactly the layout in front of a text that does not start with layout. A gap that is
not closed stands at the end of the text. -/
theorem split_of_isGap {closed : Bool} {gap rest : List Char} (h : IsGap closed gap)
    (hr : piece? rest = none) (hc : closed = false → rest = []) :
    split (gap ++ rest) = (gap, rest) := by
  induction h with
  | nil => exact split_of_none hr
  | blank hb _ ih => rw [List.cons_append, split_of_some (piece?_blank hb), ih hc]; rfl
  | @block _ body cs hb _ ih =>
    have hp : piece? ('/' :: '*' :: (body ++ '*' :: '/' :: (cs ++ rest))) =
        some ('/' :: '*' :: (body ++ ['*', '/']), cs ++ rest) := by
      rw [piece?, blockComment?_of_isCommentBody hb]
      rfl
    simp only [List.cons_append, List.append_assoc]
    rw [split_of_some hp, ih hc]
    simp only [List.cons_append, List.append_assoc, List.nil_append]
  | @line _ body cs hb _ ih =>
    have hp : piece? ('/' :: '/' :: (body ++ '\n' :: (cs ++ rest))) =
        some ('/' :: '/' :: body, '\n' :: (cs ++ rest)) := by
      rw [piece?, (takeWhile_line hb).1, (takeWhile_line hb).2]
    simp only [List.cons_append, List.append_assoc] at ih ⊢
    rw [split_of_some hp, ih hc]
    rfl
  | @lastLine body hb =>
    obtain rfl := hc rfl
    have hp : piece? ('/' :: '/' :: body) = some ('/' :: '/' :: body, []) := by
      rw [piece?, (takeWhile_lastLine hb).1, (takeWhile_lastLine hb).2]
    rw [List.append_nil, split_of_some hp, split_of_none rfl]
    simp only [List.append_nil]

/-- Nothing that a lexeme can start with is layout. -/
theorem piece?_of_mem_starters {t : Terminal} {c : Char} {cs : List Char}
    (h : t ∈ Terminal.starters c) : piece? (c :: cs) = none := by
  unfold piece?
  split
  · rename_i he
    obtain ⟨rfl, -⟩ := List.cons.inj he
    cases h
  · rename_i he
    obtain ⟨rfl, -⟩ := List.cons.inj he
    cases h
  · rename_i d ds _ _ he
    obtain ⟨rfl, rfl⟩ := List.cons.inj he
    refine if_neg ?_
    intro hl
    simp only [Blank.isLayout, Bool.or_eq_true, decide_eq_true_eq] at hl
    rcases hl with (((rfl | rfl) | rfl) | rfl) | rfl <;> cases h
  · rfl

theorem piece?_of_matches {t : Terminal} {w rest : List Char} (h : t.Matches w) :
    piece? (w ++ rest) = none := by
  obtain ⟨c, v, rfl, hc⟩ := Terminal.mem_starters h
  exact piece?_of_mem_starters hc

end Layout

/-! ### Paths of reading points -/

namespace Point

/-- Whether a token is taken for what it is: a name is not while it is spelled like a keyword that
is looked for. -/
def Tells (p : Point) (t : Token) : Prop :=
  t.terminal = .identifier → ¬Terminal.Mistaken p.accepts t.text

/-- The point behind some tokens each of which is taken for what it is. -/
inductive Leads : Point → List Token → Point → Prop
  | nil {p : Point} : Leads p [] p
  | cons {p q s : Point} {t : Token} {ts : List Token} (ht : p.Tells t) (hs : p.step t = some q)
      (h : Leads q ts s) : Leads p (t :: ts) s

variable {p q s : Point} {t : Token} {ts us : List Token}

theorem Leads.one (ht : p.Tells t) (hs : p.step t = some q) : p.Leads [t] q := .cons ht hs .nil

theorem Leads.append (h : p.Leads ts q) (h' : q.Leads us s) : p.Leads (ts ++ us) s := by
  induction h with
  | nil => exact h'
  | cons ht hs _ ih => exact .cons ht hs (ih h')

theorem tells_of_ne (h : t.terminal ≠ .identifier) : p.Tells t := fun hi => absurd hi h

end Point

/-! ### Texts laid out from tokens -/

/-- Tokens laid out over a text that starts at a position: layout stands between them, each belongs
to its terminal, and none can be carried on by what stands behind it. -/
inductive Laid : Position → List Token → List Char → Prop
  | nil {p : Position} {gap : List Char} (hg : Layout.IsGap false gap) : Laid p [] gap
  | cons {p : Position} {t : Token} {ts : List Token} {gap rest : List Char}
      (hg : Layout.IsGap true gap)
      (hr : t.range = ⟨p.advance gap, (p.advance gap).advance t.text.toList⟩)
      (hm : t.terminal.Matches t.text.toList) (he : t.terminal.EndsBefore rest)
      (h : Laid t.range.stop ts rest) : Laid p (t :: ts) (gap ++ (t.text.toList ++ rest))

namespace Reading

variable {p q : Point} {last place : Position}

theorem run_of_gap {gap : List Char} {tree : Tree} (hg : Layout.IsGap false gap)
    (hf : p.finish? = some tree) : run ⟨p, last, place, gap⟩ = .ok tree := by
  have hsplit : Layout.split gap = (gap, []) := by
    have h : Layout.split (gap ++ []) = (gap, []) := Layout.split_of_isGap hg rfl fun _ => rfl
    rwa [List.append_nil] at h
  have hmove : move ⟨p, last, place, gap⟩ = .answer (.ok tree) := by
    rw [move, hsplit]
    simp only [moveOver, List.isEmpty_nil, if_true, answerAtEnd, hf]
  exact run_of_answer hmove

theorem move_of_token {t : Token} {gap rest : List Char} (hg : Layout.IsGap true gap)
    (hr : t.range = ⟨place.advance gap, (place.advance gap).advance t.text.toList⟩)
    (hm : t.terminal.Matches t.text.toList) (he : t.terminal.EndsBefore rest) (ht : p.Tells t)
    (hs : p.step t = some q) :
    move ⟨p, last, place, gap ++ (t.text.toList ++ rest)⟩ =
      .next ⟨q, t.range.start, t.range.stop, rest⟩ := by
  have hpiece : Layout.piece? (t.text.toList ++ rest) = none := Layout.piece?_of_matches hm
  have hsplit := Layout.split_of_isGap hg hpiece nofun
  have hlexeme := Terminal.lexeme?_delimited (Point.mem_accepts hs) hm he
    Point.bool_not_mem_accepts (by rwa [String.ofList_toList])
  have hne : (t.text.toList ++ rest).isEmpty = false := by
    obtain ⟨c, v, hw, -⟩ := Terminal.mem_starters hm
    rw [hw]
    rfl
  have htoken : Token.mk t.terminal t.text ⟨place.advance gap,
      (place.advance gap).advance t.text.toList⟩ = t := by rw [← hr]
  rw [move, hsplit]
  simp only [moveOver, hne, if_neg Bool.false_ne_true, moveAt, hlexeme, String.ofList_toList,
    htoken, hs, hr]

/-- A text that is laid out from tokens along a path is read to where the path ends. -/
theorem run_of_laid {ts : List Token} {text : List Char} {tree : Tree} (h : Laid place ts text)
    (hl : p.Leads ts q) (hf : q.finish? = some tree) : run ⟨p, last, place, text⟩ = .ok tree := by
  -- by induction on the layout: each token moves the point one step along the path
  induction h generalizing p last with
  | nil hg =>
    cases hl
    exact run_of_gap hg hf
  | cons hg hr hm he _ ih =>
    cases hl with
    | cons ht hs hl =>
      rw [run_of_next (move_of_token hg hr hm he ht hs)]
      exact ih hl

end Reading

theorem tokenize_of_laid {r : StartRule} {ts : List Token} {text : List Char} {q : Point}
    {tree : Tree} (h : Laid .start ts text) (hl : r.point.Leads ts q)
    (hf : q.finish? = some tree) : tokenize r text = .ok tree := by
  rw [tokenize, StartRule.read, StartRule.reading, Reading.run_of_laid h hl hf]

end ClassLang
