import ClassLang.Proofs.Syntax.Completion
import ClassLang.Proofs.Syntax.Trail
import Mathlib.Data.List.Induction

/-!
# Where reading stops

A text that is rejected is read up to a place: behind its last token and the layout that follows, in
front of something that may not stand there or at the end. What is in front of that place is the
front of some text that is read, so no rejection comes later than it could, and the line and the
column that are reported are those of that place.
-/

namespace ClassLang

/-! ### Positions behind a text -/

/-- The position behind a text, by its characters, its line feeds, and those behind the last one. -/
def Position.behind (front : List Char) : Position :=
  ⟨front.length, 1 + front.count '\n', 1 + (front.reverse.takeWhile (· ≠ '\n')).length⟩

theorem Position.start_advance (front : List Char) : start.advance front = behind front := by
  induction front using List.reverseRecOn with
  | nil => rfl
  | append_singleton cs c ih =>
    have hnext : start.advance (cs ++ [c]) = (behind cs).next c := by
      rw [advance_append, ih]
      rfl
    rw [hnext, behind, next]
    by_cases hc : c = '\n'
    · simp [behind, hc]
      omega
    · simp [behind, hc]
      omega

/-! ### The part of a text that is read -/

namespace Reading

/-- What is in front of the place where reading stops, the layout there included. -/
def front (r : Reading) : List Char := weave r.pieces.1 (Layout.split r.pieces.2).1

def back (r : Reading) : List Char := (Layout.split r.pieces.2).2

def tokens (r : Reading) : List Token := tokensFrom r.place r.pieces.1

/-- Where the last of some tokens starts, or another position if there are none. -/
def lastStart (first : Position) (ts : List Token) : Position :=
  (ts.getLast?.map fun t => t.range.start).getD first

theorem lastStart_cons (first : Position) (t : Token) (ts : List Token) :
    lastStart first (t :: ts) = lastStart t.range.start ts := by
  cases h : ts.getLast? <;> simp [lastStart, List.getLast?_cons, h]

theorem front_append_back (r : Reading) : r.front ++ r.back = r.rest := by
  rw [front, back, ← weave_tail, Layout.split_append, weave_pieces]

end Reading

/-- A point where what follows may not stand. -/
def Point.Refuses (p : Point) (place : Position) (cs : List Char) : Prop :=
  ∀ l, lexeme? p.accepts cs = some l →
    p.step ⟨l.terminal, String.ofList l.text, ⟨place, place.advance l.text⟩⟩ = none

namespace Reading

/-- How reading stops at a point: nothing follows and the text may not end there, or what follows
may not stand there. -/
def StopsAt (r : Reading) (p : Point) (cause : Rejection) : Prop :=
  if r.back = [] then p.finish? = none ∧ cause.place = lastStart r.last r.tokens
  else p.Refuses (r.place.advance r.front) r.back ∧ cause.place = r.place.advance r.front

theorem stopsAt_of_answer {r : Reading} {cause : Rejection}
    (h : r.move = .answer (.error cause)) : r.StopsAt r.point cause := by
  have hpieces := pieces_of_answer h
  have hfront : r.front = (Layout.split r.rest).1 := by rw [front, hpieces, weave]
  have hback : r.back = (Layout.split r.rest).2 := by rw [back, hpieces]
  have htokens : r.tokens = [] := by rw [tokens, hpieces, tokensFrom]
  unfold StopsAt Point.Refuses
  rw [hfront, hback, htokens]
  unfold move moveOver at h
  split at h
  · rename_i hempty
    rw [if_pos (List.isEmpty_iff.1 hempty)]
    simp only [Move.answer.injEq, answerAtEnd] at h
    split at h
    · cases h
    · rename_i hfinish
      obtain rfl := Except.error.inj h
      exact ⟨hfinish, rfl⟩
  · rename_i hne
    rw [if_neg fun hnil => hne (List.isEmpty_iff.2 hnil)]
    unfold moveAt at h
    split at h
    · rename_i hl
      obtain rfl := Except.error.inj (Move.answer.inj h)
      refine ⟨fun l hsome => ?_, rfl⟩
      rw [hl] at hsome
      cases hsome
    · rename_i l hl
      simp only at h
      split at h
      · rename_i hstep
        obtain rfl := Except.error.inj (Move.answer.inj h)
        refine ⟨fun l' hsome => ?_, rfl⟩
        obtain rfl := Option.some.inj (hl.symm.trans hsome)
        exact hstep
      · cases h

theorem stopsAt_of_next {r s : Reading} {p : Point} {cause : Rejection} (hm : r.move = .next s)
    (h : s.StopsAt p cause) : r.StopsAt p cause := by
  obtain ⟨hne, hmove⟩ := move_next hm
  obtain ⟨l, hl, -, hs⟩ := moveAt_next hmove
  have hpieces : r.pieces = (⟨(Layout.split r.rest).1, l.terminal, l.text⟩ :: s.pieces.1,
      s.pieces.2) := by
    rw [pieces_of_next hm, piece?, hl]
    rfl
  have hback : r.back = s.back := by rw [back, back, hpieces]
  have hplace : r.place.advance r.front = s.place.advance s.front := by
    rw [front, hpieces, weave, Position.advance_append, Position.advance_append, hs]
    rfl
  have htokens : lastStart r.last r.tokens = lastStart s.last s.tokens := by
    rw [tokens, hpieces, tokensFrom, lastStart_cons, tokens, hs]
    rfl
  unfold StopsAt at h ⊢
  rwa [hback, hplace, htokens]

theorem startsWith_of_append {p : Char → Bool} {cs ds : List Char}
    (h : startsWith p (cs ++ ds) = false) : startsWith p cs = false := by
  cases cs with
  | nil => rfl
  | cons c cs => exact h

/-- A trail goes over what is read of a text, up to a point where reading stops. -/
theorem exists_trail_of_error (r : Reading) {cause : Rejection} (h : r.run = .error cause) :
    ∃ q, Trail r.point r.place r.pieces.1 (Layout.split r.pieces.2).1 q ∧ r.StopsAt q cause := by
  cases hm : r.move with
  | answer a =>
    have hgap : Layout.IsGap false (Layout.split r.rest).1 := Layout.isGap_split false r.rest nofun
    rw [run_of_answer hm] at h
    subst h
    refine ⟨r.point, ?_, stopsAt_of_answer hm⟩
    rw [pieces_of_answer hm]
    exact .nil hgap
  | next s =>
    have hlt := rest_length_lt hm
    obtain ⟨x, hx, -, hclosed, -, hlexeme, hstep, hplace⟩ := piece?_of_next hm
    rw [run_of_next hm] at h
    obtain ⟨q, htrail, hstop⟩ := exists_trail_of_error s h
    refine ⟨q, ?_, stopsAt_of_next hm hstop⟩
    rw [hplace] at htrail
    rw [pieces_of_next hm, hx, Option.toList_some, List.singleton_append]
    have hparted := Terminal.lexeme?_parted_off hlexeme
    have hfront := front_append_back s
    refine .cons hclosed (lexeme?_matches hlexeme) ?_ (not_mistaken_of_lexeme? hlexeme) hstep htrail
    simp only at hparted
    rw [← hfront] at hparted
    exact startsWith_of_append hparted
  termination_by r.rest.length

end Reading

/-! ### Completing what is read -/

theorem Layout.IsGap.of_closed {gap : List Char} (h : IsGap true gap) (closed : Bool) :
    IsGap closed gap := by
  generalize hc : true = c at h
  induction h with
  | nil => exact .nil
  | blank hb _ ih => exact .blank hb (ih hc)
  | block hb _ ih => exact .block hb (ih hc)
  | line hb _ ih => exact .line hb (ih hc)
  | lastLine => cases hc

theorem Terminal.angle_newline_spaced {ts : List Token}
    (hm : ∀ t ∈ ts, t.terminal.Matches t.text.toList) :
    Scan.angle ('\n' :: spaced ts) = none := by
  have hline : Layout.IsGap true ['\n'] := .blank rfl .nil
  cases ts with
  | nil => exact hline.angle rfl
  | cons t ts =>
    obtain ⟨rest, hrest⟩ := spaced_cons t ts
    have hword : Scan.angle (spaced (t :: ts)) = none := by
      rw [hrest]
      exact angle_word (hm t List.mem_cons_self)
    exact hline.angle hword

/-- What a trail goes over is the front of a text that is read: on a new line the completion of the
point where the trail ends may follow. -/
theorem Trail.completable {p q : Point} {place : Position} {xs : List Piece} {gap : List Char}
    (h : Trail p place xs gap q) (last : Position) :
    ∃ tree, Reading.run ⟨p, last, place,
      weave xs gap ++ '\n' :: spaced (q.completion.map Token.sample)⟩ = .ok tree := by
  have hm : ∀ t ∈ q.completion.map Token.sample, t.terminal.Matches t.text.toList := by
    intro t ht
    obtain ⟨k, -, rfl⟩ := List.mem_map.1 ht
    exact k.matches_sample
  have hline : Layout.IsGap true ['\n'] := .blank rfl .nil
  have hblunt : Blunt ('\n' :: spaced (q.completion.map Token.sample)) :=
    ⟨fun accepted t => hline.blunt.1 accepted t, rfl⟩
  have hgap : ∀ closed, Layout.IsGap closed (gap ++ ['\n']) := fun closed =>
    h.isGap_tail.newline.of_closed closed
  obtain ⟨us, halike, hlaid⟩ := exists_laid_spaced hm hgap (place.advance (weave xs []))
  obtain ⟨s, tree, hleads, hfinish⟩ := q.leads_completion halike
  obtain ⟨last', -, hrun⟩ :=
    Reading.run_of_trail_append h hblunt (Or.inr (Terminal.angle_newline_spaced hm)) last
  refine ⟨tree, hrun.trans ?_⟩
  rw [List.append_assoc] at hlaid
  exact Reading.run_of_laid hlaid hleads hfinish

/-! ### Rejected texts -/

/-- The offset in a text where reading it under a rule stops. -/
def StartRule.stop (r : StartRule) (text : List Char) : Nat := (r.reading text).front.length

/-- No text is rejected too late, and each where it says. What is in front of the place where
reading stops holds the tokens that were read and is the front of some text that is read. At that
place something stands that may not stand there, and it is the place that is reported; or the text
ends, and the start of its last token is reported. -/
theorem tokenize_completable {r : StartRule} {text : List Char} {f : Failure}
    (h : tokenize r text = .error f) :
    ∃ (cause : Rejection) (ts : List Token) (q : Point),
      f = .rejected text cause ∧
      f.diagnostic?.map Diagnostic.place = some (.ofPosition cause.place) ∧
      Spread .start ts (text.take (r.stop text)) ∧ r.point.run ts = some q ∧
      (∃ s tree, tokenize r (text.take (r.stop text) ++ s) = .ok tree) ∧
      if text.drop (r.stop text) = [] then
        q.finish? = none ∧ cause.place = Reading.lastStart .start ts
      else
        Layout.piece? (text.drop (r.stop text)) = none ∧
          q.Refuses (.behind (text.take (r.stop text))) (text.drop (r.stop text)) ∧
          cause.place = .behind (text.take (r.stop text)) := by
  cases hrun : r.read text with
  | ok tree =>
    rw [tokenize, hrun] at h
    cases h
  | error cause =>
    rw [tokenize, hrun] at h
    obtain rfl := Except.error.inj h
    obtain ⟨q, htrail, hstop⟩ := Reading.exists_trail_of_error (r.reading text) hrun
    have happend : (r.reading text).front ++ (r.reading text).back = text :=
      Reading.front_append_back _
    have htake : text.take (r.stop text) = (r.reading text).front := by
      have hleft : ((r.reading text).front ++ (r.reading text).back).take (r.stop text) =
        (r.reading text).front := List.take_left
      rwa [happend] at hleft
    have hdrop : text.drop (r.stop text) = (r.reading text).back := by
      have hright : ((r.reading text).front ++ (r.reading text).back).drop (r.stop text) =
        (r.reading text).back := List.drop_left
      rwa [happend] at hright
    obtain ⟨tree, hcomplete⟩ := htrail.completable .start
    refine ⟨cause, (r.reading text).tokens, q, rfl, rfl, ?_, htrail.run_tokensFrom, ?_, ?_⟩
    · rw [htake]
      exact htrail.spread
    · have hread : r.read ((r.reading text).front ++
        '\n' :: spaced (q.completion.map Token.sample)) = .ok tree := hcomplete
      refine ⟨'\n' :: spaced (q.completion.map Token.sample), tree, ?_⟩
      rw [htake, tokenize, hread]
    · rw [htake, hdrop, ← Position.start_advance]
      unfold Reading.StopsAt at hstop
      split at hstop
      · rename_i hempty
        rw [if_pos hempty]
        exact hstop
      · rename_i hne
        rw [if_neg hne]
        exact ⟨Layout.piece?_split _, hstop⟩

/-- A field with two names. -/
def secondName : List Char := "class A \x7b\n  int x y;\n\x7d".toList

theorem tokenize_completable_secondName :
    ∃ f s tree, tokenize .unit secondName = .error f ∧
      tokenize .unit ("class A \x7b\n  int x ".toList ++ s) = .ok tree ∧
      f.diagnostic?.map Diagnostic.place = some (.point (some 2) (some 9)) := by
  have hfails : (tokenize .unit secondName).toOption.isSome = false := by decide +kernel
  have hstop : StartRule.unit.stop secondName = 18 := by decide +kernel
  have hfront : secondName.take 18 = "class A \x7b\n  int x ".toList := by decide
  obtain ⟨f, h⟩ := exists_error_of_isSome hfails
  obtain ⟨cause, ts, q, -, hplace, -, -, ⟨s, tree, hread⟩, hwhere⟩ := tokenize_completable h
  rw [hstop] at hread hwhere
  rw [hfront] at hread
  have hline : cause.place = .behind (secondName.take 18) := hwhere.2.2
  rw [hline] at hplace
  exact ⟨f, s, tree, h, hread, hplace⟩

end ClassLang
