import ClassLang.Proofs.Syntax.Extent
import ClassLang.Proofs.Syntax.Stop

/-!
# Texts that are cut short

A text that is cut off in the middle may be read, or be rejected because of what the cut has left.
Up to the last token that begins in front of the cut it is read like the whole text, since a word
ends where it does for the one character behind it, and that character is still there. Main
statement: `tokenize_take`, a rejection of the front of a text never points in front of that token.
-/

namespace ClassLang

/-! ### What a cut leaves -/

theorem startsWith_take {f : Char → Bool} {cs : List Char} (h : startsWith f cs = false) (n : Nat) :
    startsWith f (cs.take n) = false := by
  rw [← List.take_append_drop n cs] at h
  exact Reading.startsWith_of_append h

/-- A cut behind the start of a word leaves some of the word. -/
theorem Terminal.Matches.take {t : Terminal} {w : List Char} (h : t.Matches w) (rest : List Char)
    {n : Nat} (hn : 0 < n) : ∃ c cs, (w ++ rest).take n = c :: cs ∧ t ∈ starters c := by
  obtain ⟨c, v, rfl, hc⟩ := mem_starters h
  obtain ⟨m, rfl⟩ := Nat.exists_eq_succ_of_ne_zero (Nat.ne_of_gt hn)
  exact ⟨c, (v ++ rest).take m, rfl, hc⟩

theorem take_append_of_le {cs ds : List Char} {n : Nat} (h : cs.length ≤ n) :
    (cs ++ ds).take n = cs ++ ds.take (n - cs.length) := by
  rw [List.take_append, List.take_of_length_le h]

namespace Reading

variable {p : Point} {last place : Position} {gap cs : List Char} {c : Char} {t : Terminal}
  {cause : Rejection}

/-- What starts like a terminal is not passed over: no rejection points in front of it. -/
theorem start_le_of_run (hg : Layout.IsGap true gap) (hc : t ∈ Terminal.starters c)
    (h : run ⟨p, last, place, gap ++ c :: cs⟩ = .error cause) :
    place.offset + gap.length ≤ cause.place.offset := by
  have hmove : move ⟨p, last, place, gap ++ c :: cs⟩ =
      moveAt ⟨p, last, place, gap ++ c :: cs⟩ (place.advance gap) (c :: cs) :=
    move_of_mem_starters hg hc
  have hstart : (place.advance gap).offset = place.offset + gap.length :=
    place.advance_offset gap
  cases hm : moveAt ⟨p, last, place, gap ++ c :: cs⟩ (place.advance gap) (c :: cs) with
  | answer a =>
    rw [run_of_answer (hmove.trans hm)] at h
    subst h
    exact Nat.le_of_eq (by rw [place_of_moveAt hm, hstart])
  | next s =>
    rw [run_of_next (hmove.trans hm)] at h
    obtain ⟨l, -, -, hs⟩ := moveAt_next hm
    have hlast : s.last = place.advance gap := by rw [hs]
    have hplace : s.place = (place.advance gap).advance l.text := by rw [hs]
    refine place_of_run (P := fun p => place.offset + gap.length ≤ p.offset) ?_ ?_ h
    · exact hlast ▸ Nat.le_of_eq hstart.symm
    · intro front _
      have hoffset := congrArg Position.offset hplace
      rw [Position.advance_offset] at hoffset ⊢
      omega

end Reading

namespace Trail

variable {p q s : Point} {last place : Position} {x : Piece} {xs : List Piece} {tail : List Char}
  {cause : Rejection} {k : Nat}

theorem start_le (h : Trail p place xs tail q) :
    ∀ t ∈ tokensFrom place xs, place.offset ≤ t.range.start.offset :=
  fun t ht => (h.spread.ranges t ht).1

/-- A name in front of a cut does not run into an angle bracket if another word begins before the
cut. -/
theorem angle_take (h : Trail p place (x :: xs) tail q) (hk : x.gap.length < k) :
    Scan.angle ((weave (x :: xs) tail).take k) = none := by
  cases h with
  | cons hg hm _ _ _ _ =>
    obtain ⟨c, cs, hcut, hc⟩ := hm.take (weave xs tail) (Nat.sub_pos_of_lt hk)
    rw [weave, take_append_of_le (Nat.le_of_lt hk), hcut]
    exact hg.angle (Terminal.angle_of_mem_starters hc)

/-- A word is parted from what a cut leaves behind it if another word begins before the cut. -/
theorem parted_take {accepted : List Terminal} {t : Terminal}
    (h : Trail p place (x :: xs) tail q)
    (hc : startsWith (t.carriesOn accepted) (weave (x :: xs) tail) = false)
    (hk : x.gap.length < k) : t.Parted accepted ((weave (x :: xs) tail).take k) :=
  ⟨startsWith_take hc k, startsWith_take h.startsWith_point k, fun _ => h.angle_take hk⟩

/-- The pieces of a trail are passed over up to the last word that begins in front of a cut, so no
rejection of what the cut leaves points in front of any of these words. -/
theorem start_le_of_cut (h : Trail p place xs tail q)
    (hrun : Reading.run ⟨p, last, place, (weave xs tail).take k⟩ = .error cause) :
    ∀ t ∈ tokensFrom place xs, t.range.start.offset < place.offset + k →
      t.range.start.offset ≤ cause.place.offset := by
  induction h generalizing last k with
  | nil => exact nofun
  | @cons p s q place x xs tail hg hm hc hword hs h ih =>
    intro t ht hcut
    have hstart : (x.token place).range.start.offset = place.offset + x.gap.length :=
      place.advance_offset x.gap
    have hstop : (x.token place).range.stop.offset =
        (x.token place).range.start.offset + x.word.length := Position.advance_offset _ x.word
    have hgap : x.gap.length < k := by
      obtain rfl | ht := List.mem_cons.1 ht
      · omega
      · have hle := h.start_le t ht
        omega
    rw [weave, take_append_of_le (Nat.le_of_lt hgap)] at hrun
    obtain rfl | ht := List.mem_cons.1 ht
    · obtain ⟨c, cs, hleft, hmem⟩ := hm.take (weave xs tail) (Nat.sub_pos_of_lt hgap)
      rw [hleft] at hrun
      exact hstart ▸ Reading.start_le_of_run hg hmem hrun
    · cases xs with
      | nil => cases ht
      | cons y ys =>
        -- the next word begins before the cut, so this one is read as in the whole text
        have hle := h.start_le t ht
        have hnext : (x.token place).range.stop.offset + y.gap.length ≤ t.range.start.offset := by
          obtain rfl | ht := List.mem_cons.1 ht
          · exact Nat.le_of_eq (Position.advance_offset _ y.gap).symm
          · cases h with
            | cons _ hy _ _ _ h =>
              have hlast := h.start_le t ht
              have hfirst : (y.token (x.token place).range.stop).range.stop.offset =
                  (x.token place).range.stop.offset + y.gap.length + y.word.length := by
                rw [Piece.token, Position.advance_offset, Position.advance_offset]
              omega
        have hwhole : x.word.length ≤ k - x.gap.length := by omega
        rw [take_append_of_le hwhole] at hrun
        have hbehind : y.gap.length < k - x.gap.length - x.word.length := by omega
        have hmove := Reading.move_of_piece last hg hm (h.parted_take hc hbehind) hword hs
        rw [Reading.run_of_next hmove] at hrun
        exact ih hrun t ht (by omega)

end Trail

theorem StartRule.behind_of_read {r : StartRule} {text : List Char} {cause : Rejection}
    (h : r.read text = .error cause) : cause.place = .behind (text.take cause.place.offset) := by
  refine Reading.place_of_run (P := fun p => p = .behind (text.take p.offset)) rfl ?_ h
  rintro front ⟨back, rfl⟩
  change Position.start.advance front =
    .behind ((front ++ back).take (Position.start.advance front).offset)
  rw [Position.offset_advance_start, List.take_left, Position.start_advance]

/-- No rejection comes too early. Wherever a text that is read is cut off, what is left of it is
read too, or it is rejected at a place in it that is not in front of any token that begins before
the cut; that place is the one that is reported, by its line and column. -/
theorem tokenize_take {r : StartRule} {text : List Char} {tree : Tree}
    (h : tokenize r text = .ok tree) :
    ∃ d : DerivationTree r.phrase, d.pieces = [tree] ∧ Spread .start d.tokens text ∧ ∀ k : Nat,
      (∃ front, tokenize r (text.take k) = .ok front) ∨
      ∃ f place, tokenize r (text.take k) = .error f ∧
        f.diagnostic?.map Diagnostic.stage = some .tokenizer ∧
        f.diagnostic?.map Diagnostic.place = some (.ofPosition place) ∧
        place = .behind ((text.take k).take place.offset) ∧
        ∀ t ∈ d.tokens, t.range.start.offset < k → t.range.start.offset ≤ place.offset := by
  obtain ⟨xs, tail, q, hweave, htrail, -, d, htokens, hpieces, hspread⟩ :=
    exists_trail_of_tokenize h
  refine ⟨d, hpieces, hspread, fun k => ?_⟩
  cases hread : r.read (text.take k) with
  | ok front => exact Or.inl ⟨front, by rw [tokenize, hread]⟩
  | error cause =>
    refine Or.inr ⟨_, cause.place, by rw [tokenize, hread], rfl, rfl, r.behind_of_read hread, ?_⟩
    intro t ht hcut
    have hrun : Reading.run ⟨r.point, .start, .start, (weave xs tail).take k⟩ = .error cause :=
      hweave.symm ▸ hread
    refine htrail.start_le_of_cut hrun t (htokens ▸ ht) ?_
    change t.range.start.offset < 0 + k
    omega

def quotedField : List Char := "string s = \"a b\";".toList

theorem tokenize_take_quotedField :
    ∃ tree, tokenize .fieldDecl quotedField = .ok tree ∧
      ∃ d : DerivationTree StartRule.fieldDecl.phrase, d.pieces = [tree] ∧
        Spread .start d.tokens quotedField ∧
        ∃ f place, tokenize .fieldDecl "string s = \"a".toList = .error f ∧
          f.diagnostic?.map Diagnostic.place = some (.ofPosition place) ∧
          ∀ t ∈ d.tokens, t.range.start.offset < 13 → t.range.start.offset ≤ place.offset := by
  have hreads : (tokenize .fieldDecl quotedField).toOption.isSome = true := by decide +kernel
  have hfails : (tokenize .fieldDecl (quotedField.take 13)).toOption.isSome = false := by
    decide +kernel
  obtain ⟨tree, h⟩ := exists_ok_of_isSome hreads
  obtain ⟨d, hpieces, hspread, hcut⟩ := tokenize_take h
  obtain ⟨front, hfront⟩ | ⟨f, place, hf, -, hplace, -, hle⟩ := hcut 13
  · rw [hfront] at hfails
    cases hfails
  · exact ⟨tree, h, d, hpieces, hspread, f, place, hf, hplace, hle⟩

end ClassLang
