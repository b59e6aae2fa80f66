import ClassLang.Proofs.Syntax.Stop

/-!
# Where the caret points

A rejected text is shown by a piece of one of its lines and a caret below it. With the tabs of that
piece as spaces, tabs before the place move the rest of the piece as far as they move the caret, so
the caret keeps standing below the character at the place. Main statement: `tokenize_caret`.
-/

namespace ClassLang

/-! ### Excerpts -/

namespace Excerpt

/-- Tabs of a second part are widened from the column where the first part ends. -/
theorem exists_expandTabs_append (column : Nat) (cs ds : List Char) :
    ∃ column', expandTabs column (cs ++ ds) = expandTabs column cs ++ expandTabs column' ds := by
  induction cs generalizing column with
  | nil => exact ⟨column, rfl⟩
  | cons c cs ih =>
    simp only [List.cons_append, expandTabs]
    split
    · obtain ⟨column', h⟩ := ih (column + (tabWidth - column % tabWidth))
      exact ⟨column', by rw [h, List.append_assoc]⟩
    · split
      · obtain ⟨column', h⟩ := ih 0
        exact ⟨column', by rw [h, List.cons_append]⟩
      · obtain ⟨column', h⟩ := ih (column + 1)
        exact ⟨column', by rw [h, List.cons_append]⟩

theorem exists_expandTabs_cons (column : Nat) {c : Char} (cs : List Char) (hc : c ≠ '\t') :
    ∃ ds, expandTabs column (c :: cs) = c :: ds := by
  rw [expandTabs, if_neg hc]
  split
  · exact ⟨_, rfl⟩
  · exact ⟨_, rfl⟩

theorem before_suffix (text : List Char) (offset : Nat) :
    before text offset <:+ text.take offset := by
  have hfront : ((text.take offset).reverse.take reach).takeWhile (· ≠ '\n') <+:
      (text.take offset).reverse :=
    (List.takeWhile_prefix _).trans (List.take_prefix _ _)
  simpa only [before, List.reverse_reverse] using List.reverse_suffix.2 hfront

theorem after_prefix (text : List Char) (offset : Nat) : after text offset <+: text.drop offset :=
  (List.takeWhile_prefix _).trans (List.take_prefix _ _)

theorem after_cons {text rest : List Char} {offset : Nat} {c : Char}
    (h : text.drop offset = c :: rest) (hc : c ≠ '\n') :
    ∃ right, after text offset = c :: right := by
  have hreach : reach = 39 + 1 := rfl
  rw [after, h, hreach, List.take_succ_cons, List.takeWhile_cons_of_pos (by simpa using hc)]
  exact ⟨_, rfl⟩

theorem newline_not_mem_shown (text : List Char) (offset : Nat) :
    '\n' ∉ before text offset ++ after text offset := by
  rw [List.mem_append]
  exact not_or.2 ⟨newline_not_mem_before _ _, newline_not_mem_after _ _⟩

/-- A piece of the line around an offset, and the column at which the character at the offset stands
in it once tabs are shown as spaces. -/
structure Marks (text shown : List Char) (offset column : Nat) : Prop where
  line : '\n' ∉ shown
  piece : ∃ u v, text = u ++ shown ++ v ∧ u.length ≤ offset ∧ offset ≤ u.length + reach ∧
    offset < u.length + shown.length ∧ u.length + shown.length ≤ offset + reach
  caret : ∃ c, text[offset]? = some c ∧ (expandTabs 0 shown)[column]? = some c

theorem marks_around {text rest : List Char} {offset : Nat} {c : Char}
    (h : text.drop offset = c :: rest) (htab : c ≠ '\t') (hline : c ≠ '\n') :
    Marks text (before text offset ++ after text offset) offset (caret text offset) := by
  obtain ⟨u, hu⟩ := before_suffix text offset
  obtain ⟨v, hv⟩ := after_prefix text offset
  obtain ⟨right, hright⟩ := after_cons h hline
  have hlength : (text.drop offset).length = rest.length + 1 := by rw [h, List.length_cons]
  rw [List.length_drop] at hlength
  have hoffset : u.length + (before text offset).length = offset := by
    rw [← List.length_append, hu, List.length_take]
    omega
  refine ⟨newline_not_mem_shown _ _, ⟨u, v, ?_, ?_, ?_, ?_, ?_⟩, c, ?_, ?_⟩
  · rw [← List.append_assoc, hu, List.append_assoc, hv, List.take_append_drop]
  · omega
  · have := before_length_le text offset
    omega
  · rw [List.length_append, hright, List.length_cons]
    omega
  · have := after_length_le text offset
    rw [List.length_append]
    omega
  · have hhead : (text.drop offset)[0]? = some c := by rw [h]; rfl
    rwa [List.getElem?_drop, Nat.add_zero] at hhead
  · obtain ⟨column, happend⟩ := exists_expandTabs_append 0 (before text offset) (after text offset)
    obtain ⟨ds, hds⟩ := exists_expandTabs_cons column right htab
    rw [happend, hright, hds, caret, List.getElem?_append_right (Nat.le_refl _), Nat.sub_self]
    rfl

theorem newline_not_mem_caret (column : Nat) : '\n' ∉ List.replicate column ' ' ++ ['^'] := by
  simp [List.mem_replicate]

end Excerpt

/-! ### Messages -/

namespace Rejection

theorem newline_not_mem_word (r : Rejection) : '\n' ∉ r.word.toList := by
  unfold word
  split <;> decide

theorem splitOn_detail (text : List Char) (r : Rejection) :
    (r.detail text).toList.splitOn '\n' = [r.word.toList,
      Excerpt.before text r.place.offset ++ Excerpt.after text r.place.offset,
      List.replicate (Excerpt.caret text r.place.offset) ' ' ++ ['^']] := by
  generalize hlines : [r.word.toList,
      Excerpt.before text r.place.offset ++ Excerpt.after text r.place.offset,
      List.replicate (Excerpt.caret text r.place.offset) ' ' ++ ['^']] = lines
  have hdetail : (r.detail text).toList = ['\n'].intercalate lines := by
    simp [← hlines, detail, Excerpt.around, List.intercalate]
  have hsingle : ∀ line ∈ lines, '\n' ∉ line := by
    rw [← hlines]
    simp only [List.forall_mem_cons, List.not_mem_nil, false_imp_iff, implies_true, and_true]
    exact ⟨r.newline_not_mem_word, Excerpt.newline_not_mem_shown _ _,
      Excerpt.newline_not_mem_caret _⟩
  rw [hdetail, List.splitOn_intercalate _ hsingle (by simp [← hlines])]

end Rejection

/-! ### Rejected texts -/

theorem Layout.piece?_none_head {c : Char} {cs : List Char} (h : piece? (c :: cs) = none) :
    c ≠ '\t' ∧ c ≠ '\n' := by
  constructor
  · rintro rfl
    cases h
  · rintro rfl
    cases h

/-- The last of some tokens starts at an offset of the text they are spread over, with a word that
is no layout whatever follows. -/
theorem Spread.exists_last {place : Position} {ts : List Token} {cs : List Char}
    (h : Spread place ts cs) (hne : ts ≠ []) (first : Position) :
    ∃ front w back, cs = front ++ (w ++ back) ∧ w ≠ [] ∧
      (∀ rest, Layout.piece? (w ++ rest) = none) ∧
      Reading.lastStart first ts = place.advance front := by
  induction h generalizing first with
  | nil => exact absurd rfl hne
  | @cons place t ts gap w rest hg hr ht hm h ih =>
    rw [Reading.lastStart_cons]
    cases hts : ts with
    | nil =>
      refine ⟨gap, w, rest, rfl, hm.ne_nil, fun rest => Layout.piece?_of_matches hm, ?_⟩
      rw [hr]
      rfl
    | cons u us =>
      obtain ⟨front, w', back, hrest, hword, hpiece, hstart⟩ :=
        ih (hts ▸ List.cons_ne_nil u us) t.range.start
      refine ⟨gap ++ (w ++ front), w', back, ?_, hword, hpiece, ?_⟩
      · rw [hrest, List.append_assoc, List.append_assoc]
      · rw [← hts, hstart, hr, Position.advance_append, Position.advance_append]

namespace StartRule

/-- The offset of what a text is rejected for: of what stands where reading stops, or of the last
token that was read if the text ends there. -/
def offended (r : StartRule) (text : List Char) : Nat :=
  if text.drop (r.stop text) = [] then
    (Reading.lastStart .start (r.reading text).tokens).offset
  else r.stop text

theorem take_stop (r : StartRule) (text : List Char) :
    text.take (r.stop text) = (r.reading text).front := by
  have happend : (r.reading text).front ++ (r.reading text).back = text :=
    Reading.front_append_back _
  have htake : ((r.reading text).front ++ (r.reading text).back).take (r.stop text) =
      (r.reading text).front := List.take_left
  rwa [happend] at htake

theorem drop_stop (r : StartRule) (text : List Char) :
    text.drop (r.stop text) = (r.reading text).back := by
  have happend : (r.reading text).front ++ (r.reading text).back = text :=
    Reading.front_append_back _
  have hdrop : ((r.reading text).front ++ (r.reading text).back).drop (r.stop text) =
      (r.reading text).back := List.drop_left
  rwa [happend] at hdrop

/-- A text is rejected at the offset of what it is rejected for, where something stands that is no
layout. -/
theorem exists_offended {r : StartRule} {text : List Char} {cause : Rejection}
    (h : r.read text = .error cause)
    (hread : (r.reading text).tokens ≠ [] ∨ text.drop (r.stop text) ≠ []) :
    cause.place.offset = r.offended text ∧
      ∃ c rest, text.drop (r.offended text) = c :: rest ∧ Layout.piece? (c :: rest) = none := by
  obtain ⟨q, htrail, hstop⟩ := Reading.exists_trail_of_error (r.reading text) h
  have hspread : Spread .start (r.reading text).tokens (r.reading text).front := htrail.spread
  unfold Reading.StopsAt at hstop
  rw [← drop_stop, ← take_stop] at hstop
  split at hstop
  · rename_i hend
    -- the text ends, so the front is all of it and the last token stands in it
    obtain ⟨-, hplace⟩ := hstop
    have htext : (r.reading text).front = text := by
      rw [← take_stop, ← List.append_nil (text.take _), ← hend, List.take_append_drop]
    obtain ⟨front, w, back, hfront, hw, hpiece, hlast⟩ :=
      hspread.exists_last (hread.resolve_right (not_not_intro hend)) .start
    obtain ⟨c, v, rfl⟩ := List.exists_cons_of_ne_nil hw
    have hoffset : r.offended text = front.length := by
      rw [offended, if_pos hend, hlast, Position.offset_advance_start]
    refine ⟨?_, c, v ++ back, ?_, hpiece back⟩
    · rw [hplace, offended, if_pos hend]
      rfl
    · rw [hoffset, ← htext, hfront, List.drop_left]
      rfl
  · rename_i hne
    obtain ⟨-, hplace⟩ := hstop
    have hoffset : r.offended text = r.stop text := by rw [offended, if_neg hne]
    obtain ⟨c, rest, hdrop⟩ := List.exists_cons_of_ne_nil hne
    refine ⟨?_, c, rest, ?_, ?_⟩
    · rw [hoffset, hplace, take_stop]
      exact Position.offset_advance_start _
    · rw [hoffset, hdrop]
    · rw [← hdrop, drop_stop]
      exact Layout.piece?_split _

end StartRule

/-- Every text that is rejected behind a token or at a character is shown in three lines: the second
is a piece of the line around what it is rejected for, and with tabs shown as spaces the caret in
the third stands below the first character of that. -/
theorem tokenize_caret {r : StartRule} {text : List Char} {f : Failure}
    (h : tokenize r text = .error f)
    (hread : (r.reading text).tokens ≠ [] ∨ text.drop (r.stop text) ≠ []) :
    ∃ (cause : Rejection) (d : Diagnostic) (shown : List Char) (column : Nat),
      f = .rejected text cause ∧ cause.place.offset = r.offended text ∧ f.diagnostic? = some d ∧
      d.detail.toList.splitOn '\n' =
        [cause.word.toList, shown, List.replicate column ' ' ++ ['^']] ∧
      Excerpt.Marks text shown (r.offended text) column := by
  cases hrun : r.read text with
  | ok tree =>
    rw [tokenize, hrun] at h
    cases h
  | error cause =>
    rw [tokenize, hrun] at h
    obtain rfl := Except.error.inj h
    obtain ⟨hplace, c, rest, hdrop, hpiece⟩ := StartRule.exists_offended hrun hread
    obtain ⟨htab, hline⟩ := Layout.piece?_none_head hpiece
    have hlines := cause.splitOn_detail text
    rw [hplace] at hlines
    exact ⟨cause, _, _, _, rfl, hplace, rfl, hlines, Excerpt.marks_around hdrop htab hline⟩

/-- A field with two names behind a tab. -/
def tabbedName : List Char := "class A \x7b\n\tint x y;\n\x7d".toList

theorem tokenize_caret_tabbedName : ∃ f d,
    tokenize .unit tabbedName = .error f ∧ f.diagnostic? = some d ∧
    StartRule.unit.offended tabbedName = 17 ∧
    ∃ (word shown : List Char) (column : Nat), d.detail.toList.splitOn '\n' =
        [word, shown, List.replicate column ' ' ++ ['^']] ∧
      Excerpt.Marks tabbedName shown 17 column := by
  have hfails : (tokenize .unit tabbedName).toOption.isSome = false := by decide +kernel
  have hoffended : StartRule.unit.offended tabbedName = 17 := by decide +kernel
  have hdrop : tabbedName.drop (StartRule.unit.stop tabbedName) ≠ [] := by decide +kernel
  obtain ⟨f, h⟩ := exists_error_of_isSome hfails
  obtain ⟨cause, d, shown, column, -, -, hd, hlines, hmarks⟩ := tokenize_caret h (.inr hdrop)
  rw [hoffended] at hmarks
  exact ⟨f, d, h, hd, hoffended, _, shown, column, hlines, hmarks⟩

end ClassLang
