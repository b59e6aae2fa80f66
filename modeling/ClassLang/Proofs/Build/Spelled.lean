import ClassLang.Proofs.Build.Respelling
import ClassLang.Proofs.Syntax.Extent
import ClassLang.Proofs.Syntax.Collapse

/-!
# Where types are written

The words of a type that is written in a text are a stretch of the words of the text, and they are
names, signs of types, or keywords of types (`DerivationTree.spelledIn`). What stands in the
text from the start of the first of them to the stop of the last are these words with the layout
between them, so where the words stand with other layout they span the words there.
-/

namespace ClassLang

/-! ### Stretches of words -/

/-- The range from the first of some tokens to the last. -/
def Range.ofTokens (ts : List Token) : Option Range := Tree.cover (ts.map Token.tree)

theorem Range.ofTokens_relocate (m : Relocation) (ts : List Token) :
    ofTokens (ts.map (Token.relocate m)) = (ofTokens ts).map (Range.relocate m) := by
  rw [ofTokens, ofTokens, ← Tree.cover_relocate, List.map_map, List.map_map]
  refine congrArg Tree.cover (List.map_congr_left ?_)
  intro t _
  exact (Tree.relocate_tree m t).symm

theorem extends_tokens (ts : List Token) : Extends (ts.map Token.tree) ts := by
  induction ts with
  | nil => exact ⟨rfl, rfl⟩
  | cons t ts ih => exact (DerivationTree.terminal t rfl).extends_pieces.append ih

theorem Extends.cover_eq {ps qs : List Tree} {ts : List Token} (h : Extends ps ts)
    (h' : Extends qs ts) : Tree.cover ps = Tree.cover qs := by
  cases ht : ts.head? with
  | none =>
    obtain rfl := List.head?_eq_none_iff.1 ht
    rw [h.cover_nil, h'.cover_nil]
  | some t =>
    cases hu : ts.getLast? with
    | none =>
      rw [List.getLast?_eq_none_iff.1 hu] at ht
      cases ht
    | some u => rw [h.cover ht hu, h'.cover ht hu]

theorem exists_getLast?_tokensFrom (place : Position) (x : Piece) (xs : List Piece) :
    ∃ u, (tokensFrom place (x :: xs)).getLast? = some u ∧
      u.range.stop = place.advance (weave (x :: xs) []) := by
  induction xs generalizing place x with
  | nil =>
    refine ⟨x.token place, rfl, ?_⟩
    rw [weave, weave, List.append_nil, Position.advance_append]
    rfl
  | cons y ys ih =>
    obtain ⟨u, hu, hstop⟩ := ih (x.token place).range.stop y
    refine ⟨u, ?_, ?_⟩
    · rw [tokensFrom, tokensFrom, List.getLast?_cons_cons]
      exact hu
    · have hx : weave (x :: y :: ys) [] = x.gap ++ (x.word ++ weave (y :: ys) []) := rfl
      rw [hstop, hx, Position.advance_append, Position.advance_append]
      rfl

theorem Range.ofTokens_tokensFrom (place : Position) (x : Piece) (xs : List Piece) :
    ofTokens (tokensFrom place (x :: xs)) =
      some ⟨place.advance x.gap, place.advance (weave (x :: xs) [])⟩ := by
  obtain ⟨u, hu, hstop⟩ := exists_getLast?_tokensFrom place x xs
  rw [ofTokens, (extends_tokens _).cover rfl hu, hstop]
  rfl

/-- At the range of some words of a text stand these words, with the layout between them. -/
theorem slice_ofTokens {xs ys : List Piece} {r : Range}
    (h : Range.ofTokens (tokensFrom (Position.start.advance (weave xs [])) ys) = some r)
    (zs : List Piece) (tail : List Char) :
    Build.slice (weave (xs ++ (ys ++ zs)) tail) r = inner ys := by
  cases ys with
  | nil => cases h
  | cons y ys =>
    rw [Range.ofTokens_tokensFrom] at h
    obtain rfl := Option.some.inj h
    have htext : weave (xs ++ (y :: ys ++ zs)) tail =
        (weave xs [] ++ y.gap) ++ (inner (y :: ys) ++ weave zs tail) := by
      have hxs := weave_tail xs [] (weave (y :: ys ++ zs) tail)
      have hys := weave_tail ys [] (weave zs tail)
      rw [List.nil_append] at hxs hys
      rw [weave_append, hxs, weave_append, weave, hys, inner]
      simp only [List.append_assoc]
    have hfrom : ((Position.start.advance (weave xs [])).advance y.gap).offset =
        (weave xs [] ++ y.gap).length := by
      rw [← Position.advance_append, Position.offset_advance_start]
    have hto : ((Position.start.advance (weave xs [])).advance (weave (y :: ys) [])).offset =
        (weave xs [] ++ y.gap).length + (inner (y :: ys)).length := by
      rw [← Position.advance_append, Position.offset_advance_start, weave,
        inner, ← List.append_assoc, List.length_append]
    rw [Build.slice, hfrom, hto, Nat.add_sub_cancel_left, htext, List.drop_left, List.take_left]

/-! ### The words of types -/

/-- The terminals that types are written with. -/
def Terminal.spellsType : Terminal → Bool
  | kwConst => true
  | matrixOpen => true
  | identifier => true
  | doubleColon => true
  | star => true
  | doubleStar => true
  | ampersand => true
  | leftBracket => true
  | rightBracket => true
  | greater => true
  | _ => false

theorem Terminal.slash_not_mem {t : Terminal} {w : List Char} (ht : t.spellsType = true)
    (h : t.Matches w) : '/' ∉ w := by
  have hsign : ∀ s : String, some s = some (String.ofList w) → '/' ∉ s.toList → '/' ∉ w := by
    intro s hs
    rw [Option.some.inj hs, String.toList_ofList]
    exact id
  have hblank : ∀ c, Blank.isMatrixBlank c = true → c ≠ '/' := by
    rintro c hc rfl
    cases hc
  cases t with
  | identifier =>
    cases w with
    | nil => exact List.not_mem_nil
    | cons c w =>
      obtain ⟨hc, hw⟩ := h
      intro hmem
      rcases List.mem_cons.1 hmem with rfl | hmem
      · cases hc
      · cases hw _ hmem
  | matrixOpen =>
    obtain ⟨blanks, hblanks, rfl⟩ := h
    intro hmem
    rcases List.mem_append.1 hmem with hmem | hmem
    · exact absurd hmem (by decide)
    · rcases List.mem_append.1 hmem with hmem | hmem
      · exact hblank _ (hblanks _ hmem) rfl
      · exact absurd hmem (by decide)
  | kwConst => exact hsign _ h (by decide)
  | doubleColon => exact hsign _ h (by decide)
  | star => exact hsign _ h (by decide)
  | doubleStar => exact hsign _ h (by decide)
  | ampersand => exact hsign _ h (by decide)
  | leftBracket => exact hsign _ h (by decide)
  | rightBracket => exact hsign _ h (by decide)
  | greater => exact hsign _ h (by decide)
  | _ => cases ht

/-- The rules that types are made of. -/
def Rule.spellsType : Rule → Bool
  | typeSpelling => true
  | typeName => true
  | pointerType => true
  | doublePointerType => true
  | referenceType => true
  | arrayType => true
  | matrixType => true
  | _ => false

/-- Whether a phrase is made of what types are written with. -/
def Phrase.spellsType : Phrase → Bool
  | terminal t => t.spellsType
  | rule r => r.spellsType
  | type => true
  | seq p q => p.spellsType && q.spellsType
  | either p q => p.spellsType && q.spellsType
  | maybe p => p.spellsType
  | many p => p.spellsType

theorem Rule.spellsType_phrase {r : Rule} (h : r.spellsType = true) :
    r.phrase.spellsType = true := by
  cases r <;> first | rfl | cases h

theorem Tree.mem_spellings_close {k : Rule} {ps : List Tree} {r : Range}
    (h : r ∈ (Tree.close k ps).spellings) :
    k = .typeSpelling ∧ Tree.cover ps = some r ∨ r ∈ spellingsAll ps := by
  have hkept : r ∈ spellingsAll (ps.filter fun t => !t.isPunctuation) → r ∈ spellingsAll ps := by
    intro hr
    obtain ⟨t, ht, hr⟩ := exists_of_mem_spellingsAll hr
    exact spellings_subset_all (List.mem_filter.1 ht).1 hr
  by_cases hk : k = .typeSpelling
  · subst hk
    rw [close, spellings] at h
    rcases List.mem_append.1 h with h | h
    · exact Or.inl ⟨rfl, Option.mem_toList.1 h⟩
    · exact Or.inr (hkept h)
  · rw [close, spellings] at h
    · exact Or.inr (hkept h)
    · exact fun heq => hk (Label.known.inj heq)

namespace DerivationTree

variable {p : Phrase}

theorem spellsType_tokens (d : DerivationTree p) (h : p.spellsType = true) :
    ∀ t ∈ d.tokens, t.terminal.spellsType = true := by
  induction d with
  | terminal t ht => exact List.forall_mem_singleton.2 (ht ▸ h)
  | rule d ih => exact ih (Rule.spellsType_phrase h)
  | type d ih => exact ih rfl
  | seq d e ihd ihe =>
    obtain ⟨hd, he⟩ := Bool.and_eq_true_iff.1 h
    exact List.forall_mem_append.2 ⟨ihd hd, ihe he⟩
  | left d ih => exact ih (Bool.and_eq_true_iff.1 h).1
  | right d ih => exact ih (Bool.and_eq_true_iff.1 h).2
  | absent => exact nofun
  | present d ih => exact ih h
  | none => exact nofun
  | more d e ihd ihe => exact List.forall_mem_append.2 ⟨ihd h, ihe h⟩

/-- Whether each spelling in some pieces is a stretch of some tokens. -/
def SpelledIn (ps : List Tree) (ts : List Token) : Prop :=
  ∀ r ∈ Tree.spellingsAll ps, ∃ front segment behind, ts = front ++ (segment ++ behind) ∧
    Range.ofTokens segment = some r ∧ ∀ t ∈ segment, t.terminal.spellsType = true

theorem SpelledIn.of_nil {ps : List Tree} (h : Tree.spellingsAll ps = []) (ts : List Token) :
    SpelledIn ps ts := by
  intro r hr
  rw [h] at hr
  cases hr

theorem SpelledIn.append {ps qs : List Tree} {ts us : List Token} (h : SpelledIn ps ts)
    (h' : SpelledIn qs us) : SpelledIn (ps ++ qs) (ts ++ us) := by
  intro r hr
  rw [Tree.spellingsAll_append] at hr
  rcases List.mem_append.1 hr with hr | hr
  · obtain ⟨front, segment, behind, rfl, hsegment⟩ := h r hr
    refine ⟨front, segment, behind ++ us, ?_, hsegment⟩
    simp only [List.append_assoc]
  · obtain ⟨front, segment, behind, rfl, hsegment⟩ := h' r hr
    refine ⟨ts ++ front, segment, behind, ?_, hsegment⟩
    simp only [List.append_assoc]

/-- A type that is written in a derivation is a stretch of its tokens. -/
theorem spelledIn (d : DerivationTree p) : SpelledIn d.pieces d.tokens := by
  induction d with
  | terminal t h => exact .of_nil rfl _
  | @rule k d ih =>
    intro r hr
    rw [pieces, Tree.spellingsAll, Tree.spellingsAll, List.append_nil] at hr
    rcases Tree.mem_spellings_close hr with ⟨rfl, hcover⟩ | hr
    · have hall := spellsType_tokens d rfl
      refine ⟨[], d.tokens, [], ?_, ?_, hall⟩
      · rw [List.nil_append, List.append_nil]
        rfl
      · rw [Range.ofTokens, (extends_tokens d.tokens).cover_eq d.extends_pieces, hcover]
    · exact ih r hr
  | type d ih => exact ih
  | seq d e ihd ihe => exact ihd.append ihe
  | left d ih => exact ih
  | right d ih => exact ih
  | absent => exact .of_nil rfl _
  | present d ih => exact ih
  | none => exact .of_nil rfl _
  | more d e ihd ihe => exact ihd.append ihe

end DerivationTree

/-- A type that is written in a text is written with a stretch of the words of the text. -/
theorem exists_stretch {p : Phrase} {d : DerivationTree p} {place : Position} {xs : List Piece}
    (h : d.tokens = tokensFrom place xs) {r : Range} (hr : r ∈ Tree.spellingsAll d.pieces) :
    ∃ front stretch behind, xs = front ++ (stretch ++ behind) ∧
      Range.ofTokens (tokensFrom (place.advance (weave front [])) stretch) = some r ∧
      ∀ x ∈ stretch, x.terminal.spellsType = true := by
  obtain ⟨ts, us, vs, hall, hcover, htype⟩ := d.spelledIn r hr
  obtain ⟨front, rest, rfl, -, hrest⟩ := tokensFrom_eq_append (h.symm.trans hall)
  obtain ⟨stretch, behind, rfl, hstretch, -⟩ := tokensFrom_eq_append hrest
  subst hstretch
  refine ⟨front, stretch, behind, rfl, hcover, ?_⟩
  exact forall_terminal_of_tokensFrom (f := fun k => k.spellsType = true) htype

theorem exists_stretch_of_read {s : StartRule} {text : List Char} {tree : Tree} {r : Range}
    (h : s.read text = .ok tree) (hr : r ∈ tree.spellings) :
    ∃ front stretch behind, (s.reading text).pieces.1 = front ++ (stretch ++ behind) ∧
      Range.ofTokens (tokensFrom (Position.start.advance (weave front [])) stretch) = some r ∧
      Build.slice text r = inner stretch ∧ Slashless stretch ∧
      ∀ x ∈ stretch, x.terminal.Matches x.word := by
  obtain ⟨q, htrail, hfinish⟩ := trail_of_run _ h
  obtain ⟨d, htokens, hd⟩ := htrail.exists_derivationTree hfinish
  have hmem : r ∈ Tree.spellingsAll d.pieces := by
    rw [hd]
    exact List.mem_append_left _ hr
  obtain ⟨front, stretch, behind, hpieces, hcover, htype⟩ := exists_stretch htokens hmem
  have hslice := slice_ofTokens hcover behind (s.reading text).pieces.2
  have htext := Reading.weave_pieces (s.reading text)
  have hall := htrail.forall_pieces
  rw [hpieces] at htext hall
  rw [htext] at hslice
  have hpart : ∀ x ∈ stretch, x.terminal.Matches x.word ∧ Layout.IsGap true x.gap :=
    fun x hx => hall x (List.mem_append_right front (List.mem_append_left behind hx))
  refine ⟨front, stretch, behind, hpieces, hcover, hslice, ?_, fun x hx => (hpart x hx).1⟩
  exact fun x hx => ⟨Terminal.slash_not_mem (htype x hx) (hpart x hx).1, (hpart x hx).2⟩

/-- More text behind a text that is read does not change how types are spelled in it. -/
theorem slice_spelling {s : StartRule} {text : List Char} {tree : Tree} {r : Range}
    (h : s.read text = .ok tree) (hr : r ∈ tree.spellings) (ext : List Char) :
    Build.slice (text ++ ext) r = Build.slice text r := by
  obtain ⟨front, stretch, behind, hpieces, hcover, hslice, -⟩ := exists_stretch_of_read h hr
  have htext := Reading.weave_pieces (s.reading text)
  rw [hpieces] at htext
  have hlong := slice_ofTokens hcover behind ((s.reading text).pieces.2 ++ ext)
  rw [weave_tail, htext] at hlong
  exact hlong.trans hslice.symm

end ClassLang
