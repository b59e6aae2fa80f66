import ClassLang.Proofs.Syntax.Joined

/-!
# A declaration behind a property list

A property list is read in front of a declaration like it is read alone, and on the next line the
declaration is read like it is read alone, with one exception: behind a list the word `class` is
taken for the keyword, which no declaration starts with. Main statements: `read_behind_list`, and
`read_behind_list_class` for the exception.
-/

namespace ClassLang

open ClassLang.Terminal

/-! ### A list in front of a declaration -/

/-- The point of a list that is read alone, and the one of a list in front of a declaration. -/
inductive Point.Hosted : Point → Point → Prop
  | opening : Hosted lonePropertyList loneDeclaration
  | property {before : List Tree} :
      Hosted (property (.inList before .alone))
        (property (.inList before (.ofDeclaration [] .alone)))
  | name {mark : Tree} {before : List Tree} :
      Hosted (propertyName mark (.inList before .alone))
        (propertyName mark (.inList before (.ofDeclaration [] .alone)))
  | head {pieces before : List Tree} :
      Hosted (propertyHead pieces (.inList before .alone))
        (propertyHead pieces (.inList before (.ofDeclaration [] .alone)))
  | ending {before : List Tree} :
      Hosted (propertyEnd before .alone) (propertyEnd before (.ofDeclaration [] .alone))
  | value {pieces before : List Tree} :
      Hosted (value (.ofProperty pieces (.inList before .alone)))
        (value (.ofProperty pieces (.inList before (.ofDeclaration [] .alone))))
  | closed {tree : Tree} : Hosted (done tree) (declaration [tree] .alone)

namespace Point.Hosted

variable {p q p' : Point} {t : Token}

theorem continueList (before : List Tree) (h : Point.continueList before .alone t = some q) :
    ∃ q', Point.continueList before (.ofDeclaration [] .alone) t = some q' ∧ Hosted q q' := by
  obtain ⟨k, text, range⟩ := t
  cases k with
  | comma =>
    obtain rfl := Option.some.inj h
    exact ⟨_, rfl, .property⟩
  | rightBracket =>
    obtain rfl := Option.some.inj h
    exact ⟨_, rfl, .closed⟩
  | _ => cases h

theorem step (h : Hosted p p') (hs : p.step t = some q) :
    ∃ q', p'.step t = some q' ∧ Hosted q q' := by
  cases h with
  | opening =>
    obtain ⟨k, text, range⟩ := t
    cases k with
    | leftBracket =>
      obtain rfl := Option.some.inj hs
      exact ⟨_, rfl, .property⟩
    | _ => cases hs
  | property =>
    obtain ⟨k, text, range⟩ := t
    cases k with
    | kwMeta =>
      obtain rfl := Option.some.inj hs
      exact ⟨_, rfl, .name⟩
    | identifier =>
      obtain rfl := Option.some.inj hs
      exact ⟨_, rfl, .head⟩
    | _ => cases hs
  | name =>
    obtain ⟨k, text, range⟩ := t
    cases k with
    | identifier =>
      obtain rfl := Option.some.inj hs
      exact ⟨_, rfl, .head⟩
    | _ => cases hs
  | @head pieces before =>
    have hrest := continueList (t := t) (q := q)
      (before ++ [Tree.close .property (pieces ++ [.absent])])
    obtain ⟨k, text, range⟩ := t
    cases k with
    | equals =>
      obtain rfl := Option.some.inj hs
      exact ⟨_, rfl, .value⟩
    | _ => exact hrest hs
  | ending => exact continueList _ hs
  | value =>
    rw [Point.step] at hs ⊢
    split at hs
    · rename_i hl
      obtain rfl := Option.some.inj hs
      rw [if_pos hl]
      exact ⟨_, rfl, .ending⟩
    · cases hs
  | closed => cases hs

/-- In front of a declaration no other words are looked for, but at the opening bracket. -/
theorem accepts (h : Hosted p p') (hs : p.step t = some q) :
    p'.accepts = p.accepts ∨ t.terminal = leftBracket := by
  cases h with
  | opening =>
    obtain ⟨k, text, range⟩ := t
    cases k with
    | leftBracket => exact Or.inr rfl
    | _ => cases hs
  | closed => cases hs
  | _ => exact Or.inl rfl

theorem finish? {tree : Tree} (h : Hosted p p') (hf : p.finish? = some tree) :
    p' = declaration [tree] .alone := by
  cases h with
  | closed => rw [Option.some.inj hf]
  | _ => cases hf

end Point.Hosted

theorem Trail.hosted {p q p' : Point} {place : Position} {xs : List Piece} {tail : List Char}
    (h : Trail p place xs tail q) (hp : Point.Hosted p p') :
    ∃ q', Trail p' place xs tail q' ∧ Point.Hosted q q' := by
  induction h generalizing p' with
  | nil hg => exact ⟨p', .nil hg, hp⟩
  | @cons p q s place x xs tail hg hm hc ht hs h ih =>
    obtain ⟨q', hs', hq⟩ := hp.step hs
    obtain ⟨s', htrail, hsq⟩ := ih hq
    refine ⟨s', .cons hg hm ?_ ?_ hs' htrail, hsq⟩
    · rcases hp.accepts hs with he | hx
      · rwa [he]
      · change x.terminal = leftBracket at hx
        rw [hx]
        exact startsWith_false _
    · rcases hp.accepts hs with he | hx
      · intro hi
        rw [he]
        exact ht hi
      · intro hi
        rw [hx] at hi
        cases hi

theorem DerivationTree.last_list (d : DerivationTree (.rule .properties)) :
    ∃ ts t, d.tokens = ts ++ [t] ∧ t.terminal = rightBracket := by
  match d with
  | .rule (.seq e (.terminal t ht)) => exact ⟨e.tokens, t, rfl, ht⟩

/-- A list in front of more text is read to the point behind a property list of a declaration. -/
theorem run_list {text : List Char} {tree : Tree} (h : StartRule.properties.read text = .ok tree)
    (other : List Char) :
    ∃ last, StartRule.declaration.read (text ++ '\n' :: other) =
      Reading.run ⟨.declaration [tree] .alone, last, Position.start.advance (text ++ ['\n']),
        other⟩ := by
  obtain ⟨q, htrail, hfinish⟩ := trail_of_run _ h
  obtain ⟨d, htokens, -⟩ := htrail.exists_derivationTree (r := .properties) hfinish
  obtain ⟨q', htrail', hq⟩ := htrail.hosted .opening
  obtain rfl := hq.finish? hfinish
  have hsign : EndsInSign (StartRule.properties.reading text).pieces.1 := by
    obtain ⟨ts, t, hts, ht⟩ := d.last_list
    have hlast : ∀ u ∈ (ts ++ [t]).getLast?, u.terminal.isWord = false := by
      intro u hu
      rw [List.getLast?_concat] at hu
      rw [← Option.some.inj hu, ht]
      rfl
    exact endsInSign_of_tokens ((htokens.symm.trans hts).symm ▸ hlast)
  obtain ⟨last, -, hrun⟩ := Reading.run_of_trail_newline htrail' hsign .start other
  rw [Reading.weave_pieces] at hrun
  exact ⟨last, hrun⟩

/-! ### The declaration -/

theorem tokensFrom_shift (offset lines : Nat) (place : Position) (xs : List Piece) :
    tokensFrom (place.shift offset lines) xs =
      (tokensFrom place xs).map (Token.relocate (.shift offset lines)) := by
  induction xs generalizing place with
  | nil => rfl
  | cons x xs ih =>
    have hx : x.token (place.shift offset lines) =
        (x.token place).relocate (.shift offset lines) := by
      rw [Piece.token, Position.advance_shift, Position.advance_shift]
      rfl
    rw [tokensFrom, hx]
    exact congrArg _ (ih _)

theorem Trail.sameWord {p q : Point} {place : Position} {xs : List Piece} {tail : List Char}
    (h : Trail p place xs tail q) : List.Forall₂ Piece.SameWord xs xs := by
  induction h with
  | nil => exact .nil
  | cons hg _ _ _ _ _ ih => exact .cons ⟨rfl, rfl, hg⟩ ih

theorem keepsGap_refl (xs : List Piece) : List.Forall₂ Piece.KeepsGap xs xs :=
  List.forall₂_same.2 fun _ _ => id

/-- The first word of a text that is read as a rule. -/
def StartRule.firstWord? (r : StartRule) (text : List Char) : Option (List Char) :=
  (r.reading text).pieces.1.head?.map Piece.word

theorem carriesOn_listFollowers (t : Terminal) :
    t.carriesOn Point.listFollowers = t.carriesOn Point.declarationStarts := by
  funext c
  cases t <;> rfl

/-- The trail over a declaration that does not start with the word `class` is one behind lists. -/
theorem Trail.behind_list {f : Frame} {offset lines : Nat} {q : Point} {xs : List Piece}
    {tail : List Char} (h : Trail .loneDeclaration .start xs tail q)
    (hf : f.toRecast = (Relocation.shift offset lines).recast) (hx : xs ≠ [])
    (hc : (xs.head?).map Piece.word ≠ some "class".toList) :
    Trail (.declaration f.lists .alone) (Position.start.shift offset lines) xs tail
      (q.frame f) := by
  cases h with
  | nil => exact absurd rfl hx
  | @cons _ q' _ _ x xs _ hg hm hcarries ht hs h =>
    have htoken : x.token (Position.start.shift offset lines) =
        f.token (x.token .start) := by
      rw [hf]
      exact (List.cons.inj (tokensFrom_shift offset lines .start [x])).1
    have hrest : tokensFrom (x.token (Position.start.shift offset lines)).range.stop xs =
        (tokensFrom (x.token .start).range.stop xs).map f.token := by
      rw [htoken, hf]
      exact tokensFrom_shift offset lines _ xs
    have hlone : (Point.declaration [] .alone).step (x.token .start) = some q' := hs
    have hstep := Point.step_frame f (x.token .start) (.declaration [] .alone)
    rw [hlone, ← htoken, Point.frame, DeclarationContext.lists, List.map_nil, List.append_nil]
      at hstep
    obtain ⟨hreached, hnext⟩ := Point.reached_step_ne StartRule.declaration.reached_point hs
    refine .cons hg hm ?_ ?_ hstep (h.frame hreached hnext h.sameWord
      (keepsGap_refl _) h.isGap_tail hrest)
    · rw [Point.accepts, carriesOn_listFollowers]
      exact hcarries
    · rintro hi ⟨k, hk, hkeyword, hspelling⟩
      rcases List.mem_cons.1 hk with rfl | hk
      · refine hc ?_
        have hword := Option.some.inj hspelling
        rw [Piece.token] at hword
        rw [List.head?_cons, Option.map_some, hword, String.toList_ofList]
      · exact ht hi ⟨k, hk, hkeyword, hspelling⟩

theorem ne_nil_of_finish? {r : StartRule} {q : Point} {place : Position} {xs : List Piece}
    {tail : List Char} {tree : Tree} (h : Trail r.point place xs tail q)
    (hf : q.finish? = some tree) (hr : r.point.finish? = none) : xs ≠ [] := by
  rintro rfl
  cases h with
  | nil =>
    rw [hr] at hf
    cases hf

/-- Behind a property list a declaration that does not start with the word `class` is read like by
itself, and the list is one of its lists. -/
theorem read_behind_list {text other : List Char} {list tree : Tree}
    (hl : StartRule.properties.read text = .ok list)
    (hd : StartRule.declaration.read other = .ok tree)
    (hc : StartRule.declaration.firstWord? other ≠ some "class".toList) :
    StartRule.declaration.read (text ++ '\n' :: other) =
      .ok ((Frame.behind text [] [list]).root tree) := by
  obtain ⟨last, hrun⟩ := run_list hl other
  obtain ⟨q, htrail, hfinish⟩ := trail_of_run _ hd
  have hreached : q.Reached .declaration
      (tokensFrom .start (StartRule.declaration.reading other).pieces.1) :=
    Point.reached_run StartRule.declaration.reached_point htrail.run_tokensFrom
  have hne := ne_nil_of_finish? (r := .declaration) htrail hfinish rfl
  have hbehind := htrail.behind_list (f := Frame.behind text [] [list]) rfl hne hc
  have hroot : (q.frame (Frame.behind text [] [list])).finish? =
      some ((Frame.behind text [] [list]).root tree) := by
    rw [Point.finish?_frame (Point.ne_suffix_of_reached hreached nofun), hfinish]
    rfl
  have hread := Reading.run_of_trail hbehind hroot last
  rw [Reading.weave_pieces, ← Position.advance_newline] at hread
  exact hrun.trans hread

/-- By itself a declaration takes the word `class` for a name. -/
theorem eq_identifier_of_class {t : Terminal} (ht : t ∈ Point.loneDeclaration.accepts)
    (hm : t.Matches "class".toList) : t = identifier := by
  simp only [Point.accepts, Point.declarationStarts, Point.memberStarts, Point.spellingStarts,
    Point.typeStarts, List.mem_cons, List.not_mem_nil, or_false] at ht
  rcases ht with rfl | rfl | rfl | rfl | rfl | rfl
  case inr.inr.inr.inr.inl => rfl
  case inr.inr.inr.inr.inr =>
    obtain ⟨blanks, -, h⟩ := hm
    cases h
  all_goals exact absurd (Option.some.inj hm) (by decide)

/-- Behind a property list no declaration starts with the word `class`. -/
theorem read_behind_list_class {text other : List Char} {list tree : Tree}
    (hl : StartRule.properties.read text = .ok list)
    (hd : StartRule.declaration.read other = .ok tree)
    (hc : StartRule.declaration.firstWord? other = some "class".toList) :
    ∃ cause, StartRule.declaration.read (text ++ '\n' :: other) = .error cause := by
  obtain ⟨last, hrun⟩ := run_list hl other
  obtain ⟨q, htrail, hfinish⟩ := trail_of_run _ hd
  have hweave := Reading.weave_pieces (StartRule.declaration.reading other)
  rw [StartRule.firstWord?] at hc
  generalize (StartRule.declaration.reading other).pieces = pieces at *
  obtain ⟨xs, tail⟩ := pieces
  cases htrail with
  | nil => cases hc
  | @cons _ _ _ _ x xs _ hg hm hcarries _ hs h =>
    have hword : x.word = "class".toList := Option.some.inj hc
    have hname : x.terminal = identifier :=
      eq_identifier_of_class (Point.mem_accepts hs) (hword ▸ hm)
    have hblunt : Blunt [] := ⟨fun _ _ => rfl, rfl⟩
    have hparted : kwClass.Parted Point.listFollowers (weave xs tail ++ []) := by
      rw [hname] at hcarries
      exact h.parted hcarries hblunt fun _ _ => rfl
    rw [List.append_nil] at hparted
    have hlexeme : lexeme? Point.listFollowers (x.word ++ weave xs tail) =
        some ⟨kwClass, x.word, weave xs tail⟩ := by
      rw [hword]
      exact lexeme?_of_parted (by decide) rfl hparted (by decide) nofun
    -- the keyword is looked for behind any list, but a declaration does not go on with it
    have hother : other = x.gap ++ (x.word ++ weave xs tail) := hweave.symm
    have hmove : ∃ cause, Reading.move ⟨.declaration [list] .alone, last,
        Position.start.advance (text ++ ['\n']), other⟩ = .answer (.error cause) := by
      rw [hother, Reading.move_of_gap hg hm, Reading.moveAt]
      simp only [Point.accepts, hlexeme]
      exact ⟨_, rfl⟩
    obtain ⟨cause, hmove⟩ := hmove
    exact ⟨cause, hrun.trans (Reading.run_of_answer hmove)⟩

end ClassLang
