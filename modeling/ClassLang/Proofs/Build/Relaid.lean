import ClassLang.Proofs.Build.Building
import ClassLang.Proofs.Build.Spelled

/-!
# Texts with other layout

The words of a text that is parsed may stand with any other layout between them, as long as words
that were parted stay parted: the text is parsed all the same. The classes are the same where the
same words are parted, and the same up to spaces in types that are kept as they were written where
more words are parted (`parse_relaid`).
-/

namespace ClassLang

open ClassLang.Tree

/-! ### From tokens to tokens -/

/-- Where the ranges of some tokens go if these tokens become others, one for one. -/
def Relocation.between : List Token → List Token → Relocation
  | t :: ts, u :: us =>
    ⟨fun p => if p = t.range.start then u.range.start else (between ts us).start p,
      fun p => if p = t.range.stop then u.range.stop else (between ts us).stop p⟩
  | _, _ => ⟨id, id⟩

/-- Whether two tokens are the same word. -/
def Token.SameWord (t u : Token) : Prop := u.terminal = t.terminal ∧ u.text = t.text

theorem Relocation.map_between {ts us : List Token} (h : List.Forall₂ Token.SameWord ts us)
    (hp : ts.Pairwise fun t u => t.range.start ≠ u.range.start ∧ t.range.stop ≠ u.range.stop) :
    us = ts.map (Token.relocate (between ts us)) := by
  induction h with
  | nil => rfl
  | @cons t u ts us hword _ ih =>
    obtain ⟨hne, hp⟩ := List.pairwise_cons.1 hp
    obtain ⟨hterminal, htext⟩ := hword
    have hhead : t.relocate (between (t :: ts) (u :: us)) = u := by
      simp only [Token.relocate, Range.relocate, between, if_true, ← hterminal, ← htext]
    have htail : ∀ v ∈ ts, v.relocate (between (t :: ts) (u :: us)) =
        v.relocate (between ts us) := by
      intro v hv
      obtain ⟨hstart, hstop⟩ := hne v hv
      simp only [Token.relocate, Range.relocate, between, if_neg hstart.symm, if_neg hstop.symm]
    rw [List.map_cons, hhead, List.map_congr_left htail, ← ih hp]

theorem Spread.pairwise_start {p : Position} {ts : List Token} {rest : List Char}
    (h : Spread p ts rest) :
    ts.Pairwise fun t u => t.range.start.offset < u.range.start.offset := by
  induction h with
  | nil => exact .nil
  | @cons p t ts gap w rest hg hr ht hm hrest ih =>
    refine .cons ?_ ih
    intro u hu
    have hpos := hm.length_pos
    have hstop : t.range.stop.offset = t.range.start.offset + w.length := by
      rw [hr, Position.advance_offset]
    obtain ⟨hle, hlt⟩ := hrest.ranges u hu
    omega

theorem sameWord_tokensFrom {xs ys : List Piece} (h : List.Forall₂ Piece.SameWord xs ys)
    (place place' : Position) :
    List.Forall₂ Token.SameWord (tokensFrom place xs) (tokensFrom place' ys) := by
  induction h generalizing place place' with
  | nil => exact .nil
  | @cons x y xs ys hxy _ ih =>
    obtain ⟨hterminal, hword, -⟩ := hxy
    exact .cons ⟨hterminal, congrArg String.ofList hword⟩ (ih _ _)

/-! ### Stretches of words with other layout -/

section

variable {m : Relocation} {place place' : Position} {front stretch behind ys : List Piece}

theorem length_tokensFrom (place : Position) (xs : List Piece) :
    (tokensFrom place xs).length = xs.length := by
  have hlength := congrArg List.length (map_terminal_tokensFrom place xs)
  rwa [List.length_map, List.length_map] at hlength

theorem tail_take_drop {α : Type} (xs : List α) (n k : Nat) :
    ((xs.drop n).take k).tail = (xs.tail.drop n).take (k - 1) := by
  rw [← List.drop_one, List.drop_take, List.drop_one, List.tail_drop, List.drop_tail]

/-- A stretch of words is a stretch of the same words, where its range goes. -/
theorem exists_stretch_relaid {r : Range}
    (hw : List.Forall₂ Piece.SameWord (front ++ (stretch ++ behind)) ys)
    (hm : tokensFrom place' ys = (tokensFrom place (front ++ (stretch ++ behind))).map
      (Token.relocate m))
    (hr : Range.ofTokens (tokensFrom (place.advance (weave front [])) stretch) = some r) :
    ∃ front' stretch' behind', ys = front' ++ (stretch' ++ behind') ∧
      List.Forall₂ Piece.SameWord stretch stretch' ∧
      Range.ofTokens (tokensFrom (place'.advance (weave front' [])) stretch') =
        some (r.relocate m) ∧
      ∀ R : Piece → Piece → Prop,
        List.Forall₂ R (front ++ (stretch ++ behind)).tail ys.tail →
          List.Forall₂ R stretch.tail stretch'.tail := by
  have hstretch : ((front ++ (stretch ++ behind)).drop front.length).take stretch.length =
      stretch := by
    rw [List.drop_left, List.take_left]
  have hys : ys = ys.take front.length ++ ((ys.drop front.length).take stretch.length ++
      (ys.drop front.length).drop stretch.length) := by
    rw [List.take_append_drop, List.take_append_drop]
  have hfront := List.forall₂_take front.length hw
  have hsame := List.forall₂_take stretch.length (List.forall₂_drop front.length hw)
  rw [List.take_left] at hfront
  rw [hstretch] at hsame
  refine ⟨_, _, _, hys, hsame, ?_, ?_⟩
  · rw [hys] at hm
    simp only [tokensFrom_append, List.map_append] at hm
    obtain ⟨-, hrest⟩ := List.append_inj hm (by
      rw [List.length_map, length_tokensFrom, length_tokensFrom, ← hfront.length_eq])
    obtain ⟨htokens, -⟩ := List.append_inj hrest (by
      rw [List.length_map, length_tokensFrom, length_tokensFrom, ← hsame.length_eq])
    rw [htokens, Range.ofTokens_relocate, hr]
    rfl
  · intro R hR
    have htail := List.forall₂_take (stretch.length - 1) (List.forall₂_drop front.length hR)
    rwa [← tail_take_drop, ← tail_take_drop, hstretch] at htail

end

/-! ### Reading and building -/

section

variable {text : List Char} {xs ys : List Piece} {tail tail' : List Char} {tree : Tree}

/-- The relocation from the words of a text to the same words with other layout. -/
def relaying (xs ys : List Piece) : Relocation :=
  .between (tokensFrom .start xs) (tokensFrom .start ys)

theorem tokensFrom_relaying {p q : Point} (h : Trail p .start xs tail q)
    (hw : List.Forall₂ Piece.SameWord xs ys) :
    tokensFrom .start ys = (tokensFrom .start xs).map (Token.relocate (relaying xs ys)) := by
  refine Relocation.map_between (sameWord_tokensFrom hw _ _) ?_
  refine h.spread.pairwise_start.imp₂ ?_ h.spread.pairwise_stop
  intro t u hstart hstop
  refine ⟨?_, ?_⟩
  · intro he
    rw [he] at hstart
    exact Nat.lt_irrefl _ hstart
  · intro he
    rw [he] at hstop
    exact Nat.lt_irrefl _ hstop

theorem Frame.root_unit_alone (m : Relocation) (range : Option Range) (ts : List Tree) :
    (Frame.mk m.recast [] []).root (.node (.known .unit) range ts) =
      (Tree.node (.known .unit) range ts).relocate m := by
  cases range <;> rfl

/-- With other layout a text is read to the same tree, with other ranges. -/
theorem read_relaid {range : Option Range} {ts : List Tree}
    (h : StartRule.unit.read text = .ok (.node (.known .unit) range ts))
    (hw : List.Forall₂ Piece.SameWord (StartRule.unit.reading text).pieces.1 ys)
    (hg : List.Forall₂ Piece.KeepsGap (StartRule.unit.reading text).pieces.1.tail ys.tail)
    (ht : Layout.IsGap false tail') :
    ∃ range', StartRule.unit.read (weave ys tail') = .ok (.node (.known .unit) range'
      (ts.map (Tree.relocate (relaying (StartRule.unit.reading text).pieces.1 ys)))) := by
  obtain ⟨q, htrail, hfinish⟩ := trail_of_run _ h
  have htokens := tokensFrom_relaying htrail hw
  let f : Frame := ⟨(relaying (StartRule.unit.reading text).pieces.1 ys).recast, [], []⟩
  have hframed := htrail.frame (f := f) StartRule.unit.reached_point nofun hw hg ht htokens
  have hreached := Point.reached_run StartRule.unit.reached_point htrail.run_tokensFrom
  have hroot := Point.finish?_frame (f := f) (Point.ne_suffix_of_reached hreached nofun)
  rw [hfinish, Option.map_some, Frame.root_unit_alone, relocate_node] at hroot
  exact ⟨_, Reading.run_of_trail hframed hroot _⟩

/-- A type is written in both texts with the same words, behind one another. -/
theorem exists_spelling_relaid {r : Range} (h : StartRule.unit.read text = .ok tree)
    (hw : List.Forall₂ Piece.SameWord (StartRule.unit.reading text).pieces.1 ys)
    (hr : r ∈ tree.spellings) (tail' : List Char) :
    ∃ zs zs', Slashless zs ∧ List.Forall₂ Piece.SameWord zs zs' ∧
      Build.slice text r = inner zs ∧
      Build.slice (weave ys tail')
        (r.relocate (relaying (StartRule.unit.reading text).pieces.1 ys)) = inner zs' ∧
      ∀ R : Piece → Piece → Prop,
        List.Forall₂ R (StartRule.unit.reading text).pieces.1.tail ys.tail →
          List.Forall₂ R zs.tail zs'.tail := by
  obtain ⟨front, zs, behind, hpieces, hcover, hslice, hslash, -⟩ := exists_stretch_of_read h hr
  obtain ⟨q, htrail, -⟩ := trail_of_run _ h
  have htokens := tokensFrom_relaying htrail hw
  rw [hpieces] at hw htokens ⊢
  obtain ⟨front', zs', behind', rfl, hsame, hcover', htail⟩ :=
    exists_stretch_relaid hw htokens hcover
  exact ⟨zs, zs', hslash, hsame, hslice, slice_ofTokens hcover' behind' tail', htail⟩

theorem faithful_relaid {f : String → String} {range : Option Range} {ts : List Tree}
    (h : StartRule.unit.read text = .ok (.node (.known .unit) range ts))
    (hw : List.Forall₂ Piece.SameWord (StartRule.unit.reading text).pieces.1 ys)
    (hf : ∀ zs zs', Slashless zs → List.Forall₂ Piece.SameWord zs zs' →
      (∀ R : Piece → Piece → Prop,
        List.Forall₂ R (StartRule.unit.reading text).pieces.1.tail ys.tail →
          List.Forall₂ R zs.tail zs'.tail) →
        f (String.ofList (Layout.collapse (inner zs'))) =
          f (String.ofList (Layout.collapse (inner zs)))) :
    ∀ t ∈ ts, Faithful f text (weave ys tail')
      (relaying (StartRule.unit.reading text).pieces.1 ys) t := by
  intro t ht r hr
  have hmem := spellingsAll_subset_node (.known .unit) range ts (spellings_subset_all ht hr)
  obtain ⟨zs, zs', hslash, hsame, hslice, hslice', htail⟩ :=
    exists_spelling_relaid h hw hmem tail'
  rw [Build.written, Build.written, hslice, hslice']
  exact hf zs zs' hslash hsame htail

theorem names_of_respell {f : String → String} {cs ds : List Class}
    (h : cs.map (Class.respell f) = ds.map (Class.respell f))
    (hd : ∀ d ∈ ds, d.name.isEmpty = false) : ∀ c ∈ cs, c.name.isEmpty = false := by
  intro c hc
  have hmem : c.respell f ∈ ds.map (Class.respell f) := h ▸ List.mem_map_of_mem hc
  obtain ⟨d, hd', heq⟩ := List.mem_map.1 hmem
  have hname : (d.respell f).name = (c.respell f).name := congrArg Class.name heq
  exact (hd d hd').symm.trans (congrArg String.isEmpty hname) |>.symm

/-- A text with the tree of another is parsed to what the other is, up to the spellings of types. -/
theorem parse_elsewhere {f : String → String} {text' : List Char} {m : Relocation}
    {u : SourceUnit} {range : Option Range} {ts : List Tree} (h : parse text = .ok u)
    (hc : List.Forall₂ (DenotesClass text) ts u.classes)
    (h' : StartRule.unit.read text' = .ok (.node (.known .unit) range (ts.map (Tree.relocate m))))
    (hf : ∀ t ∈ ts, Faithful f text text' m t) :
    ∃ u', parse text' = .ok u' ∧ u'.respell f = u.respell f := by
  obtain ⟨cs, hcs, heq⟩ := DenotesClass.relocate_all hc hf
  have hnames := names_of_respell heq (names_of_parse h)
  exact ⟨⟨cs⟩, parse_of_denotes (by rw [tokenize, h']) hcs hnames, congrArg SourceUnit.mk heq⟩

/-- The words of a text that is parsed may stand with other layout between them, where words that
were parted stay parted: the text is parsed, and the classes are the same up to spaces in the types
that are kept as they were written. They are the same altogether if no words are parted that were
not. In front of the first word and behind the last one layout may come and go. -/
theorem parse_relaid {u : SourceUnit} (h : parse text = .ok u)
    (hw : List.Forall₂ Piece.SameWord (StartRule.unit.reading text).pieces.1 ys)
    (hg : List.Forall₂ Piece.KeepsGap (StartRule.unit.reading text).pieces.1.tail ys.tail)
    (ht : Layout.IsGap false tail') :
    ∃ u', parse (weave ys tail') = .ok u' ∧ u'.respell unspaced = u.respell unspaced ∧
      (List.Forall₂ Piece.SameGap (StartRule.unit.reading text).pieces.1.tail ys.tail →
        u' = u) := by
  obtain ⟨range, ts, htree, hclasses⟩ := classes_of_parse h
  have hread := read_of_tokenize htree
  obtain ⟨range', hread'⟩ := read_relaid hread hw hg ht
  obtain ⟨u', hparse, hspaces⟩ := parse_elsewhere h hclasses hread' (faithful_relaid hread hw
    fun _ _ hslash hsame _ => (unspaced_relaid hslash hsame).symm)
  refine ⟨u', hparse, hspaces, ?_⟩
  intro hgaps
  -- with the same words parted no spelling changes at all
  obtain ⟨u'', hparse', heq⟩ := parse_elsewhere (f := id) h hclasses hread'
    (faithful_relaid hread hw fun _ _ hslash hsame htail =>
      congrArg String.ofList (collapse_relaid hslash hsame (htail _ hgaps)).symm)
  rw [SourceUnit.respell_id, SourceUnit.respell_id] at heq
  rw [← heq]
  exact Except.ok.inj (hparse.symm.trans hparse')

/-- A class with a method whose words are all parted. -/
def partedMethod : List Char := "class A \x7b int * f ( ) ; \x7d".toList

/-- A word with a comment in front of it. -/
def Piece.commented (x : Piece) : Piece := { x with gap := "/**/ ".toList }

theorem parse_relaid_partedMethod :
    ∃ u, parse partedMethod = .ok u ∧
      parse (weave ((StartRule.unit.reading partedMethod).pieces.1.map Piece.commented) ['\n']) =
        .ok u := by
  have hok : (parse partedMethod).toOption.isSome = true := by decide +kernel
  have hparted : ∀ x ∈ (StartRule.unit.reading partedMethod).pieces.1.tail, ¬x.gap = [] := by
    decide +kernel
  have hgap : Layout.IsGap true "/**/ ".toList := .block .nil (.blank rfl .nil)
  have hnewline : Layout.IsGap false ['\n'] := .blank rfl .nil
  have hword : List.Forall₂ Piece.SameWord (StartRule.unit.reading partedMethod).pieces.1
      ((StartRule.unit.reading partedMethod).pieces.1.map Piece.commented) := by
    rw [List.forall₂_map_right_iff, List.forall₂_same]
    exact fun x _ => ⟨rfl, rfl, hgap⟩
  have hkeeps : List.Forall₂ Piece.KeepsGap (StartRule.unit.reading partedMethod).pieces.1.tail
      ((StartRule.unit.reading partedMethod).pieces.1.map Piece.commented).tail := by
    rw [← List.map_tail, List.forall₂_map_right_iff, List.forall₂_same]
    exact fun x _ _ => List.cons_ne_nil _ _
  have hgaps : List.Forall₂ Piece.SameGap (StartRule.unit.reading partedMethod).pieces.1.tail
      ((StartRule.unit.reading partedMethod).pieces.1.map Piece.commented).tail := by
    rw [← List.map_tail, List.forall₂_map_right_iff, List.forall₂_same]
    exact fun x hx => iff_of_false (hparted x hx) (List.cons_ne_nil _ _)
  obtain ⟨u, h⟩ := exists_ok_of_isSome hok
  obtain ⟨u', hparse, -, heq⟩ := parse_relaid h hword hkeeps hnewline
  exact ⟨u, h, heq hgaps ▸ hparse⟩

end

end ClassLang
