import ClassLang.Proofs.Build.Relaid
import ClassLang.Proofs.Syntax.TokenMap
import ClassLang.Proofs.Syntax.WidenedReading

/-!
# Other names in a text

A name is read as a name whatever its letters are, as long as they spell none of the four words that
are taken for keywords in some place of a name. Putting another name in place of one changes the
leaf of the derivation only, the derivation stays clear, and the words around it end where they
ended before, since any name starts with a character that any other name could start with. Main
statement: `tokenize_rename`.
-/

namespace ClassLang

open DerivationTree (reservedWords Avoids)

/-! ### Trees with another name -/

/-- The token with another text, if it is the name at a range. -/
def Token.rename (range : Range) (new : String) (t : Token) : Token :=
  if t.terminal = .identifier ∧ t.range = range then { t with text := new } else t

theorem Token.terminal_rename (range : Range) (new : String) (t : Token) :
    (t.rename range new).terminal = t.terminal := by
  unfold rename
  split <;> rfl

theorem Token.rename_of_ne {range : Range} {t : Token} (h : t.range ≠ range) (new : String) :
    t.rename range new = t := if_neg fun hand => h hand.2

theorem Token.rename_self {t : Token} (h : t.terminal = .identifier) (new : String) :
    t.rename t.range new = { t with text := new } := if_pos ⟨h, rfl⟩

namespace Tree

variable (range : Range) (new : String)

mutual

/-- The tree with another text on the name at a range. -/
def rename : Tree → Tree
  | node rule r ts => node rule r (renameAll ts)
  | token kind text r =>
    if kind = .known .identifier ∧ r = range then token kind new r else token kind text r
  | absent => absent

def renameAll : List Tree → List Tree
  | [] => []
  | t :: ts => t.rename :: renameAll ts

end

theorem renameAll_eq_map (ts : List Tree) : renameAll range new ts = ts.map (rename range new) := by
  induction ts with
  | nil => rfl
  | cons t ts ih => rw [renameAll, ih, List.map_cons]

theorem range?_rename (t : Tree) : (t.rename range new).range? = t.range? := by
  cases t with
  | node => simp only [rename, range?]
  | token kind text r =>
    simp only [rename]
    split <;> rfl
  | absent => simp only [rename]

theorem isPunctuation_rename (t : Tree) :
    (t.rename range new).isPunctuation = t.isPunctuation := by
  cases t with
  | node => simp only [rename, isPunctuation]
  | token kind text r =>
    simp only [rename]
    split <;> cases kind <;> rfl
  | absent => simp only [rename]

theorem cover_rename (ps : List Tree) : cover (ps.map (rename range new)) = cover ps := by
  have hrange : (fun t => range? (rename range new t)) = range? :=
    funext (range?_rename range new)
  rw [cover, cover, ← List.map_reverse, List.findSome?_map, List.findSome?_map, Function.comp_def,
    hrange]

theorem close_rename (r : Rule) (ps : List Tree) :
    (close r ps).rename range new = close r (ps.map (rename range new)) := by
  rw [close, rename, renameAll_eq_map, close, cover_rename, List.filter_map]
  simp only [Function.comp_def, isPunctuation_rename]

theorem rename_tree (t : Token) : t.tree.rename range new = (t.rename range new).tree := by
  rw [Token.tree, rename, Token.rename, Token.tree]
  simp only [Label.known.injEq]
  split <;> rfl

/-- The tokens of a tree from left to right. -/
def tokens (t : Tree) : List Token :=
  t.gather fun kind text r =>
    match kind with
    | .known k => [⟨k, text, r⟩]
    | .other _ => []

end Tree

namespace DerivationTree

variable {p : Phrase}

theorem pieces_rename (d : DerivationTree p) (range : Range) (new : String) :
    (d.map (Token.rename range new) (Token.terminal_rename range new)).pieces =
      d.pieces.map (Tree.rename range new) := by
  induction d with
  | terminal t h => exact congrArg (fun t => [t]) (Tree.rename_tree range new t).symm
  | @rule r d ih =>
    rw [map, pieces, ih, pieces, List.map_singleton, Tree.close_rename]
  | type d ih => exact ih
  | seq d e ihd ihe => rw [map, pieces, pieces, ihd, ihe, List.map_append]
  | left d ih => exact ih
  | right d ih => exact ih
  | absent => rfl
  | present d ih => exact ih
  | none => rfl
  | more d e ihd ihe => rw [map, pieces, pieces, ihd, ihe, List.map_append]

theorem tokens_sublist {d : DerivationTree p} {tree : Tree} (h : d.pieces = [tree]) :
    tree.tokens.Sublist d.tokens := by
  have hleaves := d.gather_sublist fun kind text r =>
    match kind with
    | .known k => [(⟨k, text, r⟩ : Token)]
    | .other _ => []
  rwa [h, Tree.gatherAll_singleton, List.flatMap_singleton'] at hleaves

theorem Clear.rename {d : DerivationTree p} (h : d.Clear) (range : Range) {new : String}
    (hnew : new ∉ reservedWords) :
    (d.map (Token.rename range new) (Token.terminal_rename range new)).Clear := by
  apply h.map_of_avoids
  intro words ts hwords havoids t ht hi
  rw [List.head?_map, Option.mem_def, Option.map_eq_some_iff] at ht
  obtain ⟨u, hu, rfl⟩ := ht
  unfold Token.rename
  split
  · exact fun hmem => hnew (hwords hmem)
  · rw [Token.terminal_rename] at hi
    exact havoids u hu hi

end DerivationTree

/-! ### Pieces with other names -/

/-- A piece with the same layout in front, and with the same word or another name for a name. -/
structure Piece.Renames (x y : Piece) : Prop where
  gap : y.gap = x.gap
  terminal : y.terminal = x.terminal
  word : y.word = x.word ∨ x.terminal = .identifier ∧ Terminal.identifier.Matches y.word

theorem Piece.Renames.refl (x : Piece) : x.Renames x := ⟨rfl, rfl, .inl rfl⟩

theorem Piece.Renames.matches {x y : Piece} (h : x.Renames y) (hm : x.terminal.Matches x.word) :
    y.terminal.Matches y.word := by
  rw [h.terminal]
  rcases h.word with hword | ⟨hi, hname⟩
  · rwa [hword]
  · rwa [hi]

namespace Terminal

theorem exists_nameStart {w : List Char} (h : identifier.Matches w) :
    ∃ c v, w = c :: v ∧ Ascii.isNameStart c = true := by
  cases w with
  | nil => cases h
  | cons c v => exact ⟨c, v, rfl, h.1⟩

/-- What one first character of a name carries on, every first character of a name carries on. -/
theorem carriesOn_nameStart {c d : Char} (hc : Ascii.isNameStart c = true)
    (hd : Ascii.isNameStart d = true) (accepted : List Terminal) (t : Terminal) :
    t.carriesOn accepted c = t.carriesOn accepted d := by
  have hnameChar : Ascii.isNameChar c = Ascii.isNameChar d := by
    rw [Ascii.isNameChar_of_isNameStart hc, Ascii.isNameChar_of_isNameStart hd]
  have hnot : ∀ e, Ascii.isNameStart e = true →
      Ascii.isDigit e = false ∧ e ≠ '*' ∧ e ≠ ':' := by
    intro e he
    refine ⟨?_, ?_, ?_⟩
    · by_contra hdigit
      rw [Ascii.isNameStart_of_isDigit (Bool.not_eq_false _ ▸ hdigit)] at he
      cases he
    · rintro rfl
      cases he
    · rintro rfl
      cases he
  obtain ⟨hcdigit, hcstar, hccolon⟩ := hnot c hc
  obtain ⟨hddigit, hdstar, hdcolon⟩ := hnot d hd
  cases t <;> simp only [carriesOn, hnameChar, hcdigit, hddigit, hcstar, hdstar, hccolon, hdcolon,
    decide_false]

end Terminal

theorem startsWith_weave_renames {xs ys : List Piece} (h : List.Forall₂ Piece.Renames xs ys)
    (hm : ∀ x ∈ xs, x.terminal.Matches x.word) (tail : List Char) (accepted : List Terminal)
    (t : Terminal) :
    startsWith (t.carriesOn accepted) (weave ys tail) =
      startsWith (t.carriesOn accepted) (weave xs tail) := by
  cases h with
  | nil => rfl
  | @cons x y xs ys hxy hrest =>
    rw [weave, weave, hxy.gap]
    cases x.gap with
    | cons c gap => rfl
    | nil =>
      rw [List.nil_append, List.nil_append]
      have hx := hm x List.mem_cons_self
      rw [startsWith_of_ne_nil (hxy.matches hx).ne_nil, startsWith_of_ne_nil hx.ne_nil]
      rcases hxy.word with hword | ⟨hi, hname⟩
      · rw [hword]
      · rw [hi] at hx
        obtain ⟨c, v, hxword, hc⟩ := Terminal.exists_nameStart hx
        obtain ⟨d, w, hyword, hd⟩ := Terminal.exists_nameStart hname
        rw [hxword, hyword]
        exact Terminal.carriesOn_nameStart hd hc accepted t

/-- A trail goes over the same pieces with other names, if its points lead over their tokens. -/
theorem Trail.renames {p q p' q' : Point} {place place' : Position} {xs ys : List Piece}
    {tail : List Char} (h : Trail p place xs tail q) (ho : p'.outline = p.outline)
    (hr : List.Forall₂ Piece.Renames xs ys) (hl : p'.Leads (tokensFrom place' ys) q') :
    Trail p' place' ys tail q' := by
  -- outlines of points decide what they accept and where they lead, whatever the words are
  induction h generalizing p' place' ys with
  | nil hg =>
    cases hr
    cases hl
    exact .nil hg
  | @cons p q s place x xs tail hg hm hc ht hs h ih =>
    cases hr with
    | @cons _ y _ ys hxy hrest =>
      cases hl with
      | @cons _ q₁ _ _ _ ht' hs' hl =>
        have hterminal : (y.token place').terminal = (x.token place).terminal := hxy.terminal
        have houtline : q₁.outline = q.outline := by
          have hstep := Point.step_of_outline ho hterminal
          rw [hs, hs'] at hstep
          exact Option.some.inj hstep
        have hcarries : startsWith (y.terminal.carriesOn p'.accepts) (weave ys tail) = false := by
          rw [Point.accepts_of_outline ho, hxy.terminal,
            startsWith_weave_renames hrest fun z hz => (h.forall_pieces z hz).1]
          exact hc
        exact .cons (hxy.gap ▸ hg) (hxy.matches hm) hcarries ht' hs' (ih houtline hrest hl)

theorem forall₂_alike_tokensFrom (place place' : Position) (xs : List Piece) :
    List.Forall₂ Token.Alike (tokensFrom place xs) (tokensFrom place' xs) := by
  induction xs generalizing place place' with
  | nil => exact .nil
  | cons x xs ih => exact .cons ⟨rfl, rfl⟩ (ih _ _)

theorem exists_piece {place : Position} {xs : List Piece} {t : Token}
    (h : t ∈ tokensFrom place xs) :
    ∃ front x back, xs = front ++ x :: back ∧ x.token (place.advance (weave front [])) = t := by
  obtain ⟨ts, us, hsplit⟩ := List.append_of_mem h
  obtain ⟨front, rest, rfl, -, hrest⟩ := tokensFrom_eq_append hsplit
  cases rest with
  | nil => cases hrest
  | cons x back => exact ⟨front, x, back, rfl, (List.cons.inj hrest).1⟩

/-- The text around a piece, and the text of the same pieces with another word. -/
theorem take_drop_piece {front back : List Piece} {x : Piece} {tail : List Char} {t : Token}
    (ht : x.token (Position.start.advance (weave front [])) = t) (new : List Char) :
    (weave (front ++ x :: back) tail).take t.range.start.offset ++ new ++
        (weave (front ++ x :: back) tail).drop t.range.stop.offset =
      weave (front ++ ⟨x.gap, x.terminal, new⟩ :: back) tail := by
  rw [← ht, Piece.offset_start_token, Piece.offset_stop_token, weave_around, weave_around,
    List.take_left, ← List.append_assoc _ x.word, List.drop_left, List.append_assoc]

theorem Spread.pairwise_range {place : Position} {ts : List Token} {cs : List Char}
    (h : Spread place ts cs) : ts.Pairwise fun u v => u.range ≠ v.range := by
  refine h.pairwise_start.imp ?_
  intro u v hlt heq
  rw [heq] at hlt
  exact Nat.lt_irrefl _ hlt

theorem alike_rename {front back : List Piece} {x : Piece} {place : Position} {t : Token}
    (ht : x.token (place.advance (weave front [])) = t) (hi : t.terminal = .identifier)
    (hranges : (tokensFrom place (front ++ x :: back)).Pairwise fun u v => u.range ≠ v.range)
    (new : List Char) :
    List.Forall₂ Token.Alike (tokensFrom place (front ++ ⟨x.gap, x.terminal, new⟩ :: back))
      ((tokensFrom place (front ++ x :: back)).map (Token.rename t.range (String.ofList new))) := by
  simp only [tokensFrom_append, tokensFrom, ht, List.map_append, List.map_cons] at hranges ⊢
  obtain ⟨-, hback, hfront⟩ := List.pairwise_append.1 hranges
  have hfix : ∀ us : List Token, (∀ u ∈ us, u.range ≠ t.range) →
      us.map (Token.rename t.range (String.ofList new)) = us := by
    intro us hus
    conv_rhs => rw [← List.map_id us]
    exact List.map_congr_left fun u hu => Token.rename_of_ne (hus u hu) _
  have hbefore : ∀ u ∈ tokensFrom place front, u.range ≠ t.range :=
    fun u hu => hfront u hu t List.mem_cons_self
  have hbehind : ∀ u ∈ tokensFrom t.range.stop back, u.range ≠ t.range :=
    fun u hu => ((List.pairwise_cons.1 hback).1 u hu).symm
  rw [hfix _ hbefore, hfix _ hbehind, Token.rename_self hi]
  have hterminal : x.terminal = t.terminal := by rw [← ht]; rfl
  exact List.rel_append (forall₂_alike_tokensFrom _ _ front)
    (.cons ⟨hterminal, rfl⟩ (forall₂_alike_tokensFrom _ _ back))

theorem renames_single {x : Piece} (hi : x.terminal = .identifier) {new : List Char}
    (hname : Pattern.IsName new) (front back : List Piece) :
    List.Forall₂ Piece.Renames (front ++ x :: back)
      (front ++ ⟨x.gap, x.terminal, new⟩ :: back) := by
  have hrefl : ∀ zs : List Piece, List.Forall₂ Piece.Renames zs zs :=
    fun zs => List.forall₂_same.2 fun z _ => .refl z
  exact List.rel_append (hrefl front) (.cons ⟨rfl, rfl, .inr ⟨hi, hname⟩⟩ (hrefl back))

/-! ### Texts with other names -/

/-- A text is read with other names in it if a clear derivation has them for leaves. -/
theorem StartRule.read_renames {r : StartRule} {q : Point} {xs ys : List Piece} {tail : List Char}
    (h : Trail r.point .start xs tail q) (hr : List.Forall₂ Piece.Renames xs ys)
    {d : DerivationTree r.phrase} (hclear : d.Clear)
    (halike : List.Forall₂ Token.Alike (tokensFrom .start ys) d.tokens) :
    ∃ tree, r.read (weave ys tail) = .ok tree ∧ [tree.unplaced] = d.pieces.map Tree.unplaced := by
  obtain ⟨e, htokens, hpieces, -, hclear'⟩ := DerivationTree.exists_alike _ halike
  obtain ⟨tree, q', htree, hleads, hfinish⟩ := r.leads e (hclear' hclear)
  rw [htokens] at hleads
  refine ⟨tree, Reading.run_of_trail (h.renames rfl hr hleads) hfinish .start, ?_⟩
  rw [← hpieces, htree]
  rfl

/-- Names are opaque: in place of a name of a text that is read, any name but the four words may
stand, and the tree is the same but for that name, the only token with its range, and for places. -/
theorem tokenize_rename {r : StartRule} {text : List Char} {tree : Tree}
    (h : tokenize r text = .ok tree) {t : Token} (ht : t ∈ tree.tokens)
    (hi : t.terminal = .identifier) {new : List Char} (hname : Pattern.IsName new)
    (hnew : String.ofList new ∉ reservedWords) :
    Build.slice text t.range = t.text.toList ∧
      tree.tokens.Pairwise (fun u v => u.range ≠ v.range) ∧
      ∃ tree', tokenize r (text.take t.range.start.offset ++ new ++
          text.drop t.range.stop.offset) = .ok tree' ∧
        tree'.unplaced = (tree.rename t.range (String.ofList new)).unplaced := by
  have hread := read_of_tokenize h
  obtain ⟨q, htrail, -⟩ := trail_of_run (r.reading text) hread
  obtain ⟨d, hclear, hpieces, htokens⟩ := StartRule.exists_clear hread
  have hplace : (r.reading text).place = .start := rfl
  have hweave : weave (r.reading text).pieces.1 (r.reading text).pieces.2 = text :=
    Reading.weave_pieces _
  rw [hplace] at htrail
  generalize (r.reading text).pieces.1 = xs at htrail htokens hweave
  generalize (r.reading text).pieces.2 = tail at htrail hweave
  have hspread := htrail.spread
  have hsublist : tree.tokens.Sublist (tokensFrom .start xs) :=
    htokens ▸ DerivationTree.tokens_sublist hpieces
  have hmem : t ∈ tokensFrom .start xs := hsublist.subset ht
  obtain ⟨front, x, back, rfl, hx⟩ := exists_piece hmem
  have hterminal : x.terminal = .identifier := by
    rw [← hi, ← hx]
    rfl
  -- the new tokens are the leaves of the same derivation with another name in it
  have halike := alike_rename hx hi hspread.pairwise_range new
  have hmap : (d.map (Token.rename t.range (String.ofList new))
      (Token.terminal_rename _ _)).tokens =
      d.tokens.map (Token.rename t.range (String.ofList new)) := d.tokens_map
  rw [← htokens, ← hmap] at halike
  obtain ⟨tree', hread', htree'⟩ := StartRule.read_renames htrail
    (renames_single hterminal hname front back) (hclear.rename t.range hnew) halike
  rw [DerivationTree.pieces_rename, hpieces] at htree'
  refine ⟨?_, hspread.pairwise_range.sublist hsublist, tree', ?_, (List.cons.inj htree').1⟩
  · rw [← hweave]
    exact (hspread.standsIn (Position.advance_nil _).symm t hmem).slice
  · rw [← hweave, take_drop_piece hx, tokenize, hread']

/-- A class with a matrix of a type with two parts. -/
def matrixField : List Char := "class A \x7b Matrix<B::C> x; \x7d".toList

/-- A part of a type may be named like a literal. -/
theorem tokenize_rename_matrixField : ∃ tree t tree',
    tokenize .unit matrixField = .ok tree ∧ t ∈ tree.tokens ∧ t.text = "C" ∧
    tokenize .unit "class A \x7b Matrix<B::true> x; \x7d".toList = .ok tree' ∧
    tree'.unplaced = (tree.rename t.range "true").unplaced := by
  let t : Token := ⟨.identifier, "C", ⟨⟨20, 1, 21⟩, ⟨21, 1, 22⟩⟩⟩
  have hmem : (tokenize .unit matrixField).toOption.map (fun tree => decide (t ∈ tree.tokens)) =
      some true := by decide +kernel
  obtain ⟨tree, h, hdecide⟩ := exists_ok_of_map hmem
  have ht : t ∈ tree.tokens := of_decide_eq_true hdecide
  have hname : Pattern.IsName "true".toList := ⟨rfl, List.all_eq_true.1 rfl⟩
  obtain ⟨-, -, tree', hread, htree⟩ := tokenize_rename h ht rfl hname (by decide)
  exact ⟨tree, t, tree', h, ht, rfl, hread, htree⟩

end ClassLang
