import ClassLang.Proofs.Build.Agreement
import ClassLang.Proofs.Build.Relaid
import ClassLang.Proofs.Build.Tidied

/-!
# Types by their words

Words spell a type if they derive it wherever they stand (`Spells`). They do so with any layout that
parts the same words, and however the matrices in the type are opened: nothing but terminals and
names counts. Words that spell a type are read as it, without a qualifier in front of them
(`Spells.parse_type`), and in a larger text they leave their tidied text as its written form.
-/

namespace ClassLang

open Terminal ClassLang.Tree DerivationTree
open ClassLang.Part (ofType)

/-! ### Derivations with other tokens -/

/-- Whether two tokens belong to one terminal, and are the same name if they are names. -/
def Token.SameName (t u : Token) : Prop :=
  u.terminal = t.terminal ∧ (t.terminal = identifier → u.text = t.text)

/-- What stands for a token if some tokens become others, one for one. -/
def Token.replace : List Token → List Token → Token → Token
  | t :: ts, u :: us, v => if v = t then ⟨v.terminal, u.text, u.range⟩ else replace ts us v
  | _, _, v => v

namespace Token

theorem terminal_replace (ts us : List Token) (v : Token) :
    (replace ts us v).terminal = v.terminal := by
  fun_induction replace ts us v with
  | case1 => rfl
  | case2 ts us v t u hne ih => exact ih
  | case3 => rfl

theorem text_replace {ts us : List Token} (h : List.Forall₂ SameName ts us) {v : Token}
    (hv : v.terminal = identifier) : (replace ts us v).text = v.text := by
  induction h with
  | nil => rfl
  | @cons t u ts us htu _ ih =>
    by_cases hvt : v = t
    · rw [replace, if_pos hvt, hvt]
      exact htu.2 (hvt ▸ hv)
    · rw [replace, if_neg hvt, ih]

theorem map_replace {ts us : List Token} (h : List.Forall₂ SameName ts us) (hn : ts.Nodup) :
    ts.map (replace ts us) = us := by
  induction h with
  | nil => rfl
  | @cons t u ts us htu _ ih =>
    obtain ⟨hnot, hn⟩ := List.nodup_cons.1 hn
    have hhead : replace (t :: ts) (u :: us) t = u := by
      rw [replace, if_pos rfl, ← htu.1]
    have htail : ∀ v ∈ ts, replace (t :: ts) (u :: us) v = replace ts us v := by
      intro v hv
      refine if_neg ?_
      rintro rfl
      exact hnot hv
    rw [List.map_cons, hhead, List.map_congr_left htail, ih hn]

end Token

theorem sameName_tokensFrom {xs ys : List Piece} (h : List.Forall₂ Piece.Respaced xs ys)
    (place place' : Position) :
    List.Forall₂ Token.SameName (tokensFrom place xs) (tokensFrom place' ys) := by
  induction h generalizing place place' with
  | nil => exact .nil
  | @cons x y xs ys hxy _ ih =>
    exact .cons ⟨hxy.terminal, fun hi => congrArg String.ofList (hxy.name hi)⟩ (ih _ _)

theorem Apart.nodup_tokensFrom {xs : List Piece} {rest : List Char} (h : Apart xs rest)
    (hr : Layout.IsGap false rest) (place : Position) : (tokensFrom place xs).Nodup := by
  refine (h.spread hr place).pairwise_start.imp ?_
  rintro t u hlt rfl
  exact Nat.lt_irrefl _ hlt

/-- Whether a tree is every name, mark and type that another one is. -/
structure Tree.Means (t u : Tree) : Prop where
  name : ∀ s, t.IsName s → u.IsName s
  mark : ∀ k b, Marks k t b → Marks k u b
  type : ∀ d, DenotesType t d → DenotesType u d

namespace Tree

theorem Marks.token {k : Terminal} {kind : Label Terminal} {text text' : String}
    {range range' : Range} {b : Bool} (h : Marks k (.token kind text range) b) :
    Marks k (.token kind text' range') b := by
  cases h
  exact .present

theorem forall₂_isName {ts us : List Tree} {names : List String} (h : List.Forall₂ Means ts us)
    (hn : List.Forall₂ IsName ts names) : List.Forall₂ IsName us names := by
  induction h generalizing names with
  | nil => exact hn
  | cons htu _ ih =>
    obtain _ | ⟨hname, hnames⟩ := hn
    exact .cons (htu.name _ hname) (ih hnames)

/-- A node is the type that its children make it, wherever it stands. -/
theorem means_node {r : Rule} {range range' : Option Range} {ts us : List Tree}
    (h : List.Forall₂ Means ts us) :
    Means (.node (.known r) range ts) (.node (.known r) range' us) where
  name s hs := by
    obtain ⟨_, heq⟩ := hs
    cases heq
  mark k b hk := by cases hk
  type d hd := by
    cases hd with
    | name hn => exact .name (forall₂_isName h hn)
    | pointer hd =>
      obtain _ | ⟨ht, _ | _⟩ := h
      exact .pointer (ht.type _ hd)
    | doublePointer hd =>
      obtain _ | ⟨ht, _ | _⟩ := h
      exact .doublePointer (ht.type _ hd)
    | reference hd =>
      obtain _ | ⟨ht, _ | _⟩ := h
      exact .reference (ht.type _ hd)
    | array hd =>
      obtain _ | ⟨ht, _ | _⟩ := h
      exact .array (ht.type _ hd)
    | matrix hd =>
      obtain _ | ⟨ho, _ | ⟨ht, _ | _⟩⟩ := h
      cases ho.mark _ _ .present
      exact .matrix (ht.type _ hd)

end Tree

namespace DerivationTree

variable {p : Phrase}

/-- What a derivation leaves is made by the terminals and names of its tokens. -/
theorem means_map {f : Token → Token} {hf : ∀ t, (f t).terminal = t.terminal}
    (hname : ∀ t, t.terminal = identifier → (f t).text = t.text) (d : DerivationTree p) :
    List.Forall₂ Means d.kept (d.map f hf).kept := by
  induction d with
  | @terminal k t ht =>
    rw [map, kept, kept]
    cases k.isPunctuation with
    | true => exact .nil
    | false =>
      refine .cons ⟨?_, ?_, ?_⟩ .nil
      · rintro s ⟨range, heq⟩
        obtain ⟨hterminal, htext, -⟩ := Tree.token.inj heq
        have hi : t.terminal = identifier := Label.known.inj hterminal
        refine ⟨(f t).range, ?_⟩
        rw [Token.tree, hf, hname t hi, hi, htext]
      · intro k b hk
        rw [Token.tree, hf]
        exact hk.token
      · intro d hd
        cases hd
  | rule d ih => exact .cons (means_node ih) .nil
  | type d ih => exact ih
  | seq d e ihd ihe => exact List.rel_append ihd ihe
  | left d ih => exact ih
  | right d ih => exact ih
  | absent => exact .cons ⟨fun _ h => h, fun _ _ h => h, fun _ h => h⟩ .nil
  | present d ih => exact ih
  | none => exact .nil
  | more d e ihd ihe => exact List.rel_append ihd ihe

theorem not_endsInList (d : DerivationTree p) (hp : p.spellsType = true) : ¬d.EndsInList := by
  induction d with
  | terminal t ht => exact id
  | @rule r d ih =>
    rintro (rfl | hl)
    · cases hp
    · exact ih (Rule.spellsType_phrase hp) hl
  | type d ih => exact ih rfl
  | seq d e ihd ihe =>
    obtain ⟨hd, he⟩ := Bool.and_eq_true_iff.1 hp
    rintro (hl | ⟨-, hl⟩)
    · exact ihe he hl
    · exact ihd hd hl
  | left d ih => exact ih (Bool.and_eq_true_iff.1 hp).1
  | right d ih => exact ih (Bool.and_eq_true_iff.1 hp).2
  | absent => exact id
  | present d ih => exact ih hp
  | none => exact id
  | more d e ihd ihe =>
    rintro (hl | ⟨-, hl⟩)
    · exact ihe hp hl
    · exact ihd hp hl

/-- A type leaves a single piece, and starts with a name or with the opening of a matrix. -/
theorem kept_type (d : DerivationTree .type) :
    ∃ u t ts, d.kept = [u] ∧ d.pieces = [u] ∧ d.tokens = t :: ts ∧
      (t.terminal = identifier ∨ t.terminal = matrixOpen) := by
  obtain ⟨u, _, hpieces, ⟨t, ts, m, htokens, hstart, _⟩, _⟩ := Point.opens_type d .alone
  refine ⟨u, t, ts, kept_of_pieces (r := .typeDecl) d hpieces, hpieces, htokens, ?_⟩
  unfold Point.startType at hstart
  split at hstart
  · exact Or.inl ‹_›
  · exact Or.inr ‹_›
  · cases hstart

end DerivationTree

/-! ### Words that spell a type -/

/-- Whether some words, in whatever place, derive a type that may be marked constant. -/
structure Spells (xs : List Piece) (d : DataType) (isConst : Bool) : Prop where
  words : TypeWords xs
  apart : ∀ rest, (∀ k : Terminal, k.EndsBefore rest) → Apart xs rest
  derived : ∀ place, ∃ (mark : DerivationTree (.maybe (.terminal kwConst)))
    (e : DerivationTree .type) (m t : Tree), mark.tokens ++ e.tokens = tokensFrom place xs ∧
      (DerivationTree.rule (r := .typeSpelling) (.seq mark e)).Clear ∧
      mark.kept = [m] ∧ e.kept = [t] ∧ Marks kwConst m isConst ∧ DenotesType t d

section

variable {xs ys : List Piece} {d : DataType} {isConst : Bool} {place : Position}
  {rest : List Char} {mark : DerivationTree (.maybe (.terminal kwConst))}
  {e : DerivationTree .type} {m t : Tree}

/-- Tokens that stand elsewhere, with other layout between them, come from a map that keeps
terminals and names. -/
theorem exists_replacement (hn : (tokensFrom place xs).Nodup)
    (hr : List.Forall₂ Piece.Respaced xs ys) (place' : Position) :
    ∃ f : Token → Token, (∀ v, (f v).terminal = v.terminal) ∧
      (∀ v, v.terminal = identifier → (f v).text = v.text) ∧
      (tokensFrom place xs).map f = tokensFrom place' ys := by
  have hsame := sameName_tokensFrom hr place place'
  exact ⟨_, Token.terminal_replace _ _, fun v hv => Token.text_replace hsame hv,
    Token.map_replace hsame hn⟩

theorem exists_kept_map {p : Phrase} {d : DerivationTree p} {f : Token → Token} (hd : d.kept = [t])
    (hf : ∀ v, (f v).terminal = v.terminal)
    (hname : ∀ v, v.terminal = identifier → (f v).text = v.text) :
    ∃ u, (d.map f hf).kept = [u] ∧ Means t u := by
  have hmeans : List.Forall₂ Means d.kept (d.map f hf).kept := means_map hname d
  rw [hd] at hmeans
  obtain ⟨u, us, htu, hus, hmap⟩ := List.forall₂_cons_left_iff.1 hmeans
  obtain rfl := List.forall₂_nil_left_iff.1 hus
  exact ⟨u, hmap, htu⟩

/-- The words of a derivation spell its type, and so do the same words with other layout between
them if the same words are parted. -/
theorem spells_of_derivation (htokens : mark.tokens ++ e.tokens = tokensFrom place xs)
    (hclear : (DerivationTree.rule (r := .typeSpelling) (.seq mark e)).Clear)
    (hm : mark.kept = [m]) (ht : e.kept = [t]) (hmark : Marks kwConst m isConst)
    (htype : DenotesType t d) (ha : Apart xs rest) (hn : (tokensFrom place xs).Nodup)
    (hr : List.Forall₂ Piece.Respaced xs ys)
    (hg : List.Forall₂ Piece.SameGap xs.tail ys.tail) (hw : TypeWords ys) :
    Spells ys d isConst where
  words := hw
  apart _ hends := ha.respaced hr hg hends
  derived place' := by
    obtain ⟨f, hf, hname, hmap⟩ := exists_replacement hn hr place'
    obtain ⟨m', hm', hmeans⟩ := exists_kept_map hm hf hname
    obtain ⟨t', ht', hmeans'⟩ := exists_kept_map ht hf hname
    refine ⟨mark.map f hf, e.map f hf, m', t', ?_, hclear.map hname, hm', ht',
      hmeans.mark _ _ hmark, hmeans'.type _ htype⟩
    rw [tokens_map, tokens_map, ← List.map_append, htokens, hmap]

namespace Spells

theorem respaced (h : Spells xs d isConst) (hr : List.Forall₂ Piece.Respaced xs ys)
    (hg : List.Forall₂ Piece.SameGap xs.tail ys.tail) (hw : TypeWords ys) :
    Spells ys d isConst := by
  obtain ⟨mark, e, m, t, htokens, hclear, hm, ht, hmark, htype⟩ := h.derived .start
  have ha := h.apart [] endsBefore_nil
  have hn := ha.nodup_tokensFrom .nil .start
  exact spells_of_derivation htokens hclear hm ht hmark htype ha hn hr hg hw

theorem behind {gap : List Char} (h : Spells xs d isConst) (hg : Layout.IsGap true gap) :
    Spells (lead gap xs) d isConst := by
  obtain ⟨hwords, hrespaced⟩ := h.words.behind hg
  refine h.respaced hrespaced ?_ hwords
  rw [tail_lead]
  exact List.forall₂_same.2 fun _ _ => Iff.rfl

/-- Single spaces for the layout between words do not change what the words spell. -/
theorem tidy (h : Spells xs d isConst) : Spells (xs.map Piece.tidy) d isConst := by
  refine h.respaced (forall₂_respaced_tidy h.words) ?_ h.words.tidy
  rw [← List.map_tail]
  exact forall₂_sameGap_tidy xs.tail

theorem parse_named (htokens : e.tokens = tokensFrom place xs) (hclear : e.Clear)
    (ht : e.kept = [t]) (htype : DenotesType t d) (hw : TypeWords xs) (ha : Apart xs rest)
    (hn : (tokensFrom place xs).Nodup) : parseRule .typeDecl (inner xs) = .ok (ofType d) := by
  have hrespaced := (hw.behind .nil).2
  obtain ⟨f, hf, hname, hmap⟩ := exists_replacement hn hrespaced .start
  obtain ⟨t', ht', hmeans⟩ := exists_kept_map ht hf hname
  obtain ⟨u, -, -, hkept, hpieces, -⟩ := kept_type (e.map f hf)
  obtain rfl := (List.cons.inj (hkept.symm.trans ht')).1
  have hapart : Apart (lead [] xs) [] := by
    refine ha.respaced hrespaced ?_ endsBefore_nil
    rw [tail_lead]
    exact List.forall₂_same.2 fun _ _ => Iff.rfl
  have hlaid : Laid .start (e.map f hf).tokens (inner xs) := by
    rw [tokens_map, htokens, hmap, ← weave_lead_nil]
    exact hapart.laid .nil .start
  have hread : StartRule.typeDecl.read (inner xs) = .ok u :=
    StartRule.read_of_laid (r := .typeDecl) (e.map f hf) (hclear.map hname) hpieces hlaid
  rw [parseRule_of_build hread (hmeans.type _ htype).build, settle_ofType]

/-- Words that spell a type are read as it, without the qualifier in front of them. -/
theorem parse_type (h : Spells xs d isConst) :
    ∃ mark x zs, xs = mark ++ x :: zs ∧
      mark.map Piece.terminal = (if isConst then [kwConst] else []) ∧
      (x.terminal = identifier ∨ x.terminal = matrixOpen) ∧
      parseRule .typeDecl (inner (x :: zs)) = .ok (ofType d) := by
  obtain ⟨mark, e, m, t, htokens, hclear, hm, ht, hmark, htype⟩ := h.derived .start
  have hall := h.apart [] endsBefore_nil
  have hnodup := hall.nodup_tokensFrom .nil .start
  obtain ⟨ys, zs, rfl, hys, hzs⟩ := tokensFrom_eq_append htokens.symm
  obtain ⟨-, v, vs, -, -, hv, hfirst⟩ := kept_type e
  rw [tokensFrom_append] at hnodup
  cases zs with
  | nil =>
    rw [hv] at hzs
    cases hzs
  | cons x zs =>
    refine ⟨ys, x, zs, rfl, ?_, ?_, ?_⟩
    · rw [← map_terminal_tokensFrom .start, hys]
      match mark with
      | .absent =>
        obtain rfl := (List.cons.inj hm).1
        cases hmark
        rfl
      | .present (.terminal k hk) =>
        obtain rfl := (List.cons.inj hm).1
        rw [Token.tree, hk] at hmark
        cases hmark
        exact congrArg (fun k => [k]) hk
    · rw [hv] at hzs
      obtain ⟨rfl, -⟩ := List.cons.inj hzs
      exact hfirst
    · exact parse_named hzs.symm hclear.2.2.1 ht htype
        (fun x hx => h.words x (List.mem_append_right ys hx)) hall.of_append.2
        (List.nodup_append.1 hnodup).2.1

theorem tidied_const {y x : Piece} {zs : List Piece} (h : Spells (y :: x :: zs) d isConst)
    (hy : y.terminal = kwConst) (hx : x.terminal = identifier ∨ x.terminal = matrixOpen) :
    tidied (y :: x :: zs) = "const ".toList ++ tidied (x :: zs) := by
  have hword : y.word = "const".toList := by
    refine eq_spelling (h.words y List.mem_cons_self).2.1 ?_
    rw [hy]
    rfl
  have hname : startsWith Ascii.isNameChar (x.word ++ weave zs []) = true := by
    have hm := (h.words x (List.mem_cons_of_mem y List.mem_cons_self)).2.1
    rcases hx with hx | hx
    · rw [hx] at hm
      obtain ⟨c, v, hv⟩ := List.exists_cons_of_ne_nil hm.ne_nil
      rw [hv] at hm ⊢
      exact Ascii.isNameChar_of_isNameStart hm.1
    · rw [hx] at hm
      obtain ⟨blanks, -, hv⟩ := hm
      rw [hv]
      rfl
  have hgap : x.gap ≠ [] := by
    intro hnil
    cases h.apart [] endsBefore_nil with
    | cons hg hm he hrest =>
      rw [hy] at he
      have hend : startsWith Ascii.isNameChar (x.gap ++ (x.word ++ weave zs [])) = false := he.1
      rw [hnil, List.nil_append, hname] at hend
      cases hend
  have htidy : y.tidy.word = "const".toList := by
    rw [Piece.tidy, hy, hword]
    rfl
  show y.tidy.word ++ (Layout.tidy x.gap ++ (x.tidy.word ++ weave (zs.map Piece.tidy) [])) = _
  rw [htidy, Layout.tidy_of_ne hgap]
  rfl

/-- The text of a type is kept in front with its qualifier, if it has one. The rest of the words is
read as the type, in the source and as it is kept. -/
theorem exists_named (h : Spells xs d isConst) :
    ∃ mark named, xs = mark ++ named ∧
      mark.map Piece.terminal = (if isConst then [kwConst] else []) ∧
      tidied xs = (if isConst then "const ".toList else []) ++ tidied named ∧
      parseRule .typeDecl (inner named) = .ok (ofType d) ∧
      parseRule .typeDecl (tidied named) = .ok (ofType d) := by
  obtain ⟨mark, x, zs, rfl, hmark, hfirst, hsource⟩ := h.parse_type
  obtain ⟨mark', x', zs', heq, hmark', -, hkept⟩ := h.tidy.parse_type
  have hlength : (mark.map Piece.tidy).length = mark'.length := by
    have hsame := congrArg List.length (hmark.trans hmark'.symm)
    rwa [List.length_map, List.length_map, ← List.length_map Piece.tidy] at hsame
  rw [List.map_append] at heq
  rw [← (List.append_inj heq hlength).2] at hkept
  refine ⟨mark, x :: zs, rfl, hmark, ?_, hsource, hkept⟩
  cases isConst with
  | false =>
    obtain rfl := List.map_eq_nil_iff.1 hmark
    rfl
  | true =>
    obtain ⟨y, rfl, hy⟩ := List.map_eq_singleton_iff.1 hmark
    exact h.tidied_const hy hfirst

/-- In a larger text words that spell a type leave a node with their tidied text. -/
theorem exists_spelling (h : Spells xs d isConst) (front behind : List Piece) (tail : List Char) :
    ∃ (s : DerivationTree (.rule .typeSpelling)) (node : Tree), s.Clear ∧
      s.tokens = tokensFrom (Position.start.advance (weave front [])) xs ∧ s.kept = [node] ∧
      DenotesSpelling (weave (front ++ (xs ++ behind)) tail) node (String.ofList (tidied xs)) d
        isConst := by
  obtain ⟨mark, e, m, t, htokens, hclear, hm, ht, hmark, htype⟩ :=
    h.derived (Position.start.advance (weave front []))
  obtain ⟨range, hrange⟩ : ∃ range, Range.ofTokens
      (tokensFrom (Position.start.advance (weave front [])) xs) = some range := by
    cases xs with
    | nil =>
      obtain ⟨-, v, vs, -, -, hv, -⟩ := kept_type e
      rw [(List.append_eq_nil_iff.1 htokens).2] at hv
      cases hv
    | cons x xs => exact ⟨_, Range.ofTokens_tokensFrom _ x xs⟩
  have hcover : Tree.cover (DerivationTree.seq mark e).pieces = some range := by
    rw [(DerivationTree.seq mark e).extends_pieces.cover_eq (extends_tokens _), ← hrange,
      ← htokens]
    rfl
  have hwritten : Layout.collapse (Build.slice (weave (front ++ (xs ++ behind)) tail) range) =
      tidied xs := by
    rw [slice_ofTokens hrange, collapse_inner h.words]
  refine ⟨.rule (.seq mark e), .node (.known .typeSpelling) (some range) [m, t], hclear, htokens,
    ?_, hwritten ▸ .spelling hmark htype⟩
  show [Tree.node _ (Tree.cover (DerivationTree.seq mark e).pieces) (mark.kept ++ e.kept)] = _
  rw [hcover, hm, ht]
  rfl

end Spells

end

end ClassLang
