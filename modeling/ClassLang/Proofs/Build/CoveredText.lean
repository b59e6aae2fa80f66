import ClassLang.Proofs.Build.MethodText

/-!
# Texts put together

A phrase covers a text if the text is made of words that derive the phrase wherever they stand. The
text of a sequence is put together from the texts of its parts, and the text of a list from those of
its items, as long as the words end where their texts meet and no name is taken for a keyword there.
What the whole leaves among the children of a node is what its parts leave. Main statements:
`Phrase.Covers.seq`, `Phrase.covers_separated` and `Phrase.Covers.read`.
-/

namespace ClassLang

open Terminal DerivationTree

/-! ### Texts that meet -/

/-- Whether every word ends in front of a text, if words end in front of what follows the text. -/
def Delimits (text : List Char) : Prop :=
  ∀ rest, (∀ k : Terminal, k.EndsBefore rest) → ∀ k : Terminal, k.EndsBefore (text ++ rest)

theorem delimits_nil : Delimits [] := fun _ h => h

theorem delimits_sign {c : Char} {cs : List Char} (hn : Ascii.isNameChar c = false)
    (hb : Blank.isMatrixBlank c = false) (hc : c ∉ ['<', '.', '*', ':']) : Delimits (c :: cs) :=
  fun _ _ _ => endsBefore_sign hn hb hc

/-- A space in front of a word delimits. -/
theorem delimits_spaced {k : Terminal} {w text : List Char} (hm : k.Matches w) (hw : w <+: text) :
    Delimits (' ' :: text) := by
  obtain ⟨cs, rfl⟩ := hw
  intro rest _ j
  rw [List.cons_append, List.append_assoc]
  exact endsBefore_spaced hm (cs ++ rest) j

namespace Phrase

variable {p q : Phrase} {k : Terminal}

/-- Whether no name at the start of a phrase is taken for a keyword because another phrase in front
of it ends in a property list. -/
def Joins (p q : Phrase) : Prop :=
  ∀ (d : DerivationTree p) (e : DerivationTree q), d.EndsInList → Avoids wordsBehindList e.tokens

theorem joins_terminal (hk : k ≠ identifier) : p.Joins (.terminal k) := by
  intro d e _
  match e with
  | .terminal t ht => exact Point.avoids_of_terminal ht hk

theorem joins_behind_terminal : (Phrase.terminal k).Joins q := by
  intro d e hl
  match d with
  | .terminal t ht => exact hl.elim

theorem joins_behind_mark : (maybe (.terminal k)).Joins q := by
  intro d e hl
  match d with
  | .absent => exact hl.elim
  | .present (.terminal t ht) => exact hl.elim

theorem joins_behind_snoc : (Phrase.seq p (.terminal k)).Joins q := by
  intro d e hl
  match d with
  | .seq d (.terminal t ht) =>
    rcases hl with hl | ⟨hnil, -⟩
    · exact hl.elim
    · cases hnil

/-- Further items of a list start with a comma. -/
theorem joins_moreItems : p.Joins (.many (.seq (.terminal comma) q)) := by
  intro d e _
  match e with
  | .none => exact Point.avoids_nil
  | .more (.seq (.terminal t ht) _) _ => exact Point.avoids_of_terminal ht (by decide)

/-! ### Texts of phrases -/

/-- Whether some trees are a single one, with some property. -/
def Single (P : Tree → Prop) (ts : List Tree) : Prop := ∃ t, ts = [t] ∧ P t

/-- Whether a text is made of words that derive a phrase wherever they stand, and that leave trees
with some property among the children of a node. -/
def Covers (p : Phrase) (text : List Char) (P : List Tree → Prop) : Prop :=
  ∃ xs, weave xs [] = text ∧ (∀ rest, (∀ k : Terminal, k.EndsBefore rest) → Apart xs rest) ∧
    ∀ place, ∃ d : DerivationTree p, d.tokens = tokensFrom place xs ∧ d.Clear ∧ P d.kept

variable {text text' : List Char} {P Q : List Tree → Prop}

theorem covers_terminal {w : List Char} (hm : k.Matches w) : (Phrase.terminal k).Covers w fun ts =>
    ∃ range, ts = bif k.isPunctuation then [] else [.token (.known k) (String.ofList w) range] :=
  ⟨[⟨[], k, w⟩], List.append_nil w, fun _ hends => .cons .nil hm (hends k) .nil,
    fun place => ⟨.terminal (Piece.token place ⟨[], k, w⟩) rfl, rfl, trivial, _, rfl⟩⟩

theorem covers_absent : (maybe p).Covers [] (· = [.absent]) :=
  ⟨[], rfl, fun _ _ => .nil, fun _ => ⟨.absent, rfl, trivial, rfl⟩⟩

theorem covers_none : (many p).Covers [] (· = []) :=
  ⟨[], rfl, fun _ _ => .nil, fun _ => ⟨.none, rfl, trivial, rfl⟩⟩

namespace Covers

/-- A derivation may be turned into one of another phrase with the same tokens. -/
theorem map (h : p.Covers text P) (f : DerivationTree p → DerivationTree q)
    (hf : ∀ d, (f d).tokens = d.tokens ∧ (d.Clear → (f d).Clear) ∧ (P d.kept → Q (f d).kept)) :
    q.Covers text Q := by
  obtain ⟨xs, htext, hapart, hderived⟩ := h
  refine ⟨xs, htext, hapart, fun place => ?_⟩
  obtain ⟨d, htokens, hclear, hd⟩ := hderived place
  obtain ⟨htokens', hclear', hd'⟩ := hf d
  exact ⟨f d, htokens'.trans htokens, hclear' hclear, hd' hd⟩

theorem imp (h : p.Covers text P) (hpq : ∀ ts, P ts → Q ts) : p.Covers text Q :=
  h.map id fun d => ⟨rfl, id, hpq d.kept⟩

theorem present (h : p.Covers text P) : (maybe p).Covers text P :=
  h.map .present fun _ => ⟨rfl, id, id⟩

/-- The text of a rule whose mark is told from what it leaves. -/
theorem marked {r : Rule} (h : r.phrase.Covers text P)
    (hr : ∀ d : DerivationTree r.phrase, P d.kept → Avoids (marks r) d.tokens) :
    (Phrase.rule r).Covers text fun ts =>
      ∃ range us, ts = [.node (.known r) range us] ∧ P us := by
  obtain ⟨xs, htext, hapart, hderived⟩ := h
  refine ⟨xs, htext, hapart, fun place => ?_⟩
  obtain ⟨d, htokens, hclear, hd⟩ := hderived place
  exact ⟨.rule d, htokens, ⟨hr d hd, hclear⟩, _, _, rfl, hd⟩

theorem rule {r : Rule} (h : r.phrase.Covers text P) (hr : marks r = []) :
    (Phrase.rule r).Covers text fun ts =>
      ∃ range us, ts = [.node (.known r) range us] ∧ P us := by
  refine h.marked fun d _ => ?_
  rw [hr]
  exact fun _ _ _ => List.not_mem_nil

/-- A space may stand in front of a text. -/
theorem spaced (h : p.Covers text P) (hne : text ≠ []) : p.Covers (' ' :: text) P := by
  obtain ⟨xs, rfl, hapart, hderived⟩ := h
  cases xs with
  | nil => exact absurd rfl hne
  | cons x xs =>
    refine ⟨⟨' ' :: x.gap, x.terminal, x.word⟩ :: xs, rfl, ?_, fun place => ?_⟩
    · intro rest hends
      cases hapart rest hends with
      | cons hg hm he h => exact .cons (.blank rfl hg) hm he h
    · obtain ⟨d, htokens, hd⟩ := hderived (place.advance [' '])
      exact ⟨d, htokens, hd⟩

/-- The texts of two phrases that follow one another. -/
theorem seq (h : p.Covers text P) (h' : q.Covers text' Q) (hj : p.Joins q)
    (hd : text ≠ [] → Delimits text') : (Phrase.seq p q).Covers (text ++ text') fun ts =>
      ∃ us vs, ts = us ++ vs ∧ P us ∧ Q vs := by
  obtain ⟨xs, rfl, hxs, hderived⟩ := h
  obtain ⟨ys, rfl, hys, hderived'⟩ := h'
  refine ⟨xs ++ ys, ?_, ?_, fun place => ?_⟩
  · rw [weave_append, ← weave_tail, List.nil_append]
  · intro rest hends
    refine Apart.append ?_ (hys rest hends)
    cases xs with
    | nil => exact .nil
    | cons x xs =>
      have hne : weave (x :: xs) [] ≠ [] := by
        cases hxs [] endsBefore_nil with
        | cons _ hm _ _ =>
          exact List.append_ne_nil_of_right_ne_nil _ (List.append_ne_nil_of_left_ne_nil hm.ne_nil _)
      have hbetween := hd hne rest hends
      rw [← weave_tail, List.nil_append] at hbetween
      exact hxs _ hbetween
  · obtain ⟨d, hdtokens, hdclear, hp⟩ := hderived place
    obtain ⟨e, hetokens, heclear, hq⟩ := hderived' (place.advance (weave xs []))
    refine ⟨.seq d e, ?_, ⟨hdclear, heclear, hj d e⟩, _, _, rfl, hp, hq⟩
    rw [tokens, hdtokens, hetokens, tokensFrom_append]

/-- A sign behind a text leaves nothing. -/
theorem snoc (h : p.Covers text P) (h' : (Phrase.terminal k).Covers text' (· = []))
    (hk : k ≠ identifier) (hd : Delimits text') :
    (Phrase.seq p (.terminal k)).Covers (text ++ text') P := by
  refine (h.seq h' (joins_terminal hk) fun _ => hd).imp ?_
  rintro _ ⟨us, _, rfl, hus, rfl⟩
  rwa [List.append_nil]

/-- A sign in front of a text leaves nothing, and any text may touch it. -/
theorem behind_sign {w : List Char} (h : p.Covers text P) (hk : k.isPunctuation = true)
    (hm : k.Matches w) (he : ∀ rest, k.EndsBefore rest) :
    (Phrase.seq (.terminal k) p).Covers (w ++ text) P := by
  obtain ⟨xs, rfl, hapart, hderived⟩ := h
  refine ⟨⟨[], k, w⟩ :: xs, rfl, fun rest hends => .cons .nil hm (he _) (hapart rest hends),
    fun place => ?_⟩
  obtain ⟨d, htokens, hclear, hd⟩ := hderived (Piece.token place ⟨[], k, w⟩).range.stop
  refine ⟨.seq (.terminal (Piece.token place ⟨[], k, w⟩) rfl) d, ?_, ⟨trivial, hclear, False.elim⟩,
    ?_⟩
  · rw [tokens, htokens]
    rfl
  · show P ((bif k.isPunctuation then [] else _) ++ d.kept)
    rw [hk]
    exact hd

theorem more (h : p.Covers text P) (h' : (many p).Covers text' Q) (hj : p.Joins (many p))
    (hd : text ≠ [] → Delimits text') : (many p).Covers (text ++ text') fun ts =>
      ∃ us vs, ts = us ++ vs ∧ P us ∧ Q vs := by
  refine (h.seq h' hj hd).map (fun | .seq d e => .more d e) fun d => ?_
  match d with
  | .seq d e => exact ⟨rfl, id, id⟩

/-- A text that a start rule covers is read, to the tree that it leaves. -/
theorem read {r : StartRule} (h : r.phrase.Covers text P) :
    ∃ tree, r.read text = .ok tree ∧ P [tree] := by
  obtain ⟨xs, rfl, hapart, hderived⟩ := h
  obtain ⟨d, htokens, hclear, hd⟩ := hderived .start
  obtain ⟨tree, _, hpieces, -⟩ := r.leads d hclear
  have hlaid : Laid .start d.tokens (weave xs []) := by
    rw [htokens]
    exact (hapart [] endsBefore_nil).laid .nil .start
  exact ⟨tree, StartRule.read_of_laid d hclear hpieces hlaid, kept_of_pieces d hpieces ▸ hd⟩

end Covers

theorem covers_sign {w : List Char} (hk : k.isPunctuation = true) (hm : k.Matches w) :
    (Phrase.terminal k).Covers w (· = []) := by
  refine (covers_terminal hm).imp ?_
  rintro _ ⟨range, rfl⟩
  rw [hk]
  rfl

/-! ### Lists with separators -/

section

variable {α : Type} {R : Tree → α → Prop} {written : α → List Char} {as : List α}

theorem delimits_moreItems : Delimits (as.flatMap fun a => ',' :: ' ' :: written a) := by
  cases as with
  | nil => exact delimits_nil
  | cons a as => exact delimits_sign rfl rfl (by decide)

/-- Items behind others, each behind a comma and a space. -/
theorem covers_moreItems
    (h : ∀ a ∈ as, written a ≠ [] ∧ p.Covers (written a) (Single (R · a))) :
    (many (.seq (.terminal comma) p)).Covers (as.flatMap fun a => ',' :: ' ' :: written a)
      fun ts => List.Forall₂ R ts as := by
  induction as with
  | nil => exact covers_none.imp fun _ hts => hts ▸ .nil
  | cons a as ih =>
    obtain ⟨⟨hne, ha⟩, has⟩ := List.forall_mem_cons.1 h
    have hitem := (ha.spaced hne).behind_sign (k := comma) (w := [',']) rfl rfl fun _ => trivial
    refine (hitem.more (ih has) joins_moreItems fun _ => delimits_moreItems).imp ?_
    rintro _ ⟨_, vs, rfl, ⟨t, rfl, ht⟩, hvs⟩
    exact .cons ht hvs

theorem intercalate_cons (a : α) (as : List α) : ", ".toList.intercalate ((a :: as).map written) =
    written a ++ as.flatMap fun a => ',' :: ' ' :: written a := by
  induction as generalizing a with
  | nil => rw [List.map_singleton, List.intercalate_singleton, List.flatMap_nil, List.append_nil]
  | cons b as ih =>
    rw [List.map_cons, List.map_cons, List.intercalate_cons_cons, ← List.map_cons, ih,
      List.append_assoc]
    rfl

/-- The text of a list, with a comma and a space between its items. -/
theorem covers_separated (hne : as ≠ [])
    (h : ∀ a ∈ as, written a ≠ [] ∧ p.Covers (written a) (Single (R · a))) :
    (separated p).Covers (", ".toList.intercalate (as.map written)) fun ts =>
      List.Forall₂ R ts as := by
  obtain ⟨a, as, rfl⟩ := List.exists_cons_of_ne_nil hne
  obtain ⟨⟨-, ha⟩, has⟩ := List.forall_mem_cons.1 h
  rw [intercalate_cons]
  refine (ha.seq (covers_moreItems has) joins_moreItems fun _ => delimits_moreItems).imp ?_
  rintro _ ⟨_, vs, rfl, ⟨t, rfl, ht⟩, hvs⟩
  exact .cons ht hvs

end

end Phrase

end ClassLang
