import ClassLang.Proofs.Syntax.Clear

/-!
# Texts that are read are laid out

A text that is read is laid out from the tokens of a clear derivation, so no lexeme in it is told
from the next one by what is looked for in its place. The one exception is the word `class`, which
is taken off the front of a longer word between the classes of a unit. Main statements:
`StartRule.exists_laid` for the rules without classes, and its converse `StartRule.read_of_laid`.
-/

namespace ClassLang

open Terminal

/-! ### What else is looked for beside a terminal -/

namespace Point

variable {p : Point}

theorem identifier_mem_accepts {k : Terminal} (h : k ∈ p.accepts)
    (hk : k = kwStatic ∨ k = kwConst ∨ k = kwMeta) : identifier ∈ p.accepts := by
  cases p with
  | body ps c =>
    cases c <;> simp [accepts, declarationStarts, memberStarts, spellingStarts, typeStarts]
  | typeName ps c =>
    cases c <;> rcases hk with rfl | rfl | rfl <;> simp [accepts, typeSuffixes, typeEnds] at h ⊢
  | suffix inner c =>
    cases c <;> rcases hk with rfl | rfl | rfl <;> simp [accepts, typeSuffixes, typeEnds] at h ⊢
  | memberName ps c =>
    cases c <;> rcases hk with rfl | rfl | rfl <;>
      simp [accepts, MemberContext.allowsField, MemberContext.allowsMethod] at h
  | propertyHead ps c => cases c <;> rcases hk with rfl | rfl | rfl <;> simp [accepts] at h
  | _ =>
    rcases hk with rfl | rfl | rfl <;>
      simp [accepts, listFollowers, declarationStarts, memberStarts, spellingStarts, typeStarts,
        literals] at h ⊢

theorem doubleStar_mem_accepts (h : star ∈ p.accepts) : doubleStar ∈ p.accepts := by
  cases p with
  | body ps c =>
    cases c <;> simp [accepts, declarationStarts, memberStarts, spellingStarts, typeStarts] at h
  | typeName ps c => simp [accepts, typeSuffixes]
  | suffix inner c => simp [accepts, typeSuffixes]
  | memberName ps c =>
    cases c <;> simp [accepts, MemberContext.allowsField, MemberContext.allowsMethod] at h
  | propertyHead ps c => cases c <;> simp [accepts] at h
  | _ =>
    simp [accepts, listFollowers, declarationStarts, memberStarts, spellingStarts, typeStarts,
      literals] at h

theorem eq_value_of_mem {k : Terminal} (h : k ∈ p.accepts) (hk : k = bool ∨ k = kwNullptr) :
    ∃ c, p = value c := by
  cases p with
  | value c => exact ⟨c, rfl⟩
  | body ps c =>
    cases c <;> rcases hk with rfl | rfl <;>
      simp [accepts, declarationStarts, memberStarts, spellingStarts, typeStarts] at h
  | typeName ps c =>
    cases c <;> rcases hk with rfl | rfl <;> simp [accepts, typeSuffixes, typeEnds] at h
  | suffix inner c =>
    cases c <;> rcases hk with rfl | rfl <;> simp [accepts, typeSuffixes, typeEnds] at h
  | memberName ps c =>
    cases c <;> rcases hk with rfl | rfl <;>
      simp [accepts, MemberContext.allowsField, MemberContext.allowsMethod] at h
  | propertyHead ps c => cases c <;> rcases hk with rfl | rfl <;> simp [accepts] at h
  | _ =>
    rcases hk with rfl | rfl <;>
      simp [accepts, listFollowers, declarationStarts, memberStarts, spellingStarts,
        typeStarts] at h

theorem eq_classHead_of_mem (h : colon ∈ p.accepts) : ∃ ps c, p = classHead ps c := by
  cases p with
  | classHead ps c => exact ⟨ps, c, rfl⟩
  | body ps c =>
    cases c <;> simp [accepts, declarationStarts, memberStarts, spellingStarts, typeStarts] at h
  | typeName ps c => cases c <;> simp [accepts, typeSuffixes, typeEnds] at h
  | suffix inner c => cases c <;> simp [accepts, typeSuffixes, typeEnds] at h
  | memberName ps c =>
    cases c <;> simp [accepts, MemberContext.allowsField, MemberContext.allowsMethod] at h
  | propertyHead ps c => cases c <;> simp [accepts] at h
  | _ =>
    simp [accepts, listFollowers, declarationStarts, memberStarts, spellingStarts, typeStarts,
      literals] at h

/-- What follows a value is a sign. -/
theorem spelling_of_mem_endValue {tree : Tree} {c : ValueContext} {k : Terminal}
    (h : k ∈ (endValue tree c).accepts) : ∃ s ∈ [";", ",", "]", ")"], k.spelling? = some s := by
  cases c with
  | alone => cases h
  | ofProperty ps outer =>
    cases outer with
    | alone => cases h
    | inList before outer =>
      simp only [endValue, endProperty, accepts, List.mem_cons, List.not_mem_nil, or_false] at h
      rcases h with rfl | rfl <;> simp [spelling?]
  | ofField ps outer =>
    simp only [endValue, accepts, List.mem_singleton] at h
    subst h
    simp [spelling?]
  | ofArgument ps outer =>
    simp only [endValue, endArgument, accepts, List.mem_cons, List.not_mem_nil, or_false] at h
    rcases h with rfl | rfl <;> simp [spelling?]

end Point

/-! ### Where lexemes end on a trail -/

theorem Laid.piece {p : Position} {x : Piece} {ts : List Token} {rest : List Char}
    (hg : Layout.IsGap true x.gap) (hm : x.terminal.Matches x.word)
    (he : x.terminal.EndsBefore rest) (h : Laid (x.token p).range.stop ts rest) :
    Laid p (x.token p :: ts) (x.gap ++ (x.word ++ rest)) := by
  have hword : (x.token p).text.toList = x.word := String.toList_ofList
  have hlaid : Laid p (x.token p :: ts) (x.gap ++ ((x.token p).text.toList ++ rest)) :=
    .cons hg (by rw [hword]; rfl) (by rw [hword]; exact hm) he h
  rwa [hword] at hlaid

namespace Trail

variable {p q s : Point} {place : Position} {x : Piece} {xs : List Piece} {tail : List Char}

theorem leads (h : Trail p place xs tail q) : p.Leads (tokensFrom place xs) q := by
  induction h with
  | nil => exact .nil
  | cons _ _ _ ht hs _ ih => exact .cons ht hs ih

/-- What a trail starts with, apart from layout, starts a terminal that is looked for. -/
theorem startsWith_weave {f : Char → Bool} (h : Trail p place xs tail q)
    (hf : ∀ c, Blank.isLayout c = true → f c = false) (hslash : f '/' = false)
    (hw : ∀ k w, k ∈ p.accepts → k.Matches w → startsWith f w = false) :
    startsWith f (weave xs tail) = false := by
  cases h with
  | nil hg => exact hg.startsWith hf hslash
  | @cons _ _ _ _ x xs _ hg hm _ _ hs _ =>
    have hword : startsWith f (x.word ++ weave xs tail) = false := by
      rw [startsWith_of_ne_nil hm.ne_nil]
      exact hw _ _ (Point.mem_accepts hs) hm
    exact startsWith_append (hg.startsWith hf hslash) hword

theorem layout_not_nameChar {c : Char} (h : Blank.isLayout c = true) :
    Ascii.isNameChar c = false := by
  simp only [Blank.isLayout, Bool.or_eq_true, decide_eq_true_eq] at h
  rcases h with (((rfl | rfl) | rfl) | rfl) | rfl <;> rfl

/-- Behind a value no word follows. -/
theorem startsWith_behind_value {tree : Tree} {c : ValueContext}
    (h : Trail (Point.endValue tree c) place xs tail q) :
    startsWith Ascii.isNameChar (weave xs tail) = false := by
  refine h.startsWith_weave (fun _ => layout_not_nameChar) rfl ?_
  intro k w hk hm
  obtain ⟨sign, hsign, hspelling⟩ := Point.spelling_of_mem_endValue hk
  have hsigns : ∀ s ∈ [";", ",", "]", ")"], startsWith Ascii.isNameChar s.toList = false := by
    decide
  rw [eq_spelling hm hspelling]
  exact hsigns sign hsign

theorem startsWith_behind_colon {ps qs : List Tree} {c : ClassContext}
    (h : Trail (.base ps qs c) place xs tail q) : startsWith (· = ':') (weave xs tail) = false := by
  refine h.startsWith_weave ?_ rfl ?_
  · intro d hd
    refine decide_eq_false ?_
    rintro rfl
    cases hd
  · intro k w hk hm
    obtain rfl := List.mem_singleton.1 hk
    cases w with
    | nil => rfl
    | cons d w =>
      refine decide_eq_false ?_
      rintro rfl
      cases hm.1

/-- A lexeme on a trail ends where it would end anywhere, if it is not the word `class`. -/
theorem endsBefore (hs : p.step (x.token place) = some q)
    (hc : startsWith (x.terminal.carriesOn p.accepts) (weave xs tail) = false)
    (hk : x.terminal ≠ kwClass) (h : Trail q (x.token place).range.stop xs tail s) :
    x.terminal.EndsBefore (weave xs tail) := by
  have hmem : x.terminal ∈ p.accepts := Point.mem_accepts hs
  have hangle : Scan.angle (weave xs tail) = none := by
    have hend : Scan.angle (weave xs tail ++ []) = none := h.angle fun _ => rfl
    rwa [List.append_nil] at hend
  have hterminal : (x.token place).terminal = x.terminal := rfl
  generalize x.token place = t at hs hterminal
  obtain ⟨gap, k, word⟩ := x
  simp only at *
  have hvalue : k = bool ∨ k = kwNullptr → startsWith Ascii.isNameChar (weave xs tail) = false := by
    intro hor
    obtain ⟨c, rfl⟩ := Point.eq_value_of_mem hmem hor
    simp only [Point.step] at hs
    split at hs
    · obtain rfl := Option.some.inj hs
      exact h.startsWith_behind_value
    · cases hs
  have hword : k = kwStatic ∨ k = kwConst ∨ k = kwMeta →
      startsWith Ascii.isNameChar (weave xs tail) = false := by
    intro hor
    have hkey : k = identifier ∨ k.isKeyword = true := by
      rcases hor with rfl | rfl | rfl <;> exact Or.inr rfl
    rwa [carriesOn_word (Point.identifier_mem_accepts hmem hor) hkey] at hc
  cases k with
  | kwClass => exact absurd rfl hk
  | kwStatic => exact ⟨hword (Or.inl rfl), hangle⟩
  | kwConst => exact ⟨hword (Or.inr (Or.inl rfl)), hangle⟩
  | kwMeta => exact ⟨hword (Or.inr (Or.inr rfl)), hangle⟩
  | kwNullptr => exact ⟨hvalue (Or.inr rfl), hangle⟩
  | bool => exact ⟨hvalue (Or.inl rfl), hangle⟩
  | identifier => exact ⟨hc, hangle⟩
  | float => exact hc
  | integer => exact ⟨hc, h.startsWith_point⟩
  | star =>
    have hdouble : p.accepts.contains doubleStar = true :=
      List.contains_iff_mem.2 (Point.doubleStar_mem_accepts hmem)
    have hcarries : carriesOn p.accepts star = fun c => decide (c = '*') := by
      funext c
      rw [carriesOn, hdouble, Bool.true_and]
    rwa [hcarries] at hc
  | colon =>
    obtain ⟨ps, c, rfl⟩ := Point.eq_classHead_of_mem hmem
    simp only [Point.step, hterminal, Option.some.injEq] at hs
    subst hs
    exact h.startsWith_behind_colon
  | _ => trivial

end Trail

/-- Pieces in front of a text, each of whose words ends where what follows it begins, whatever is
looked for. -/
inductive Apart : List Piece → List Char → Prop
  | nil {rest : List Char} : Apart [] rest
  | cons {x : Piece} {xs : List Piece} {rest : List Char} (hg : Layout.IsGap true x.gap)
      (hm : x.terminal.Matches x.word) (he : x.terminal.EndsBefore (weave xs rest))
      (h : Apart xs rest) : Apart (x :: xs) rest

namespace Apart

variable {xs ys : List Piece} {rest : List Char}

theorem append (h : Apart xs (weave ys rest)) (h' : Apart ys rest) : Apart (xs ++ ys) rest := by
  induction xs with
  | nil => exact h'
  | cons x xs ih =>
    cases h with
    | cons hg hm he h => exact .cons hg hm (weave_append xs ys rest ▸ he) (ih h)

theorem of_append (h : Apart (xs ++ ys) rest) : Apart xs (weave ys rest) ∧ Apart ys rest := by
  induction xs with
  | nil => exact ⟨.nil, h⟩
  | cons x xs ih =>
    cases h with
    | cons hg hm he h =>
      obtain ⟨hxs, hys⟩ := ih h
      exact ⟨.cons hg hm (weave_append xs ys rest ▸ he) hxs, hys⟩

theorem laid (h : Apart xs rest) (hr : Layout.IsGap false rest) (place : Position) :
    Laid place (tokensFrom place xs) (weave xs rest) := by
  induction h generalizing place with
  | nil => exact .nil hr
  | cons hg hm he _ ih => exact .piece hg hm he (ih hr _)

theorem spread (h : Apart xs rest) (hr : Layout.IsGap false rest) (place : Position) :
    Spread place (tokensFrom place xs) (weave xs rest) := by
  induction h generalizing place with
  | nil => exact .nil hr
  | cons hg hm _ _ ih => exact .cons hg rfl rfl hm (ih hr _)

end Apart

namespace Trail

variable {p q : Point} {place : Position} {xs : List Piece} {tail : List Char}

/-- The pieces of a trail without the word `class` are apart. -/
theorem apart (h : Trail p place xs tail q) (hk : ∀ x ∈ xs, x.terminal ≠ kwClass) :
    Apart xs tail := by
  induction h with
  | nil hg => exact .nil
  | @cons p q s place x xs tail hg hm hc ht hs h ih =>
    have hrest := ih fun y hy => hk y (List.mem_cons_of_mem x hy)
    exact .cons hg hm (endsBefore hs hc (hk x List.mem_cons_self) h) hrest

end Trail

/-! ### Rules without classes -/

/-- Whether no class stands in a rule. -/
def Rule.isClassless : Rule → Bool
  | unit => false
  | classDecl => false
  | _ => true

/-- Whether no class stands in a phrase. -/
def Phrase.isClassless : Phrase → Bool
  | terminal t => t ≠ .kwClass
  | rule r => r.isClassless
  | type => true
  | seq p q => p.isClassless && q.isClassless
  | either p q => p.isClassless && q.isClassless
  | maybe p => p.isClassless
  | many p => p.isClassless

theorem Rule.isClassless_phrase {r : Rule} (h : r.isClassless = true) :
    r.phrase.isClassless = true := by
  cases r <;> first | rfl | cases h

theorem DerivationTree.ne_kwClass {p : Phrase} (d : DerivationTree p) (h : p.isClassless = true) :
    ∀ t ∈ d.tokens, t.terminal ≠ kwClass := by
  induction d with
  | terminal t ht =>
    intro u hu
    rw [List.mem_singleton.1 hu, ht]
    exact of_decide_eq_true h
  | rule d ih => exact ih (Rule.isClassless_phrase h)
  | type d ih => exact ih rfl
  | seq d e ihd ihe =>
    obtain ⟨hd, he⟩ := Bool.and_eq_true_iff.1 h
    exact List.forall_mem_append.2 ⟨ihd hd, ihe he⟩
  | left d ih => exact ih (Bool.and_eq_true_iff.1 h).1
  | right d ih => exact ih (Bool.and_eq_true_iff.1 h).2
  | absent => exact nofun
  | present d ih => exact ih h
  | none => exact nofun
  | more d e ihd ihe => exact List.forall_mem_append.2 ⟨ihd h, ihe h⟩

namespace StartRule

variable {r : StartRule} {text : List Char} {tree : Tree}

/-- The tokens of a text that is read are those of a clear derivation of its tree. -/
theorem exists_clear (h : r.read text = .ok tree) :
    ∃ d : DerivationTree r.phrase, d.Clear ∧ d.pieces = [tree] ∧
      d.tokens = tokensFrom .start (r.reading text).pieces.1 := by
  obtain ⟨q, htrail, hfinish⟩ := trail_of_run _ h
  obtain ⟨d, htokens, hpieces⟩ := htrail.exists_derivationTree (r := r) hfinish
  have hleads : r.point.Leads d.tokens q := htokens ▸ htrail.leads
  exact ⟨d, clear_of_leads hleads, hpieces, htokens⟩

theorem ne_kwClass_of_read {d : DerivationTree r.phrase} (hr : r.phrase.isClassless = true)
    (hd : d.tokens = tokensFrom .start (r.reading text).pieces.1) :
    ∀ x ∈ (r.reading text).pieces.1, x.terminal ≠ kwClass := by
  exact forall_terminal_of_tokensFrom (f := (· ≠ kwClass)) (hd ▸ d.ne_kwClass hr)

theorem laid_of_read {d : DerivationTree r.phrase} (hr : r.phrase.isClassless = true)
    (h : r.read text = .ok tree) (hd : d.tokens = tokensFrom .start (r.reading text).pieces.1) :
    Laid .start d.tokens text := by
  obtain ⟨q, htrail, -⟩ := trail_of_run _ h
  have hlaid := (htrail.apart (ne_kwClass_of_read hr hd)).laid htrail.isGap_tail .start
  rw [Reading.weave_pieces] at hlaid
  exact hd ▸ hlaid

/-- A text that is read as a rule without classes is laid out from a clear derivation of its
tree. -/
theorem exists_laid (hr : r.phrase.isClassless = true) (h : r.read text = .ok tree) :
    ∃ d : DerivationTree r.phrase, d.Clear ∧ d.pieces = [tree] ∧ Laid .start d.tokens text := by
  obtain ⟨d, hclear, hpieces, htokens⟩ := exists_clear h
  exact ⟨d, hclear, hpieces, laid_of_read hr h htokens⟩

/-- A text that is laid out from a clear derivation is read to its tree. -/
theorem read_of_laid (d : DerivationTree r.phrase) (hd : d.Clear) (hp : d.pieces = [tree])
    (h : Laid .start d.tokens text) : r.read text = .ok tree := by
  obtain ⟨tree', q, hpieces, hleads, hfinish⟩ := r.leads d hd
  obtain rfl : tree' = tree := (List.cons.inj (hpieces.symm.trans hp)).1
  exact read_of_tokenize (tokenize_of_laid h hleads hfinish)

end StartRule

end ClassLang
