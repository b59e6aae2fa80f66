import ClassLang.Syntax.Grammar

/-!
# Derivations from left to right

Reading meets the parts of a phrase from left to right, so a derivation grows at its end. Sequences
may be bracketed either way, and items that each end with a separator are, with one more item, items
with separators between them. `Follows` puts a derivation behind tokens that meet a condition.
-/

namespace ClassLang

/-! ### Derivations that grow at their end -/

namespace Derives

variable {p q : Phrase} {ts us : List Token} {ps qs : List Tree}

theorem seq_inv (h : Derives (p ++ q) ts ps) :
    ∃ us vs as bs, Derives p us as ∧ Derives q vs bs ∧ ts = us ++ vs ∧ ps = as ++ bs := by
  cases h with
  | seq hp hq => exact ⟨_, _, _, _, hp, hq, rfl, rfl⟩

theorem append (hp : Derives p ts ps) (hq : Derives q us qs) :
    Derives (p ++ q) (ts ++ us) (ps ++ qs) := .seq hp hq

theorem assoc_seq {o : Phrase} (h : Derives (o ++ p ++ q) ts ps) :
    Derives (o ++ (p ++ q)) ts ps := by
  obtain ⟨_, _, _, _, hop, hq, rfl, rfl⟩ := h.seq_inv
  obtain ⟨_, _, _, _, ho, hp, rfl, rfl⟩ := hop.seq_inv
  rw [List.append_assoc, List.append_assoc]
  exact ho.append (hp.append hq)

theorem with_initial (h : Derives (p ++ Terminal.equals ++ Rule.value) ts ps) :
    Derives (p ++ .initial) ts ps := by
  obtain ⟨_, _, _, _, hp, hv, rfl, rfl⟩ := h.assoc_seq.seq_inv
  exact hp.append (.present hv)

/-- Items that each end with a separator, and a last one, are items with separators between. -/
theorem many_shift (h : Derives (.many (p ++ q) ++ p) ts ps) :
    Derives (p ++ .many (q ++ p)) ts ps := by
  obtain ⟨us, vs, as, bs, hm, hlast, rfl, rfl⟩ := h.seq_inv
  generalize hphrase : Phrase.many (p ++ q) = m at hm
  induction hm with
  | none =>
    have hnone := hlast.append (q := .many (q ++ p)) .none
    rwa [List.append_nil, List.append_nil] at hnone
  | more hp hq _ ih =>
    obtain rfl := Phrase.many.inj hphrase
    obtain ⟨_, _, _, _, hitem, hmark, rfl, rfl⟩ := hp.seq_inv
    obtain ⟨_, _, _, _, hfirst, hrest, he, he'⟩ := (ih (hq.append hlast) rfl).seq_inv
    have hall := hitem.append (.more (hmark.append hfirst) hrest)
    simp only [List.append_assoc] at hall ⊢
    rw [he, he']
    exact hall
  | _ => cases hphrase

end Derives

/-! ### Conditions on tokens -/

/-- Tokens that meet a condition, with tokens behind them that derive the given pieces. -/
def Follows (before : List Token → Prop) (p : Phrase) (ps : List Tree) (ts : List Token) : Prop :=
  ∃ us vs, ts = us ++ vs ∧ before us ∧ Derives p vs ps

/-- No tokens yet of a text that is read as a rule. -/
def Begun (r s : StartRule) (ts : List Token) : Prop := r = s ∧ ts = []

namespace Follows

variable {before : List Token → Prop} {p q : Phrase} {ps qs : List Tree} {ts us : List Token}

theorem map (f : ∀ {vs}, Derives p vs ps → Derives q vs qs) (h : Follows before p ps ts) :
    Follows before q qs ts := by
  obtain ⟨us, vs, e, hb, hd⟩ := h
  exact ⟨us, vs, e, hb, f hd⟩

theorem append (h : Follows before p ps ts) (hd : Derives q us qs) :
    Follows before (p ++ q) (ps ++ qs) (ts ++ us) := by
  obtain ⟨ts, vs, rfl, hb, hp⟩ := h
  exact ⟨ts, vs ++ us, List.append_assoc _ _ _, hb, hp.append hd⟩

theorem token {k : Terminal} {t : Token} (h : Follows before p ps ts) (ht : t.terminal = k) :
    Follows before (p ++ k) (ps ++ [t.tree]) (ts ++ [t]) :=
  ht ▸ h.append (.terminal t)

theorem first {k : Terminal} {t : Token} (h : before ts) (ht : t.terminal = k) :
    Follows before k [t.tree] (ts ++ [t]) :=
  ht ▸ ⟨ts, [t], rfl, h, .terminal t⟩

theorem empty (h : before ts) (hd : Derives p [] ps) : Follows before p ps ts :=
  ⟨ts, [], (List.append_nil ts).symm, h, hd⟩

theorem none (h : Follows before p ps ts) : Follows before (p ++ .many q) ps ts := by
  have hnone := h.append (q := .many q) .none
  rwa [List.append_nil, List.append_nil] at hnone

theorem absent (h : Follows before p ps ts) :
    Follows before (p ++ .maybe q) (ps ++ [.absent]) ts := by
  have habsent := h.append (q := .maybe q) .absent
  rwa [List.append_nil] at habsent

theorem pieces (h : Follows before p ps ts) (e : ps = qs) : Follows before p qs ts := e ▸ h

theorem join (h : Follows (Follows before p ps) q qs ts) :
    Follows before (p ++ q) (ps ++ qs) ts := by
  obtain ⟨us, vs, rfl, h, hd⟩ := h
  exact h.append hd

theorem rule {k : Rule} (h : Follows before k.phrase ps ts) :
    Follows before k [Tree.close k ps] ts :=
  h.map .rule

theorem snoc (h : Follows (Follows before (.many p) ps) p qs ts) :
    Follows before (.many p) (ps ++ qs) ts := by
  obtain ⟨us, vs, rfl, ⟨us, ws, rfl, hb, hm⟩, hd⟩ := h
  exact ⟨us, ws ++ vs, List.append_assoc _ _ _, hb, hm.many_snoc hd⟩

theorem begun {r s : StartRule} (h : Follows (Begun r s) p ps ts) : Derives p ts ps := by
  obtain ⟨us, vs, rfl, ⟨-, rfl⟩, hd⟩ := h
  exact hd

theorem begun_eq {r s : StartRule} (h : Follows (Begun r s) p ps ts) : r = s := by
  obtain ⟨us, vs, rfl, ⟨he, -⟩, hd⟩ := h
  exact he

end Follows

end ClassLang
