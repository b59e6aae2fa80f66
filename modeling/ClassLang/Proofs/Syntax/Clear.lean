import ClassLang.Proofs.Syntax.Outline
import ClassLang.Proofs.Syntax.Trail

/-!
# Only clear derivations are read

A name that stands where a keyword may is taken for the keyword if it is spelled like it, so the
derivation of a text that is read has no such name. That a keyword may stand in a place is seen by
putting it there: the derivation with the keyword in it is stepped over as well. Main statement:
`StartRule.clear_of_leads`, the converse of `StartRule.leads`.
-/

namespace ClassLang

open Terminal

namespace DerivationTree

/-! ### Derivations with a keyword put in -/

/-- Where a name stands that is a mark of its rule, the keyword may stand too. -/
theorem exists_marked {r : Rule} (d : DerivationTree r.phrase) {t : Token}
    (ht : t ∈ d.tokens.head?) (hi : t.terminal = identifier) (hm : t.text ∈ marks r) :
    ∃ (e : DerivationTree r.phrase) (k : Token) (ks : List Token), e.tokens = k :: ks ∧
      k.terminal.isKeyword = true ∧ k.terminal.spelling? = some t.text := by
  have hmark : ∀ {k : Terminal} {s : String}, k.isKeyword = true → k.spelling? = some s →
      t.text ∈ [s] → (Token.loose k s).terminal.isKeyword = true ∧
        (Token.loose k s).terminal.spelling? = some t.text := by
    intro k s hk hs hmem
    rw [List.mem_singleton.1 hmem]
    exact ⟨hk, hs⟩
  have hname : ∀ {k : Terminal} {u : Token} {us : List Token}, u.terminal = k →
      t ∈ (u :: us).head? → k = identifier := by
    rintro k u us rfl hu
    rw [← hi, Option.some.inj hu]
  cases r with
  | property =>
    match d with
    | .seq (.seq .absent n) i =>
      let k : Token := .loose kwMeta "meta"
      exact ⟨.seq (.seq (.present (.terminal k rfl)) n) i, k, _, rfl, hmark rfl rfl hm⟩
    | .seq (.seq (.present (.terminal k hk)) n) i => exact absurd (hname hk ht) nofun
  | fieldDecl =>
    match d with
    | .seq (.seq (.seq (.seq .absent s) n) i) e =>
      let k : Token := .loose kwStatic "static"
      exact ⟨.seq (.seq (.seq (.seq (.present (.terminal k rfl)) s) n) i) e, k, _, rfl,
        hmark rfl rfl hm⟩
    | .seq (.seq (.seq (.seq (.present (.terminal k hk)) s) n) i) e =>
      exact absurd (hname hk ht) nofun
  | methodDecl =>
    match d with
    | .seq (.seq (.seq (.seq (.seq (.seq .absent s) n) l) a) r) e =>
      let k : Token := .loose kwStatic "static"
      exact ⟨.seq (.seq (.seq (.seq (.seq (.seq (.present (.terminal k rfl)) s) n) l) a) r) e,
        k, _, rfl, hmark rfl rfl hm⟩
    | .seq (.seq (.seq (.seq (.seq (.seq (.present (.terminal k hk)) s) n) l) a) r) e =>
      exact absurd (hname hk ht) nofun
  | typeSpelling =>
    match d with
    | .seq .absent s =>
      let k : Token := .loose kwConst "const"
      exact ⟨.seq (.present (.terminal k rfl)) s, k, _, rfl, hmark rfl rfl hm⟩
    | .seq (.present (.terminal k hk)) s => exact absurd (hname hk ht) nofun
  | _ => cases hm

theorem exists_snoc {p : Phrase} (d : DerivationTree (.many p)) (e : DerivationTree p) :
    ∃ f : DerivationTree (.many p), f.tokens = d.tokens ++ e.tokens := by
  match d with
  | .none => exact ⟨.more e .none, List.append_nil _⟩
  | .more d rest =>
    obtain ⟨f, hf⟩ := exists_snoc rest e
    refine ⟨.more d f, ?_⟩
    rw [tokens, tokens, hf, List.append_assoc]
  termination_by d.size
  decreasing_by
    simp only [size]
    omega

/-- One more property of a list, with a comma in front of it. -/
def oneMore : DerivationTree (.seq (.terminal .comma) (.rule .property)) :=
  .seq (.terminal (.loose comma ",") rfl)
    (.rule (.seq (.seq .absent (.terminal (.loose identifier plainName) rfl)) .absent))

/-- Whether a property may be added at the end of some tokens, where a list is closed. -/
def Extensible {p : Phrase} (d : DerivationTree p) : Prop :=
  ∃ ts b, d.tokens = ts ++ [b] ∧ b.terminal = rightBracket ∧
    ∃ e : DerivationTree p, e.tokens = ts ++ (oneMore.tokens ++ [b])

theorem Extensible.map {p q : Phrase} {d : DerivationTree p} (h : d.Extensible)
    (front : List Token) (f : DerivationTree p → DerivationTree q)
    (hf : ∀ e, (f e).tokens = front ++ e.tokens) : (f d).Extensible := by
  obtain ⟨ts, b, hd, hb, e, he⟩ := h
  refine ⟨front ++ ts, b, ?_, hb, f e, ?_⟩
  · rw [hf, hd, List.append_assoc]
  · rw [hf, he, List.append_assoc]

/-- A property list at the end of a derivation takes one more property. -/
theorem extensible {p : Phrase} (d : DerivationTree p) (h : d.EndsInList) : d.Extensible := by
  have hlast : ∀ {q : Phrase} {e : DerivationTree q} {ts : List Token},
      e.tokens = [] → ts ++ e.tokens = [] ++ ts := by
    intro q e ts he
    rw [he, List.append_nil, List.nil_append]
  induction d with
  | terminal t ht => exact h.elim
  | rule d ih =>
    rcases h with rfl | h
    · match d with
      | .seq (.seq l (.seq first rest)) (.terminal b hb) =>
        obtain ⟨more, hmore⟩ := exists_snoc rest oneMore
        refine ⟨l.tokens ++ (first.tokens ++ rest.tokens), b, rfl, hb,
          .rule (.seq (.seq l (.seq first more)) (.terminal b hb)), ?_⟩
        simp only [tokens, hmore, List.append_assoc]
    · exact (ih h).map [] .rule fun _ => rfl
  | type d ih => exact (ih h).map [] .type fun _ => rfl
  | seq d e ihd ihe =>
    rcases h with h | ⟨he, h⟩
    · exact (ihe h).map d.tokens (.seq d) fun _ => rfl
    · exact (ihd h).map [] (fun d => .seq d e) fun _ => hlast he
  | left d ih => exact (ih h).map [] .left fun _ => rfl
  | right d ih => exact (ih h).map [] .right fun _ => rfl
  | absent => exact h.elim
  | present d ih => exact (ih h).map [] .present fun _ => rfl
  | none => exact h.elim
  | more d e ihd ihe =>
    rcases h with h | ⟨he, h⟩
    · exact (ihe h).map d.tokens (.more d) fun _ => rfl
    · exact (ihd h).map [] (fun d => .more d e) fun _ => hlast he

end DerivationTree

/-! ### What is looked for in a place -/

namespace Point

variable {p q s : Point} {t : Token} {ts us : List Token}

theorem Leads.split (h : p.Leads (ts ++ us) s) : ∃ q, p.Leads ts q ∧ q.Leads us s := by
  induction ts generalizing p with
  | nil => exact ⟨p, .nil, h⟩
  | cons t ts ih =>
    cases h with
    | cons ht hs h =>
      obtain ⟨q, hts, hus⟩ := ih h
      exact ⟨q, .cons ht hs hts, hus⟩

theorem exists_step_of_run (h : (p.run (t :: ts)).isSome = true) : ∃ q, p.step t = some q := by
  rw [run_cons] at h
  cases hs : p.step t with
  | none =>
    rw [hs] at h
    cases h
  | some q => exact ⟨q, rfl⟩

/-- Where a comma or a closing bracket may stand, the bracket closes a property list. -/
theorem accepts_of_list {b : Token} (hc : comma ∈ p.accepts) (hb : b.terminal = rightBracket)
    (hs : p.step b = some q) : q.accepts = listFollowers ∨ ∃ tree, q = done tree := by
  obtain ⟨inner, bracket, context, rfl, -⟩ | ⟨pieces, context, rfl⟩ :=
    (transition_of_step hs).of_rightBracket hb
  · simp [accepts] at hc
  · cases context with
    | alone => exact Or.inr ⟨_, rfl⟩
    | _ => exact Or.inl rfl

theorem mem_accepts_of_run {k : Token} (h : (p.run (k :: ts)).isSome = true) :
    k.terminal ∈ p.accepts := by
  obtain ⟨q, hq⟩ := exists_step_of_run h
  exact mem_accepts hq

end Point

open Point

namespace DerivationTree

theorem avoids_marks {r : Rule} {p q : Point} {back : List Token} {d : DerivationTree r.phrase}
    (hole : ∀ e : DerivationTree r.phrase, (p.run (e.tokens ++ back)).isSome = true)
    (h : p.Leads (d.tokens ++ back) q) : Avoids (marks r) d.tokens := by
  intro t ht hi hm
  obtain ⟨e, k, ks, he, hk, hs⟩ := d.exists_marked ht hi hm
  have hmem : k.terminal ∈ p.accepts := by
    have hrun := hole e
    rw [he] at hrun
    exact mem_accepts_of_run hrun
  obtain ⟨ts, hts⟩ := List.head?_eq_some_iff.1 ht
  rw [hts] at h
  cases h with
  | cons htells _ _ => exact htells hi ⟨k.terminal, hmem, hk, hs⟩

theorem avoids_behind_list {p q s : Point} {ts back : List Token} {w : Phrase}
    {d : DerivationTree w} (hole : ∀ e : DerivationTree w, (p.run (e.tokens ++ back)).isSome = true)
    (h : p.Leads d.tokens q) (hl : d.EndsInList) (hts : q.Leads ts s) :
    Avoids wordsBehindList ts := by
  obtain ⟨us, b, hd, hb, e, he⟩ := d.extensible hl
  rw [hd] at h
  obtain ⟨m, hus, hclose⟩ := h.split
  have hcomma : comma ∈ m.accepts := by
    have hrun := hole e
    rw [he, List.append_assoc, run_append, hus.run] at hrun
    exact mem_accepts_of_run hrun
  intro t ht hi hw
  obtain ⟨rest, rfl⟩ := List.head?_eq_some_iff.1 ht
  cases hclose with
  | cons _ hstep hnil =>
    cases hnil
    cases hts with
    | cons htells hs _ =>
      rcases accepts_of_list hcomma hb hstep with hq | ⟨tree, rfl⟩
      · refine htells hi ?_
        rw [hq]
        have hkey : ∀ w ∈ wordsBehindList, ∃ k ∈ listFollowers, k.isKeyword = true ∧
            k.spelling? = some w := by
          simp [wordsBehindList, listFollowers, declarationStarts, memberStarts, spellingStarts,
            typeStarts, isKeyword, spelling?]
        exact hkey _ hw
      · cases hs

/-- Two derivations one behind the other each stand where any other of their phrases could. -/
theorem holes_of_pair {v w : Phrase} {p q : Point} {back : List Token} {d : DerivationTree v}
    {e : DerivationTree w}
    (hole : ∀ d' e', (p.run (tokens (p := v) d' ++ tokens (p := w) e' ++ back)).isSome = true)
    (h : p.Leads (d.tokens ++ e.tokens ++ back) q) :
    ∃ m, p.Leads d.tokens m ∧ m.Leads (e.tokens ++ back) q ∧
      (∀ d' : DerivationTree v, (p.run (d'.tokens ++ (e.tokens ++ back))).isSome = true) ∧
      ∀ e' : DerivationTree w, (m.run (e'.tokens ++ back)).isSome = true := by
  rw [List.append_assoc] at h
  obtain ⟨m, hd, he⟩ := h.split
  refine ⟨m, hd, he, fun d' => ?_, fun e' => ?_⟩
  · have hrun := hole d' e
    rwa [List.append_assoc] at hrun
  · have hrun := hole d e'
    rwa [List.append_assoc, run_append, hd.run] at hrun

/-- A derivation is clear if its tokens are taken for what they are, in a place where any other
derivation of the phrase could stand. -/
theorem clear_of_hole {w : Phrase} (d : DerivationTree w) {p q : Point} {back : List Token}
    (hole : ∀ e : DerivationTree w, (p.run (e.tokens ++ back)).isSome = true)
    (h : p.Leads (d.tokens ++ back) q) : d.Clear := by
  induction d generalizing p q back with
  | terminal t ht => trivial
  | rule d ih => exact ⟨avoids_marks (fun e => hole (.rule e)) h, ih (fun e => hole (.rule e)) h⟩
  | type d ih => exact ih (fun e => hole (.type e)) h
  | seq d e ihd ihe =>
    obtain ⟨m, hd, he, holed, holee⟩ := holes_of_pair (fun d' e' => hole (.seq d' e')) h
    obtain ⟨s, hes, -⟩ := he.split
    refine ⟨ihd holed (List.append_assoc _ _ _ ▸ h), ihe holee he, ?_⟩
    intro hl
    exact avoids_behind_list holed hd hl hes
  | left d ih => exact ih (fun e => hole (.left e)) h
  | right d ih => exact ih (fun e => hole (.right e)) h
  | absent => trivial
  | present d ih => exact ih (fun e => hole (.present e)) h
  | none => trivial
  | more d e ihd ihe =>
    obtain ⟨m, hd, he, holed, holee⟩ := holes_of_pair (fun d' e' => hole (.more d' e')) h
    obtain ⟨s, hes, -⟩ := he.split
    refine ⟨ihd holed (List.append_assoc _ _ _ ▸ h), ihe holee he, ?_⟩
    intro hl
    exact avoids_behind_list holed hd hl hes

end DerivationTree

/-- A derivation whose tokens are read is clear. -/
theorem StartRule.clear_of_leads {r : StartRule} {d : DerivationTree r.phrase} {q : Point}
    (h : r.point.Leads d.tokens q) : d.Clear := by
  have hole : ∀ e : DerivationTree r.phrase, (r.point.run (e.tokens ++ [])).isSome = true := by
    intro e
    rw [List.append_nil]
    exact r.run_isSome e
  rw [← List.append_nil d.tokens] at h
  exact d.clear_of_hole hole h

end ClassLang
