import ClassLang.Proofs.Build.Classes
import ClassLang.Proofs.Build.Failing

/-!
# What building comes to

Building the tree of a text never meets a node that does not fit. It gives a part if nothing in the
tree fails, and otherwise the failure of the construct that fails first. Main statement
(`parseRule_outcome`): the outcome of every text under every rule.
-/

namespace ClassLang

open ClassLang.Tree DerivationTree
open ClassLang.Part (ofProperty ofLeaf ofDeclaration ofDeclarations ofType ofArgument)

/-! ### Literals -/

namespace Build

/-- A literal that is spelled right denotes a value unless it is one of those that fail. -/
theorem literal_outcome {k : Terminal} {text : String} (hk : k.isLiteral = true)
    (hm : k.Matches text.toList) :
    (literalFault? k text = .none ∧ ∃ v, literal (.known k) text = .ok v) ∨
      ∃ cause, literalFault? k text = some cause ∧ literal (.known k) text = .error cause := by
  cases k with
  | bool =>
    refine Or.inl ⟨rfl, ?_⟩
    rcases hm with hm | hm
    · obtain rfl := String.toList_inj.1 hm
      exact ⟨_, rfl⟩
    · obtain rfl := String.toList_inj.1 hm
      exact ⟨_, rfl⟩
  | char =>
    simp only [literalFault?, literal]
    cases Numeral.integer (inside text) with
    | error cause => exact Or.inr ⟨_, rfl, rfl⟩
    | ok n =>
      by_cases hrange : 0 ≤ n ∧ n < 256
      · simp only [Value.ofByte?, if_pos hrange]
        exact Or.inl ⟨trivial, _, rfl⟩
      · simp only [Value.ofByte?, if_neg hrange]
        exact Or.inr ⟨_, rfl, rfl⟩
  | float =>
    obtain ⟨x, hx, -⟩ := Numeral.float_of_isFloat hm
    refine Or.inl ⟨rfl, .float x, ?_⟩
    simp only [literal, hx]
  | integer =>
    obtain ⟨hover, hwithin⟩ := Numeral.integer_of_isInteger hm
    simp only [literalFault?, literal]
    by_cases hlimit : Numeral.digitLimit < Numeral.digitCount text.toList
    · rw [if_pos hlimit, hover hlimit]
      exact Or.inr ⟨_, rfl, rfl⟩
    · obtain ⟨n, hn⟩ := hwithin (Nat.not_lt.1 hlimit)
      rw [if_neg hlimit, hn]
      exact Or.inl ⟨rfl, _, rfl⟩
  | string => exact Or.inl ⟨rfl, _, rfl⟩
  | kwNullptr => exact Or.inl ⟨rfl, _, rfl⟩
  | _ => cases hk

end Build

/-! ### Building as told by the failing constructs -/

/-- Trees are built if nothing in them fails, and otherwise what fails first is reported. -/
structure Settles (text : List Char) (ts : List Tree) : Prop where
  builds : failingAll ts = [] → ∃ ps, buildAll text ts = .ok ps
  fails : ∀ c cs, failingAll ts = c :: cs → buildAll text ts = .error (c.failure text)

namespace Settles

variable {text : List Char} {ts us : List Tree}

theorem buildAll_append (ts us : List Tree) :
    buildAll text (ts ++ us) =
      (buildAll text ts).bind fun ps => (buildAll text us).map fun qs => ps ++ qs := by
  induction ts with
  | nil =>
    rw [List.nil_append, buildAll, Except.bind]
    cases buildAll text us <;> rfl
  | cons t ts ih =>
    rw [List.cons_append, buildAll, buildAll, ih]
    cases build text t with
    | error f => rfl
    | ok p =>
      cases buildAll text ts with
      | error f => rfl
      | ok ps => cases buildAll text us <;> rfl

theorem nil : Settles text [] := ⟨fun _ => ⟨[], rfl⟩, nofun⟩

theorem absent : Settles text [.absent] := ⟨fun _ => ⟨[.absent], rfl⟩, nofun⟩

theorem append (h : Settles text ts) (h' : Settles text us) : Settles text (ts ++ us) := by
  constructor
  · intro hnil
    rw [failingAll_append] at hnil
    obtain ⟨hts, hus⟩ := List.append_eq_nil_iff.1 hnil
    obtain ⟨ps, hps⟩ := h.builds hts
    obtain ⟨qs, hqs⟩ := h'.builds hus
    exact ⟨ps ++ qs, by rw [buildAll_append, hps, hqs]; rfl⟩
  · intro c cs hcons
    rw [failingAll_append] at hcons
    rw [buildAll_append]
    cases hts : failingAll ts with
    | nil =>
      obtain ⟨ps, hps⟩ := h.builds hts
      rw [hts, List.nil_append] at hcons
      rw [hps, h'.fails c cs hcons]
      rfl
    | cons d ds =>
      rw [hts, List.cons_append] at hcons
      obtain rfl := (List.cons.inj hcons).1
      rw [h.fails d ds hts]
      rfl

theorem token (t : Token) : Settles text [t.tree] := by
  refine ⟨fun _ => ⟨_, rfl⟩, ?_⟩
  intro c cs hcons
  rw [failingAll_singleton, failing_token] at hcons
  cases hcons

theorem buildAll_singleton (t : Tree) :
    buildAll text [t] = (build text t).map fun p => [p] := by
  rw [buildAll, buildAll]
  cases build text t <;> rfl

/-- The node of a rule settles if its children do, and the rule gives a part or the failure of the
node itself for what is built from them. -/
theorem node {r : Rule} {range : Option Range} (h : Settles text ts)
    (hr : ∀ ps, List.Forall₂ (fun t p => build text t = .ok p) ts ps →
      (Build.failingIn r range ts = [] ∧ ∃ p, Build.node text r range ps = .ok p) ∨
        ∃ c, Build.failingIn r range ts = [c] ∧
          Build.node text r range ps = .error (c.failure text)) :
    Settles text [.node (.known r) range ts] := by
  constructor
  · intro hnil
    rw [failingAll_singleton, failing] at hnil
    obtain ⟨hts, hown⟩ := List.append_eq_nil_iff.1 hnil
    obtain ⟨ps, hps⟩ := h.builds hts
    rcases hr ps (forall₂_of_buildAll hps) with ⟨-, p, hp⟩ | ⟨c, hc, -⟩
    · exact ⟨[p], by rw [buildAll_singleton, build, hps]; simp only [hp]; rfl⟩
    · rw [hc] at hown
      cases hown
  · intro c cs hcons
    rw [failingAll_singleton, failing] at hcons
    rw [buildAll_singleton, build]
    cases hts : failingAll ts with
    | nil =>
      obtain ⟨ps, hps⟩ := h.builds hts
      rw [hts, List.nil_append] at hcons
      rcases hr ps (forall₂_of_buildAll hps) with ⟨hnil, -⟩ | ⟨d, hd, hp⟩
      · rw [hnil] at hcons
        cases hcons
      · rw [hd] at hcons
        obtain rfl := (List.cons.inj hcons).1
        simp only [hps, hp]
        rfl
    | cons d ds =>
      rw [hts, List.cons_append] at hcons
      obtain rfl := (List.cons.inj hcons).1
      simp only [h.fails d ds hts]
      rfl

end Settles

/-! ### What the rules give -/

variable {text : List Char} {range : Option Range} {ps : List Part}

/-- Whether a rule gives a part, or the failure of the node itself, for what is built from some
trees. -/
def Gives (text : List Char) (r : Rule) (range : Option Range) (ts : List Tree) : Prop :=
  ∀ ps, List.Forall₂ (fun t p => build text t = .ok p) ts ps →
    (Build.failingIn r range ts = [] ∧ ∃ p, Build.node text r range ps = .ok p) ∨
      ∃ c, Build.failingIn r range ts = [c] ∧
        Build.node text r range ps = .error (c.failure text)

theorem Gives.of_part {r : Rule} {ts : List Tree} (hv : r ≠ .value) (hf : r ≠ .fieldDecl)
    (h : ∀ ps, List.Forall₂ (fun t p => build text t = .ok p) ts ps →
      ∃ p, Build.node text r range ps = .ok p) : Gives text r range ts :=
  fun ps hps => Or.inl ⟨failingIn_nil hv hf range ts, h ps hps⟩

theorem gives_value (d : DerivationTree Rule.value.phrase)
    (hd : ∀ t ∈ d.tokens, t.StandsIn text) : Gives text .value range d.kept := by
  obtain ⟨t, ht, htokens, hnode⟩ := exists_literal (.rule d)
  have hkept : d.kept = [t.tree] := (Tree.node.inj (List.cons.inj hnode).1).2.2
  have hstands : t.StandsIn text := hd t (htokens ▸ List.mem_singleton_self t)
  intro ps hps
  rw [hkept] at hps ⊢
  obtain _ | ⟨hp, _ | _⟩ := hps
  obtain rfl := build_token hp
  rw [Token.tree, Build.failingIn]
  rcases Build.literal_outcome ht hstands.isMatch with ⟨hnone, v, hv⟩ | ⟨cause, hsome, hcause⟩
  · refine Or.inl ⟨by rw [hnone]; rfl, .value v, ?_⟩
    simp only [Build.node, Build.value, Build.first, List.head?_cons, bind, Except.bind, hv]
  · refine Or.inr ⟨⟨cause, t.range⟩, by rw [hsome]; rfl, ?_⟩
    simp only [Build.node, Build.value, Build.first, List.head?_cons, bind, Except.bind, hcause,
      Failing.failure, hstands.slice, String.ofList_toList]

theorem gives_property (d : DerivationTree Rule.property.phrase) :
    Gives text .property range d.kept := by
  refine .of_part nofun nofun ?_
  intro ps hps
  match d with
  | .seq (.seq mark (.terminal t ht)) initial =>
    obtain ⟨m, hm, -⟩ := builds_mark text mark rfl
    obtain ⟨v, hv, -⟩ := builds_initial text initial
    change List.Forall₂ _ (mark.kept ++ [t.tree] ++ initial.kept) ps at hps
    rw [hm, hv] at hps
    obtain _ | ⟨hpm, _ | ⟨hpt, _ | ⟨hpv, _ | _⟩⟩⟩ := hps
    obtain rfl := build_token hpt
    simp only [Build.node, Build.property, Build.triple, bind, Except.bind, ht]
    exact ⟨_, rfl⟩

/-! ### Types -/

theorem tokens_type_ne_nil (d : DerivationTree .type) : d.tokens ≠ [] := by
  have hsnoc : ∀ (ts : List Token) (t : Token), ts ++ [t] ≠ [] := by
    intro ts t h
    exact List.cons_ne_nil t [] (List.append_eq_nil_iff.1 h).2
  match d with
  | .type (.left (.left (.left (.left (.left (.rule (.seq (.terminal t ht) e))))))) => exact nofun
  | .type (.left (.left (.left (.left (.right (.rule (.seq e (.terminal s hs)))))))) =>
    exact hsnoc _ s
  | .type (.left (.left (.left (.right (.rule (.seq e (.terminal s hs))))))) => exact hsnoc _ s
  | .type (.left (.left (.right (.rule (.seq e (.terminal s hs)))))) => exact hsnoc _ s
  | .type (.left (.right (.rule (.seq (.seq e (.terminal b hb)) (.terminal s hs))))) =>
    exact hsnoc _ s
  | .type (.right (.rule (.seq (.seq (.terminal m hm) e) (.terminal s hs)))) => exact hsnoc _ s

theorem gives_typeName (d : DerivationTree Rule.typeName.phrase) :
    Gives text .typeName range d.kept := by
  refine .of_part nofun nofun ?_
  intro ps hps
  match d with
  | .seq (.terminal t ht) rest =>
    obtain ⟨ts, -, hk⟩ := kept_names rfl rest
    change List.Forall₂ _ ([t.tree] ++ rest.kept) ps at hps
    have hall : [t.tree] ++ rest.kept = (t :: ts).map Token.tree := by rw [hk]; rfl
    rw [hall] at hps
    obtain rfl := build_names text hps
    simp only [Build.node, Build.typeName, mapM_held, bind, Except.bind, textsFrom_words]
    exact ⟨_, rfl⟩

/-- A layer is given around the type that comes last. -/
theorem gives_layer {r : Rule} {l : Layer} {ts : List Tree} (front : List Tree)
    (e : DerivationTree .type) (hts : ts = front ++ e.kept) (hv : r ≠ .value) (hf : r ≠ .fieldDecl)
    (hr : ∀ ps, Build.node text r range ps = Build.layer r l ps) : Gives text r range ts := by
  obtain ⟨t, hk, -⟩ := builds_type text e
  refine .of_part hv hf ?_
  intro ps hps
  rw [hts, hk] at hps
  obtain ⟨qs, q, rfl, -, -⟩ := forall₂_snoc hps
  rw [hr, Build.layer, last_snoc]
  exact ⟨_, rfl⟩

theorem gives_typeSpelling {r : Range} (d : DerivationTree Rule.typeSpelling.phrase) :
    Gives text .typeSpelling (some r) d.kept := by
  refine .of_part nofun nofun ?_
  intro ps hps
  match d with
  | .seq mark e =>
    obtain ⟨m, hm, -⟩ := builds_mark text mark rfl
    obtain ⟨t, hk, -⟩ := builds_type text e
    change List.Forall₂ _ (mark.kept ++ e.kept) ps at hps
    rw [hm, hk] at hps
    obtain _ | ⟨hpm, _ | ⟨hpt, _ | _⟩⟩ := hps
    exact ⟨_, rfl⟩

/-! ### Members -/

theorem gives_argument (d : DerivationTree Rule.argument.phrase) :
    Gives text .argument range d.kept := by
  refine .of_part nofun nofun ?_
  intro ps hps
  match d with
  | .seq (.seq (.seq list spelling) (.terminal t ht)) initial =>
    obtain ⟨l, hl, hlist⟩ := builds_list? text list
    obtain ⟨s, hs, hspelling⟩ := builds_spelling text spelling
    obtain ⟨v, hv, -⟩ := builds_initial text initial
    change List.Forall₂ _ (list.kept ++ spelling.kept ++ [t.tree] ++ initial.kept) ps at hps
    rw [hl, hs, hv] at hps
    obtain _ | ⟨hpl, _ | ⟨hps, _ | ⟨hpt, _ | ⟨hpv, _ | _⟩⟩⟩⟩ := hps
    obtain ⟨properties, hpart, -⟩ := hlist _ hpl
    obtain ⟨written, type, isConst, rfl, -⟩ := hspelling _ hps
    obtain rfl := build_token hpt
    simp only [Build.node, Build.argument, Build.quadruple, childrenOf?_list .argument hpart, bind,
      Except.bind]
    exact ⟨_, rfl⟩

theorem gives_method (d : DerivationTree Rule.methodDecl.phrase) :
    Gives text .methodDecl range d.kept := by
  refine .of_part nofun nofun ?_
  intro ps hps
  match d with
  | .seq (.seq (.seq (.seq (.seq (.seq mark spelling) (.terminal t ht)) (.terminal b hb))
      arguments) (.terminal e he)) (.terminal c hc) =>
    obtain ⟨m, hm, -⟩ := builds_mark text mark rfl
    obtain ⟨s, hs, hspelling⟩ := builds_spelling text spelling
    obtain ⟨a, ha, hargument⟩ := builds_arguments text arguments
    change List.Forall₂ _
      (mark.kept ++ spelling.kept ++ [t.tree] ++ [] ++ arguments.kept ++ [] ++ []) ps at hps
    rw [hm, hs, ha] at hps
    obtain _ | ⟨hpm, _ | ⟨hps, _ | ⟨hpt, _ | ⟨hpa, _ | _⟩⟩⟩⟩ := hps
    obtain ⟨written, type, isConst, rfl, -⟩ := hspelling _ hps
    obtain rfl := build_token hpt
    obtain ⟨as, hchildren, -⟩ := hargument _ hpa
    simp only [Build.node, Build.method, Build.quadruple, bind, Except.bind, hchildren, Build.held,
      Part.held?]
    exact ⟨_, rfl⟩

/-- The name of a field is found exactly if its type is marked constant. -/
theorem constantField?_of_denotes {written : String} {type : DataType} {isConst : Bool}
    {m s v : Tree} {t : Token} (hs : DenotesSpelling text s written type isConst) :
    Build.constantField? [m, s, t.tree, v] = if isConst then some t.text else .none := by
  cases hs with
  | spelling hm ht => cases hm <;> rfl

theorem field_children (text : List Char) (d : DerivationTree Rule.fieldDecl.phrase) :
    ∃ (m s v : Tree) (t : Token), d.kept = [m, s, t.tree, v] ∧
      ∀ p, s.build text = .ok p → ∃ written type isConst,
        p = .spelling written (ofType type) isConst ∧
          DenotesSpelling text s written type isConst := by
  match d with
  | .seq (.seq (.seq (.seq mark spelling) (.terminal t ht)) initial) (.terminal c hc) =>
    obtain ⟨m, hm, -⟩ := builds_mark text mark rfl
    obtain ⟨s, hs, hspelling⟩ := builds_spelling text spelling
    obtain ⟨v, hv, -⟩ := builds_initial text initial
    refine ⟨m, s, v, t, ?_, hspelling⟩
    change mark.kept ++ spelling.kept ++ [t.tree] ++ initial.kept ++ [] = _
    rw [hm, hs, hv]
    rfl

theorem gives_field {r : Range} (d : DerivationTree Rule.fieldDecl.phrase) :
    Gives text .fieldDecl (some r) d.kept := by
  obtain ⟨m, s, v, t, hkept, hspelling⟩ := field_children text d
  intro ps hps
  rw [hkept] at hps ⊢
  obtain _ | ⟨hpm, _ | ⟨hps, _ | ⟨hpt, _ | ⟨hpv, _ | _⟩⟩⟩⟩ := hps
  obtain ⟨written, type, isConst, rfl, hdenotes⟩ := hspelling _ hps
  obtain rfl := build_token hpt
  rw [Build.failingIn, constantField?_of_denotes hdenotes]
  cases isConst with
  | true => exact Or.inr ⟨_, rfl, rfl⟩
  | false => exact Or.inl ⟨rfl, _, rfl⟩

/-! ### Declarations and classes -/

theorem gives_block (d : DerivationTree Rule.blockDecl.phrase) :
    Gives text .blockDecl range d.kept := by
  refine .of_part nofun nofun ?_
  intro ps hps
  match d with
  | .seq (.seq (.terminal b hb) (.rule e)) (.terminal c hc) =>
    obtain _ | ⟨hbody, _ | _⟩ := hps
    obtain ⟨qs, -, hinner⟩ := build_node hbody
    obtain rfl := Except.ok.inj hinner
    exact ⟨_, rfl⟩

theorem builds_member (text : List Char)
    (d : DerivationTree
      (Phrase.rule .fieldDecl ||| Phrase.rule .methodDecl ||| Phrase.rule .blockDecl)) :
    ∃ t, d.kept = [t] ∧ ∀ p, t.build text = .ok p → ∃ e, p = ofDeclaration e := by
  have hleaf : ∀ t, BuildsAs text ofLeaf (DenotesMember text []) t →
      ∀ p, t.build text = .ok p → ∃ e, p = ofDeclaration e := by
    intro t ht p hp
    obtain ⟨l, rfl, -⟩ := ht p hp
    exact ⟨.leaf l, rfl⟩
  match d with
  | .left (.left e) =>
    obtain ⟨t, hk, ht⟩ := builds_field text e
    exact ⟨t, hk, hleaf t ht⟩
  | .left (.right e) =>
    obtain ⟨t, hk, ht⟩ := builds_method text e
    exact ⟨t, hk, hleaf t ht⟩
  | .right (.rule (.seq (.seq (.terminal b hb) (.rule e)) (.terminal c hc))) =>
    refine ⟨.node (.known .blockDecl) _ ([] ++ [Tree.node (.known .body) _ e.kept] ++ []), rfl, ?_⟩
    intro p hp
    obtain ⟨f, rfl, -⟩ := buildsDeclared_of_block text (builds_declarations text e) p hp
    exact ⟨f, rfl⟩

theorem gives_declaration (d : DerivationTree Rule.declaration.phrase) :
    Gives text .declaration range d.kept := by
  refine .of_part nofun nofun ?_
  intro ps hps
  match d with
  | .seq lists member =>
    obtain ⟨t, ht, hmember⟩ := builds_member text member
    change List.Forall₂ _ (lists.kept ++ member.kept) ps at hps
    rw [ht] at hps
    obtain ⟨qs, q, rfl, hqs, hq⟩ := forall₂_snoc hps
    obtain ⟨pss, rfl, -⟩ := BuildsAs.forall₂ (builds_lists text lists) hqs
    obtain ⟨e, rfl⟩ := hmember q hq
    rw [Build.node, declaration_ofDeclaration]
    exact ⟨_, rfl⟩

theorem gives_inheritance (d : DerivationTree Rule.inheritance.phrase) :
    Gives text .inheritance range d.kept := by
  refine .of_part nofun nofun ?_
  intro ps hps
  match d with
  | .seq (.terminal c hc) (.seq (.terminal t ht) rest) =>
    obtain ⟨ts, -, hk⟩ := kept_names rfl rest
    change List.Forall₂ _ ([] ++ ([t.tree] ++ rest.kept)) ps at hps
    have hall : [] ++ ([t.tree] ++ rest.kept) = (t :: ts).map Token.tree := by rw [hk]; rfl
    rw [hall] at hps
    obtain rfl := build_names text hps
    simp only [Build.node, Build.inheritance, mapM_held, bind, Except.bind]
    exact ⟨_, rfl⟩

theorem gives_class (d : DerivationTree Rule.classDecl.phrase)
    (hd : ∀ t ∈ d.tokens, t.StandsIn text) : Gives text .classDecl range d.kept := by
  refine .of_part nofun nofun ?_
  intro ps hps
  match d with
  | .seq (.seq (.seq (.seq (.seq (.seq list (.terminal k hk)) (.terminal n hn)) supers)
      (.terminal b hb)) (.rule e)) (.terminal c hc) =>
    obtain ⟨l, hl, hlist⟩ := builds_list? text list
    obtain ⟨i, hi, hbases⟩ := builds_bases text supers
    change List.Forall₂ _ (list.kept ++ [k.tree] ++ [n.tree] ++ supers.kept ++ [] ++
      [Tree.node (.known .body) _ e.kept] ++ []) ps at hps
    rw [hl, hi] at hps
    obtain _ | ⟨hpl, _ | ⟨hpk, _ | ⟨hpn, _ | ⟨hpi, _ | ⟨hpe, _ | _⟩⟩⟩⟩⟩ := hps
    obtain ⟨properties, hlpart, -⟩ := hlist _ hpl
    obtain rfl := build_token hpk
    obtain rfl := build_token hpn
    obtain ⟨names, hipart, -⟩ := hbases _ hpi
    obtain ⟨qs, -, hbody⟩ := build_node hpe
    obtain rfl := Except.ok.inj hbody
    have hstands : n.StandsIn text := hd n (by simp [tokens])
    have hmatch : Pattern.IsName n.text.toList := by
      have hm := hstands.isMatch
      rwa [hn] at hm
    have hname : n.text.isEmpty = false := by
      by_contra hempty
      have hnil : n.text = "" := String.isEmpty_iff.1 (Bool.not_eq_false _ ▸ hempty)
      rw [hnil] at hmatch
      cases hmatch
    rw [Build.node, hk, hn, classDecl_parts _ hlpart hipart, hname]
    exact ⟨_, rfl⟩

/-! ### Whole trees -/

theorem tokens_spelling_ne_nil (d : DerivationTree Rule.typeSpelling.phrase) : d.tokens ≠ [] := by
  match d with
  | .seq mark e => exact fun h => tokens_type_ne_nil e (List.append_eq_nil_iff.1 h).2

theorem tokens_field_ne_nil (d : DerivationTree Rule.fieldDecl.phrase) : d.tokens ≠ [] := by
  match d with
  | .seq e (.terminal c hc) => exact fun h => List.cons_ne_nil c [] (List.append_eq_nil_iff.1 h).2

theorem gives_of_derivation {r : Rule} (d : DerivationTree r.phrase)
    (hd : ∀ t ∈ d.tokens, t.StandsIn text) : Gives text r (Tree.cover d.pieces) d.kept := by
  cases r with
  | classDecl => exact gives_class d hd
  | inheritance => exact gives_inheritance d
  | declaration => exact gives_declaration d
  | blockDecl => exact gives_block d
  | fieldDecl =>
    obtain ⟨range, hrange⟩ := d.extends_pieces.exists_cover (tokens_field_ne_nil d)
    rw [hrange]
    exact gives_field d
  | methodDecl => exact gives_method d
  | argument => exact gives_argument d
  | typeSpelling =>
    obtain ⟨range, hrange⟩ := d.extends_pieces.exists_cover (tokens_spelling_ne_nil d)
    rw [hrange]
    exact gives_typeSpelling d
  | typeName => exact gives_typeName d
  | pointerType =>
    match d with
    | .seq e (.terminal s hs) =>
      exact gives_layer [] e (List.append_nil _) nofun nofun fun _ => rfl
  | doublePointerType =>
    match d with
    | .seq e (.terminal s hs) =>
      exact gives_layer [] e (List.append_nil _) nofun nofun fun _ => rfl
  | referenceType =>
    match d with
    | .seq e (.terminal s hs) =>
      exact gives_layer [] e (List.append_nil _) nofun nofun fun _ => rfl
  | arrayType =>
    match d with
    | .seq (.seq e (.terminal b hb)) (.terminal s hs) =>
      exact gives_layer [] e (List.append_nil _ |>.trans (List.append_nil _)) nofun nofun
        fun _ => rfl
  | matrixType =>
    match d with
    | .seq (.seq (.terminal m hm) e) (.terminal s hs) =>
      exact gives_layer [m.tree] e (List.append_nil _) nofun nofun fun _ => rfl
  | property => exact gives_property d
  | value => exact gives_value d hd
  | _ => exact .of_part nofun nofun fun _ _ => ⟨_, rfl⟩

theorem settles_kept {p : Phrase} (d : DerivationTree p) (hd : ∀ t ∈ d.tokens, t.StandsIn text) :
    Settles text d.kept := by
  induction d with
  | @terminal k t h =>
    rw [kept]
    cases k.isPunctuation with
    | true => exact .nil
    | false => exact .token t
  | rule d ih => exact .node (ih hd) (gives_of_derivation d hd)
  | type d ih => exact ih hd
  | seq d e ihd ihe =>
    exact (ihd fun t ht => hd t (List.mem_append_left _ ht)).append
      (ihe fun t ht => hd t (List.mem_append_right _ ht))
  | left d ih => exact ih hd
  | right d ih => exact ih hd
  | absent => exact .absent
  | present d ih => exact ih hd
  | none => exact .nil
  | more d e ihd ihe =>
    exact (ihd fun t ht => hd t (List.mem_append_left _ ht)).append
      (ihe fun t ht => hd t (List.mem_append_right _ ht))

theorem kept_of_pieces {r : StartRule} {tree : Tree} (d : DerivationTree r.phrase)
    (h : d.pieces = [tree]) : d.kept = [tree] := by
  cases r with
  | typeDecl =>
    obtain ⟨t, hk, -⟩ := builds_type [] d
    have hfilter : ([tree].filter fun t => !t.isPunctuation) = [t] := by
      rw [← h, ← hk]
      exact filter_pieces d
    have hmem : t ∈ [tree] := List.mem_of_mem_filter (hfilter ▸ List.mem_singleton_self t)
    exact hk.trans (by rw [List.mem_singleton.1 hmem])
  | _ => exact pieces_eq_kept d ▸ h

/-- What is built from the tree of a text is told by what fails in it. -/
theorem settles_of_read {r : StartRule} {tree : Tree} (h : r.read text = .ok tree) :
    Settles text [tree] ∧
      (tree.failing.Pairwise fun c d => c.range.stop.offset < d.range.stop.offset) ∧
      ∀ c ∈ tree.failing, c.range.start.Counted := by
  obtain ⟨ts, hspread, hderives⟩ := derives_of_read h
  obtain ⟨d, rfl, hpieces⟩ := hderives.exists_derivationTree
  have hkept : d.kept = [tree] := kept_of_pieces d hpieces
  have hstart : Position.start = Position.start.advance [] := rfl
  have hstand : ∀ t ∈ d.tokens, t.StandsIn text := hspread.standsIn hstart
  have hamong := d.among_failing
  rw [hkept, failingAll_singleton] at hamong
  exact ⟨hkept ▸ settles_kept d hstand, hamong.pairwise hspread.pairwise_stop,
    hamong.counted hstand⟩

theorem Settles.build {t : Tree} (h : Settles text [t]) :
    (t.failing = [] → ∃ p, t.build text = .ok p) ∧
      ∀ c cs, t.failing = c :: cs → t.build text = .error (c.failure text) := by
  obtain ⟨hbuilds, hfails⟩ := h
  rw [failingAll_singleton, buildAll_singleton] at hbuilds hfails
  cases hb : t.build text with
  | ok p =>
    rw [hb] at hfails
    exact ⟨fun _ => ⟨p, rfl⟩, fun c cs hcs => nomatch hfails c cs hcs⟩
  | error f =>
    rw [hb] at hbuilds hfails
    refine ⟨?_, ?_⟩
    · intro hnil
      obtain ⟨ps, hps⟩ := hbuilds hnil
      cases hps
    · intro c cs hcs
      exact congrArg Except.error (Except.error.inj (hfails c cs hcs))

theorem parseRule_of_error {r : StartRule} {cause : Rejection} (h : r.read text = .error cause) :
    parseRule r text = .error (.rejected text cause) := by
  rw [parseRule, tokenize, h]
  rfl

theorem parseRule_of_read {r : StartRule} {tree : Tree} (h : r.read text = .ok tree) :
    parseRule r text = (tree.build text).map Part.settle := by
  rw [parseRule, tokenize, h]
  cases hbuild : tree.build text with
  | error f => simp only [bind, Except.bind, hbuild, Except.map]
  | ok p =>
    simp only [bind, Except.bind, hbuild, Except.map]
    rfl

/-- Whether a failure is reported with a line and a column that are counted from 1. -/
def Failure.IsReported (f : Failure) (d : Diagnostic) : Prop :=
  f.diagnostic? = some d ∧ ∃ line column, d.place.line? = some line ∧
    d.place.column? = some column ∧ 1 ≤ line ∧ 1 ≤ column

theorem isReported_rejected {cause : Rejection} (h : cause.place.Counted) :
    ∃ d, (Failure.rejected text cause).IsReported d ∧ d.stage = .tokenizer := by
  obtain ⟨hline, hcolumn⟩ := h
  refine ⟨_, ⟨rfl, cause.place.line, cause.place.column, rfl, rfl, ?_⟩, rfl⟩
  omega

theorem isReported_failing {c : Failing} (h : c.range.start.Counted) (text : List Char) :
    ∃ d, (c.failure text).IsReported d ∧ d.stage = c.cause.stage := by
  obtain ⟨hline, hcolumn⟩ := h
  refine ⟨_, ⟨rfl, c.range.start.line, c.range.start.column, rfl, rfl, ?_⟩, rfl⟩
  omega

/-- The outcome of a text under a rule. A text that the grammar does not read is rejected. If
nothing fails in the tree of a text that is read, it gives a part, and otherwise the failure of the
construct whose range ends first. Every failure is reported, with a line and a column. -/
theorem parseRule_outcome (r : StartRule) (text : List Char) :
    (∀ cause, r.read text = .error cause → parseRule r text = .error (.rejected text cause)) ∧
      (∀ tree, r.read text = .ok tree →
        (tree.failing = [] → ∃ part, parseRule r text = .ok part) ∧
          (tree.failing ≠ [] → ∃ c ∈ tree.failing,
            (∀ d ∈ tree.failing, d ≠ c → c.range.stop.offset < d.range.stop.offset) ∧
              parseRule r text = .error (c.failure text))) ∧
      ∀ f, parseRule r text = .error f → ∃ d, f.IsReported d ∧
        (d.stage = .tokenizer ↔ ∃ cause, r.read text = .error cause) ∧
        (d.stage = .tokenizer ∨ d.stage = .value ∨ d.stage = .field) := by
  cases hread : r.read text with
  | error cause =>
    have hparse := parseRule_of_error hread
    have hplace : cause.place.Counted :=
      Reading.counted_of_run Position.counted_start Position.counted_start hread
    refine ⟨fun _ h => Except.error.inj h ▸ hparse, nofun, ?_⟩
    intro f hf
    rw [hparse] at hf
    obtain rfl := Except.error.inj hf
    obtain ⟨d, hd, hstage⟩ := isReported_rejected hplace
    exact ⟨d, hd, ⟨fun _ => ⟨cause, rfl⟩, fun _ => hstage⟩, Or.inl hstage⟩
  | ok tree =>
    have hparse := parseRule_of_read hread
    obtain ⟨hsettles, hpairwise, hcounted⟩ := settles_of_read hread
    obtain ⟨hbuilds, hfails⟩ := hsettles.build
    refine ⟨nofun, ?_, ?_⟩
    · intro tree' htree
      obtain rfl := Except.ok.inj htree
      constructor
      · intro hnil
        obtain ⟨p, hp⟩ := hbuilds hnil
        exact ⟨p.settle, by rw [hparse, hp]; rfl⟩
      · intro hne
        obtain ⟨c, cs, hcons⟩ := List.exists_cons_of_ne_nil hne
        rw [hcons] at hpairwise
        refine ⟨c, hcons ▸ List.mem_cons_self, ?_, by rw [hparse, hfails c cs hcons]; rfl⟩
        intro d hd hdc
        rw [hcons] at hd
        -- the list is in the order of the ends, so its head ends first
        exact List.rel_of_pairwise_cons hpairwise (List.mem_of_ne_of_mem hdc hd)
    · intro f hf
      rw [hparse] at hf
      cases hfailing : tree.failing with
      | nil =>
        obtain ⟨p, hp⟩ := hbuilds hfailing
        rw [hp] at hf
        cases hf
      | cons c cs =>
        have hmem : c ∈ tree.failing := hfailing ▸ List.mem_cons_self
        rw [hfails c cs hfailing] at hf
        obtain rfl := Except.error.inj hf
        obtain ⟨d, hd, hstage⟩ := isReported_failing (hcounted c hmem) text
        have hkind := stage_failing tree c hmem
        rw [← hstage] at hkind
        refine ⟨d, hd, ⟨?_, nofun⟩, Or.inr hkind⟩
        intro htokenizer
        rw [htokenizer] at hkind
        rcases hkind with hkind | hkind <;> cases hkind

/-- A constant field whose value is no byte. -/
def constantField : List Char := "const int x = 'ab';".toList

/-- Of a bad literal inside a constant field and the field itself, the literal is reported. -/
theorem parseRule_outcome_constantField :
    ∃ tree, StartRule.fieldDecl.read constantField = .ok tree ∧ tree.failing.length = 2 ∧
      ∃ c ∈ tree.failing,
        (∀ d ∈ tree.failing, d ≠ c → c.range.stop.offset < d.range.stop.offset) ∧
          parseRule .fieldDecl constantField = .error (c.failure constantField) := by
  have hcount : (StartRule.fieldDecl.read constantField).toOption.map
      (fun tree => tree.failing.length) = some 2 := by
    decide +kernel
  cases hread : StartRule.fieldDecl.read constantField with
  | error cause =>
    rw [hread] at hcount
    cases hcount
  | ok tree =>
    rw [hread] at hcount
    have hlength : tree.failing.length = 2 := Option.some.inj hcount
    have hne : tree.failing ≠ [] := by
      intro hnil
      rw [hnil] at hlength
      cases hlength
    exact ⟨tree, rfl, hlength, ((parseRule_outcome .fieldDecl constantField).2.1 tree hread).2 hne⟩

end ClassLang
