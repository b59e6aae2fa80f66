import ClassLang.Proofs.Build.Denotation
import ClassLang.Proofs.Syntax.DerivationTree

/-!
# Building members

What is built from the tree of a derivation, if anything is built, is what the tree denotes. A node
is built from its children alone, which are the pieces of its derivation without punctuation
(`DerivationTree.kept`). Main statements: the parts of properties, types, arguments, fields and
methods are those of what their nodes denote.
-/

namespace ClassLang

/-! ### The children of a node -/

namespace DerivationTree

/-- What a derivation leaves among the children of the node around it. -/
def kept {p : Phrase} : DerivationTree p → List Tree
  | terminal (k := k) t _ => bif k.isPunctuation then [] else [t.tree]
  | rule (r := r) d => [.node (.known r) (Tree.cover d.pieces) d.kept]
  | type d => d.kept
  | seq d e => d.kept ++ e.kept
  | left d => d.kept
  | right d => d.kept
  | absent => [.absent]
  | present d => d.kept
  | none => []
  | more d e => d.kept ++ e.kept

theorem filter_pieces {p : Phrase} (d : DerivationTree p) :
    (d.pieces.filter fun t => !t.isPunctuation) = d.kept := by
  induction d with
  | @terminal k t h =>
    subst h
    rw [kept, pieces, List.filter_singleton, Token.tree, Tree.isPunctuation]
    cases t.terminal.isPunctuation <;> rfl
  | rule d ih => rw [kept, pieces, Tree.close, ih]; rfl
  | type d ih => exact ih
  | seq d e ihd ihe => rw [kept, pieces, List.filter_append, ihd, ihe]
  | left d ih => exact ih
  | right d ih => exact ih
  | absent => rfl
  | present d ih => exact ih
  | none => rfl
  | more d e ihd ihe => rw [kept, pieces, List.filter_append, ihd, ihe]

/-- The node of a rule has the kept pieces for its children. -/
theorem pieces_eq_kept {r : Rule} (d : DerivationTree (.rule r)) : d.pieces = d.kept := by
  match d with
  | .rule e => rw [pieces, kept, Tree.close, filter_pieces]

theorem mem_kept_many {r : Rule} (d : DerivationTree (.many (.rule r))) {t : Tree}
    (h : t ∈ d.kept) : ∃ e : DerivationTree (.rule r), e.kept = [t] ∧ e.size < d.size := by
  match d with
  | .more (.rule e) rest =>
    rcases List.mem_append.1 h with h | h
    · refine ⟨.rule e, congrArg (fun t => [t]) (List.mem_singleton.1 h).symm, ?_⟩
      simp only [size]
      omega
    · obtain ⟨e', he, hs⟩ := mem_kept_many rest h
      refine ⟨e', he, ?_⟩
      simp only [size]
      omega

theorem mem_kept_moreItems {r : Rule}
    (d : DerivationTree (.many (.seq (.terminal .comma) (.rule r)))) {t : Tree} (h : t ∈ d.kept) :
    ∃ e : DerivationTree (.rule r), e.kept = [t] := by
  match d with
  | .more (.seq (.terminal s hs) (.rule e)) rest =>
    rcases List.mem_append.1 h with h | h
    · exact ⟨.rule e, congrArg (fun t => [t]) (List.mem_singleton.1 h).symm⟩
    · exact mem_kept_moreItems rest h

/-- Every child of a list with separators is the node of an item. -/
theorem mem_kept_separated {r : Rule} (d : DerivationTree (Phrase.separated (.rule r))) {t : Tree}
    (h : t ∈ d.kept) : ∃ e : DerivationTree (.rule r), e.kept = [t] := by
  match d with
  | .seq (.rule e) rest =>
    rcases List.mem_append.1 h with h | h
    · exact ⟨.rule e, congrArg (fun t => [t]) (List.mem_singleton.1 h).symm⟩
    · exact mem_kept_moreItems rest h

theorem of_kept {p : Phrase} {d : DerivationTree p} {P : Tree → Prop} {t : Tree}
    (h : ∃ s, d.kept = [s] ∧ P s) (ht : d.kept = [t]) : P t := by
  obtain ⟨s, hs, hp⟩ := h
  rw [ht] at hs
  exact (List.cons.inj hs).1 ▸ hp

end DerivationTree

/-! ### Building node by node -/

namespace Tree

variable {text : List Char}

theorem forall₂_of_buildAll {ts : List Tree} {ps : List Part} (h : buildAll text ts = .ok ps) :
    List.Forall₂ (fun t p => build text t = .ok p) ts ps := by
  induction ts generalizing ps with
  | nil =>
    obtain rfl := Except.ok.inj h
    exact .nil
  | cons t ts ih =>
    rw [buildAll] at h
    split at h
    · cases h
    · rename_i p hp
      split at h
      · cases h
      · rename_i qs hqs
        obtain rfl := Except.ok.inj h
        exact .cons hp (ih hqs)

theorem build_node {r : Rule} {range : Option Range} {ts : List Tree} {p : Part}
    (h : build text (.node (.known r) range ts) = .ok p) :
    ∃ ps, List.Forall₂ (fun t q => build text t = .ok q) ts ps ∧
      Build.node text r range ps = .ok p := by
  rw [build] at h
  split at h
  · cases h
  · rename_i ps hps
    exact ⟨ps, forall₂_of_buildAll hps, h⟩

/-- Whatever is built from a tree is the part of something that the tree denotes. -/
def BuildsAs {α : Type} (text : List Char) (of : α → Part) (denotes : Tree → α → Prop)
    (t : Tree) : Prop :=
  ∀ p, build text t = .ok p → ∃ a, p = of a ∧ denotes t a

theorem BuildsAs.forall₂ {α : Type} {of : α → Part} {denotes : Tree → α → Prop} {ts : List Tree}
    {ps : List Part} (h : ∀ t ∈ ts, BuildsAs text of denotes t)
    (hb : List.Forall₂ (fun t p => build text t = .ok p) ts ps) :
    ∃ as, ps = as.map of ∧ List.Forall₂ denotes ts as := by
  induction hb with
  | nil => exact ⟨[], rfl, .nil⟩
  | @cons t p ts ps hp _ ih =>
    obtain ⟨a, rfl, ha⟩ := h t List.mem_cons_self p hp
    obtain ⟨as, rfl, has⟩ := ih fun s hs => h s (List.mem_cons_of_mem t hs)
    exact ⟨a :: as, rfl, .cons ha has⟩

theorem forall₂_snoc {α β : Type} {R : α → β → Prop} {as : List α} {a : α} {bs : List β}
    (h : List.Forall₂ R (as ++ [a]) bs) :
    ∃ cs c, bs = cs ++ [c] ∧ List.Forall₂ R as cs ∧ R a c := by
  induction as generalizing bs with
  | nil =>
    obtain _ | ⟨hc, _ | _⟩ := h
    exact ⟨[], _, rfl, .nil, hc⟩
  | cons b as ih =>
    obtain _ | ⟨hb, hrest⟩ := h
    obtain ⟨cs, c, rfl, hcs, hc⟩ := ih hrest
    exact ⟨_ :: cs, c, rfl, .cons hb hcs, hc⟩

theorem build_token {t : Token} {p : Part} (h : build text t.tree = .ok p) :
    p = .token (.known t.terminal) t.text t.range := (Except.ok.inj h).symm

end Tree

open ClassLang.Tree DerivationTree
open ClassLang.Part (ofInitial ofProperty ofType ofArgument ofLeaf textsFrom text? held?)

variable (text : List Char)

/-! ### Values and properties -/

theorem kept_value (d : DerivationTree (.rule .value)) :
    ∃ (r : Option Range) (t : Token), d.kept = [.node (.known .value) r [t.tree]] := by
  obtain ⟨t, ht, -, hp⟩ := value_cases d
  have hpunct : t.tree.isPunctuation = false := by
    cases t with
    | mk k text range => cases k <;> first | rfl | cases ht
  refine ⟨Tree.cover [t.tree], t, ?_⟩
  rw [← pieces_eq_kept, hp, Tree.close, List.filter_singleton, hpunct]
  rfl

theorem builds_value (d : DerivationTree (.rule .value)) :
    ∃ t, d.kept = [t] ∧ BuildsAs text Part.value DenotesValue t := by
  obtain ⟨r, t, hk⟩ := kept_value d
  refine ⟨_, hk, ?_⟩
  intro p hp
  obtain ⟨ps, hps, hnode⟩ := build_node hp
  obtain _ | ⟨hq, _ | _⟩ := hps
  obtain rfl := build_token hq
  simp only [Build.node, Build.value, Build.first, List.head?_cons, bind, Except.bind] at hnode
  split at hnode
  · rename_i v hv
    exact ⟨v, (Except.ok.inj hnode).symm, .literal hv⟩
  · cases hnode

theorem builds_initial (d : DerivationTree .initial) :
    ∃ t, d.kept = [t] ∧ BuildsAs text ofInitial DenotesInitial t := by
  match d with
  | .absent => exact ⟨.absent, rfl, fun p hp => ⟨none, (Except.ok.inj hp).symm, .absent⟩⟩
  | .present (.seq (.terminal s hs) e) =>
    obtain ⟨t, hk, ht⟩ := builds_value text e
    refine ⟨t, hk, ?_⟩
    intro p hp
    obtain ⟨v, rfl, hv⟩ := ht p hp
    exact ⟨some v, rfl, .present hv⟩

theorem builds_mark {k : Terminal} (d : DerivationTree (.maybe (.terminal k)))
    (hk : k.isPunctuation = false) :
    ∃ t, d.kept = [t] ∧ ∀ p, t.build text = .ok p → Marks k t (!p.isAbsent) := by
  match d with
  | .absent =>
    refine ⟨.absent, rfl, ?_⟩
    intro p hp
    obtain rfl := Except.ok.inj hp
    exact .absent
  | .present (.terminal t ht) =>
    refine ⟨t.tree, ?_, ?_⟩
    · rw [kept, kept, hk, cond_false]
    · intro p hp
      obtain rfl := build_token hp
      rw [Token.tree, ht]
      exact .present

theorem builds_property (d : DerivationTree (.rule .property)) :
    ∃ t, d.kept = [t] ∧ BuildsAs text ofProperty DenotesProperty t := by
  match d with
  | .rule (.seq (.seq mark (.terminal t ht)) initial) =>
    obtain ⟨m, hm, hmark⟩ := builds_mark text mark rfl
    obtain ⟨v, hv, hvalue⟩ := builds_initial text initial
    refine ⟨.node (.known .property) _ (mark.kept ++ [t.tree] ++ initial.kept), rfl, ?_⟩
    intro p hp
    obtain ⟨ps, hps, hnode⟩ := build_node hp
    rw [hm, hv] at hps
    obtain _ | ⟨hpm, _ | ⟨hpt, _ | ⟨hpv, _ | _⟩⟩⟩ := hps
    obtain rfl := build_token hpt
    obtain ⟨initial?, rfl, hinitial⟩ := hvalue _ hpv
    simp only [Build.node, Build.property, Build.triple, bind, Except.bind, ht] at hnode
    obtain rfl := Except.ok.inj hnode
    refine ⟨⟨t.text, initial?, _⟩, rfl, ?_⟩
    rw [hm, hv, Token.tree, ht]
    exact .property (hmark _ hpm) ⟨t.range, rfl⟩ hinitial

def ofProperties (ps : List Property) : Part := .tree (.known .properties) none (ps.map ofProperty)

theorem builds_list (d : DerivationTree (.rule .properties)) :
    ∃ t, d.kept = [t] ∧ BuildsAs text ofProperties DenotesList t := by
  match d with
  | .rule (.seq (.seq (.terminal b hb) items) (.terminal c hc)) =>
    refine ⟨.node (.known .properties) _ ([] ++ items.kept ++ []), rfl, ?_⟩
    intro p hp
    obtain ⟨ps, hps, hnode⟩ := build_node hp
    rw [List.nil_append, List.append_nil] at hps ⊢
    have hitems : ∀ t ∈ items.kept, BuildsAs text ofProperty DenotesProperty t := by
      intro t ht
      obtain ⟨e, he⟩ := mem_kept_separated items ht
      exact of_kept (builds_property text e) he
    obtain ⟨as, rfl, has⟩ := BuildsAs.forall₂ hitems hps
    exact ⟨as, (Except.ok.inj hnode).symm, .list has⟩

/-! ### Types -/

theorem kept_names {k : Terminal} (hk : k.isPunctuation = true)
    (d : DerivationTree (.many (.seq (.terminal k) (.terminal .identifier)))) :
    ∃ ts : List Token, (∀ t ∈ ts, t.terminal = .identifier) ∧ d.kept = ts.map Token.tree := by
  match d with
  | .none => exact ⟨[], nofun, rfl⟩
  | .more (.seq (.terminal s hs) (.terminal t ht)) rest =>
    obtain ⟨ts, hts, hrest⟩ := kept_names hk rest
    refine ⟨t :: ts, List.forall_mem_cons.2 ⟨ht, hts⟩, ?_⟩
    simp only [kept, hk, cond_true, List.nil_append, hrest, List.map_cons]
    rfl

theorem build_names {ts : List Token} {ps : List Part}
    (h : List.Forall₂ (fun t p => Tree.build text t = .ok p) (ts.map Token.tree) ps) :
    ps = ts.map fun t => .token (.known t.terminal) t.text t.range := by
  induction ts generalizing ps with
  | nil =>
    cases h
    rfl
  | cons t ts ih =>
    cases h with
    | cons hp hps => rw [build_token hp, ih hps, List.map_cons]

theorem forall₂_isName {ts : List Token} (h : ∀ t ∈ ts, t.terminal = .identifier) :
    List.Forall₂ IsName (ts.map Token.tree) (ts.map Token.text) := by
  induction ts with
  | nil => exact .nil
  | cons t ts ih =>
    refine .cons ⟨t.range, ?_⟩ (ih fun u hu => h u (List.mem_cons_of_mem t hu))
    rw [Token.tree, h t List.mem_cons_self]

theorem mapM_held (rule : Rule) (ts : List Token) :
    (ts.map fun t => Part.token (.known t.terminal) t.text t.range).mapM (Build.held rule) =
      .ok (ts.map fun t => .word t.text) := by
  induction ts with
  | nil => rfl
  | cons t ts ih =>
    rw [List.map_cons, List.mapM_cons, ih]
    rfl

theorem textsFrom_words (place : Nat) (ts : List Token) :
    textsFrom place (ts.map fun t => .word t.text) = .ok (ts.map Token.text) := by
  induction ts generalizing place with
  | nil => rfl
  | cons t ts ih =>
    rw [List.map_cons, textsFrom, text?, ih]
    rfl

theorem type_ofName (name : String) : ofType (.ofName name) = .type (.ofName name) := by
  rw [DataType.ofName]
  split <;> rfl

theorem builds_typeName {r : Option Range} {ts : List Token}
    (h : ∀ t ∈ ts, t.terminal = .identifier) :
    BuildsAs text ofType DenotesType (.node (.known .typeName) r (ts.map Token.tree)) := by
  intro p hp
  obtain ⟨ps, hps, hnode⟩ := build_node hp
  obtain rfl := build_names text hps
  simp only [Build.node, Build.typeName, mapM_held, bind, Except.bind, textsFrom_words] at hnode
  obtain rfl := Except.ok.inj hnode
  exact ⟨_, (type_ofName _).symm, .name (forall₂_isName h)⟩

theorem last_snoc (rule : Rule) (ps : List Part) (p : Part) :
    Build.last rule (ps ++ [p]) = .ok p := by
  rw [Build.last, List.getLast?_concat]

theorem builds_layer {rule : Rule} {r : Option Range} {t : Tree} (front : List Tree) {l : Layer}
    (h : BuildsAs text ofType DenotesType t)
    (hb : ∀ ps, Build.node text rule r ps = Build.layer rule l ps)
    (ho : ∀ d, ofType (l.wrap d) = .layer l (ofType d))
    (hd : ∀ d, DenotesType t d → DenotesType (.node (.known rule) r (front ++ [t])) (l.wrap d)) :
    BuildsAs text ofType DenotesType (.node (.known rule) r (front ++ [t])) := by
  intro p hp
  obtain ⟨ps, hps, hnode⟩ := build_node hp
  obtain ⟨qs, q, rfl, -, hq⟩ := forall₂_snoc hps
  obtain ⟨d, rfl, ht⟩ := h q hq
  rw [hb, Build.layer, last_snoc] at hnode
  obtain rfl := Except.ok.inj hnode
  exact ⟨l.wrap d, (ho d).symm, hd d ht⟩

theorem builds_type (d : DerivationTree .type) :
    ∃ t, d.kept = [t] ∧ BuildsAs text ofType DenotesType t := by
  match d with
  | .type (.left (.left (.left (.left (.left (.rule (.seq (.terminal t ht) e))))))) =>
    obtain ⟨ts, hts, hk⟩ := kept_names rfl e
    have hall : ([t.tree] ++ e.kept) = (t :: ts).map Token.tree := by rw [hk]; rfl
    refine ⟨.node (.known .typeName) _ ([t.tree] ++ e.kept), rfl, ?_⟩
    rw [hall]
    exact builds_typeName text (List.forall_mem_cons.2 ⟨ht, hts⟩)
  | .type (.left (.left (.left (.left (.right (.rule (.seq e (.terminal s hs)))))))) =>
    obtain ⟨t, hk, ht⟩ := builds_type e
    refine ⟨.node (.known .pointerType) _ (e.kept ++ []), rfl, ?_⟩
    rw [hk]
    exact builds_layer text [] ht (fun _ => rfl) (fun _ => rfl) fun _ => .pointer
  | .type (.left (.left (.left (.right (.rule (.seq e (.terminal s hs))))))) =>
    obtain ⟨t, hk, ht⟩ := builds_type e
    refine ⟨.node (.known .doublePointerType) _ (e.kept ++ []), rfl, ?_⟩
    rw [hk]
    exact builds_layer text [] ht (fun _ => rfl) (fun _ => rfl) fun _ => .doublePointer
  | .type (.left (.left (.right (.rule (.seq e (.terminal s hs)))))) =>
    obtain ⟨t, hk, ht⟩ := builds_type e
    refine ⟨.node (.known .referenceType) _ (e.kept ++ []), rfl, ?_⟩
    rw [hk]
    exact builds_layer text [] ht (fun _ => rfl) (fun _ => rfl) fun _ => .reference
  | .type (.left (.right (.rule (.seq (.seq e (.terminal b hb)) (.terminal s hs))))) =>
    obtain ⟨t, hk, ht⟩ := builds_type e
    refine ⟨.node (.known .arrayType) _ (e.kept ++ [] ++ []), rfl, ?_⟩
    rw [hk]
    exact builds_layer text [] ht (fun _ => rfl) (fun _ => rfl) fun _ => .array
  | .type (.right (.rule (.seq (.seq (.terminal m hm) e) (.terminal s hs)))) =>
    obtain ⟨t, hk, ht⟩ := builds_type e
    refine ⟨.node (.known .matrixType) _ ([m.tree] ++ e.kept ++ []), rfl, ?_⟩
    rw [hk, List.append_nil]
    refine builds_layer text [m.tree] ht (fun _ => rfl) (fun _ => rfl) ?_
    rw [Token.tree, hm]
    exact fun _ => .matrix
  termination_by d.size
  decreasing_by
    all_goals
      simp only [size]
      omega

theorem builds_spelling (d : DerivationTree (.rule .typeSpelling)) :
    ∃ t, d.kept = [t] ∧ ∀ p, t.build text = .ok p → ∃ written type isConst,
      p = .spelling written (ofType type) isConst ∧
        DenotesSpelling text t written type isConst := by
  match d with
  | .rule (.seq mark e) =>
    obtain ⟨m, hm, hmark⟩ := builds_mark text mark rfl
    obtain ⟨t, hk, ht⟩ := builds_type text e
    refine ⟨.node (.known .typeSpelling) _ (mark.kept ++ e.kept), rfl, ?_⟩
    intro p hp
    obtain ⟨ps, hps, hnode⟩ := build_node hp
    rw [hm, hk] at hps ⊢
    obtain _ | ⟨hpm, _ | ⟨hpt, _ | _⟩⟩ := hps
    obtain ⟨type, rfl, htype⟩ := ht _ hpt
    simp only [Build.node, Build.typeSpelling, Build.pair, bind, Except.bind] at hnode
    split at hnode
    · cases hnode
    · rename_i range hrange
      obtain rfl := Except.ok.inj hnode
      refine ⟨_, type, _, rfl, ?_⟩
      rw [hrange]
      exact .spelling (hmark _ hpm) htype

/-! ### Arguments, fields and methods -/

theorem builds_list? (d : DerivationTree (.maybe (.rule .properties))) :
    ∃ t, d.kept = [t] ∧ ∀ p, t.build text = .ok p → ∃ ps : List Property,
      (p = .absent ∧ ps = [] ∨ p = ofProperties ps) ∧ DenotesList? t ps := by
  match d with
  | .absent =>
    refine ⟨.absent, rfl, ?_⟩
    intro p hp
    obtain rfl := Except.ok.inj hp
    exact ⟨[], Or.inl ⟨rfl, rfl⟩, .absent⟩
  | .present e =>
    obtain ⟨t, hk, ht⟩ := builds_list text e
    refine ⟨t, hk, ?_⟩
    intro p hp
    obtain ⟨ps, rfl, hps⟩ := ht p hp
    exact ⟨ps, Or.inr rfl, .present hps⟩

theorem childrenOf?_list {p : Part} {ps : List Property} (rule : Rule)
    (h : p = .absent ∧ ps = [] ∨ p = ofProperties ps) :
    Build.childrenOf? rule p = .ok (ps.map ofProperty) := by
  rcases h with ⟨rfl, rfl⟩ | rfl <;> rfl

theorem builds_argument (d : DerivationTree (.rule .argument)) :
    ∃ t, d.kept = [t] ∧ BuildsAs text ofArgument (DenotesArgument text) t := by
  match d with
  | .rule (.seq (.seq (.seq list spelling) (.terminal t ht)) initial) =>
    obtain ⟨l, hl, hlist⟩ := builds_list? text list
    obtain ⟨s, hs, hspelling⟩ := builds_spelling text spelling
    obtain ⟨v, hv, hvalue⟩ := builds_initial text initial
    refine ⟨.node (.known .argument) _ (list.kept ++ spelling.kept ++ [t.tree] ++ initial.kept),
      rfl, ?_⟩
    intro p hp
    obtain ⟨ps, hps, hnode⟩ := build_node hp
    rw [hl, hs, hv] at hps ⊢
    obtain _ | ⟨hpl, _ | ⟨hps, _ | ⟨hpt, _ | ⟨hpv, _ | _⟩⟩⟩⟩ := hps
    obtain ⟨properties, hpart, hproperties⟩ := hlist _ hpl
    have hchildren := childrenOf?_list .argument hpart
    obtain ⟨written, type, isConst, rfl, htype⟩ := hspelling _ hps
    obtain rfl := build_token hpt
    obtain ⟨initial?, rfl, hinitial⟩ := hvalue _ hpv
    simp only [Build.node, Build.argument, Build.quadruple, hchildren, bind, Except.bind] at hnode
    obtain rfl := Except.ok.inj hnode
    rw [Token.tree, ht]
    exact ⟨⟨t.text, written, initial?, properties⟩, rfl,
      .argument hproperties htype ⟨t.range, rfl⟩ hinitial⟩

theorem builds_arguments (d : DerivationTree (.maybe (.rule .arguments))) :
    ∃ t, d.kept = [t] ∧ ∀ p, t.build text = .ok p → ∃ as : List Argument,
      Build.childrenOf? .methodDecl p = .ok (as.map ofArgument) ∧ DenoteArguments text t as := by
  match d with
  | .absent =>
    refine ⟨.absent, rfl, ?_⟩
    intro p hp
    obtain rfl := Except.ok.inj hp
    exact ⟨[], rfl, .absent⟩
  | .present (.rule items) =>
    refine ⟨.node (.known .arguments) _ items.kept, rfl, ?_⟩
    intro p hp
    obtain ⟨ps, hps, hnode⟩ := build_node hp
    have hitems : ∀ t ∈ items.kept, BuildsAs text ofArgument (DenotesArgument text) t := by
      intro t ht
      obtain ⟨e, he⟩ := mem_kept_separated items ht
      exact of_kept (builds_argument text e) he
    obtain ⟨as, rfl, has⟩ := BuildsAs.forall₂ hitems hps
    obtain rfl := Except.ok.inj hnode
    exact ⟨as, rfl, .present has⟩

theorem builds_field (d : DerivationTree (.rule .fieldDecl)) :
    ∃ t, d.kept = [t] ∧ BuildsAs text ofLeaf (DenotesMember text []) t := by
  match d with
  | .rule (.seq (.seq (.seq (.seq mark spelling) (.terminal t ht)) initial) (.terminal c hc)) =>
    obtain ⟨m, hm, hmark⟩ := builds_mark text mark rfl
    obtain ⟨s, hs, hspelling⟩ := builds_spelling text spelling
    obtain ⟨v, hv, hvalue⟩ := builds_initial text initial
    refine ⟨.node (.known .fieldDecl) _
      (mark.kept ++ spelling.kept ++ [t.tree] ++ initial.kept ++ []), rfl, ?_⟩
    intro p hp
    obtain ⟨ps, hps, hnode⟩ := build_node hp
    rw [hm, hs, hv] at hps ⊢
    obtain _ | ⟨hpm, _ | ⟨hps, _ | ⟨hpt, _ | ⟨hpv, _ | _⟩⟩⟩⟩ := hps
    obtain ⟨written, type, isConst, rfl, htype⟩ := hspelling _ hps
    obtain rfl := build_token hpt
    obtain ⟨initial?, rfl, hinitial⟩ := hvalue _ hpv
    cases isConst with
    | true =>
      simp only [Build.node, Build.field, Build.quadruple, bind, Except.bind, if_true] at hnode
      cases hnode
    | false =>
      simp only [Build.node, Build.field, Build.quadruple, bind, Except.bind, Bool.false_eq_true,
        if_false, Build.held, held?] at hnode
      obtain rfl := Except.ok.inj hnode
      rw [Token.tree, ht]
      exact ⟨.field ⟨t.text, type, initial?, [], _⟩, rfl,
        .field (hmark _ hpm) htype ⟨t.range, rfl⟩ hinitial⟩

theorem builds_method (d : DerivationTree (.rule .methodDecl)) :
    ∃ t, d.kept = [t] ∧ BuildsAs text ofLeaf (DenotesMember text []) t := by
  match d with
  | .rule (.seq (.seq (.seq (.seq (.seq (.seq mark spelling) (.terminal t ht)) (.terminal b hb))
      arguments) (.terminal e he)) (.terminal c hc)) =>
    obtain ⟨m, hm, hmark⟩ := builds_mark text mark rfl
    obtain ⟨s, hs, hspelling⟩ := builds_spelling text spelling
    obtain ⟨a, ha, hargument⟩ := builds_arguments text arguments
    refine ⟨.node (.known .methodDecl) _
      (mark.kept ++ spelling.kept ++ [t.tree] ++ [] ++ arguments.kept ++ [] ++ []), rfl, ?_⟩
    intro p hp
    obtain ⟨ps, hps, hnode⟩ := build_node hp
    rw [hm, hs, ha] at hps ⊢
    obtain _ | ⟨hpm, _ | ⟨hps, _ | ⟨hpt, _ | ⟨hpa, _ | _⟩⟩⟩⟩ := hps
    obtain ⟨written, type, isConst, rfl, htype⟩ := hspelling _ hps
    obtain rfl := build_token hpt
    obtain ⟨as, hchildren, has⟩ := hargument _ hpa
    simp only [Build.node, Build.method, Build.quadruple, bind, Except.bind, hchildren, Build.held,
      held?] at hnode
    obtain rfl := Except.ok.inj hnode
    rw [Token.tree, ht]
    exact ⟨.method ⟨t.text, written, as, [], _⟩, rfl,
      .method (hmark _ hpm) htype ⟨t.range, rfl⟩ has⟩

end ClassLang
