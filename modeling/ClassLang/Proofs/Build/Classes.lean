import ClassLang.Parse
import ClassLang.Proofs.Build.Members
import ClassLang.Proofs.Flattening

/-!
# Building classes

Declarations take over the property lists in front of them, blocks hold declarations again, and a
class holds a body. What is built for them is what their nodes denote, so a text that is parsed
denotes its unit class by class. Main statement: the fields and methods below the node of a class
denote the leaves of the class, one leaf each, with the properties of the lists on the way down.
-/

namespace ClassLang

open ClassLang.Tree DerivationTree
open ClassLang.Part (ofProperty ofLeaf ofDeclaration ofDeclarations)

/-! ### Declarations -/

theorem Tree.DenotesMember.propagate {text : List Char} {ps : List Property} {t : Tree} {l : Leaf}
    (h : DenotesMember text ps t l) (inherited : List Property) :
    DenotesMember text (inherited ++ ps) t (l.propagate inherited) := by
  cases h with
  | field hm hs hn hv => exact .field hm hs hn hv
  | method hm hs hn ha => exact .method hm hs hn ha

theorem ofDeclarations_eq_map (ds : List Declaration) :
    ofDeclarations ds = ds.map ofDeclaration := by
  induction ds with
  | nil => rfl
  | cons d ds ih => rw [ofDeclarations, ih, List.map_cons]

theorem isDeclaration_ofDeclaration (d : Declaration) : (ofDeclaration d).isDeclaration = true := by
  cases d with
  | leaf l => cases l <;> rfl
  | block ps inner => rfl

theorem addProperties_ofDeclaration (ps : List Property) (d : Declaration) :
    (ofDeclaration d).addProperties (ps.map ofProperty) = ofDeclaration (d.addProperties ps) := by
  cases d with
  | leaf l =>
    cases l <;> simp only [ofDeclaration, ofLeaf, Part.addProperties, Declaration.addProperties,
      Leaf.propagate, List.map_append]
  | block qs inner =>
    simp only [ofDeclaration, Part.addProperties, Declaration.addProperties, List.map_append]

theorem mapM_childrenOf (pss : List (List Property)) :
    (pss.map ofProperties).mapM (Build.childrenOf .declaration) =
      .ok (pss.map fun ps => ps.map ofProperty) := by
  induction pss with
  | nil => rfl
  | cons ps pss ih =>
    rw [List.map_cons, List.mapM_cons, ih]
    rfl

theorem declaration_ofDeclaration (site : Build.Site) (pss : List (List Property))
    (d : Declaration) :
    Build.declaration site (pss.map ofProperties ++ [ofDeclaration d]) =
      .ok (ofDeclaration (d.addProperties pss.flatten)) := by
  rw [← addProperties_ofDeclaration, List.map_flatten]
  simp only [Build.declaration, last_snoc, List.dropLast_concat, mapM_childrenOf, bind,
    Except.bind, isDeclaration_ofDeclaration, if_true]

variable (text : List Char)

theorem builds_lists (d : DerivationTree (.many (.rule .properties))) :
    ∀ t ∈ d.kept, BuildsAs text ofProperties DenotesList t := by
  intro t ht
  obtain ⟨e, he, -⟩ := mem_kept_many d ht
  exact of_kept (builds_list text e) he

/-- What is built for a declaration without its property lists, and what it denotes with some. -/
def BuildsDeclared (t : Tree) : Prop :=
  ∀ p, t.build text = .ok p → ∃ d, p = ofDeclaration d ∧
    ∀ r lists ps, DenoteLists lists ps → DenotesDeclaration text
      (.node (.known .declaration) r (lists ++ [t])) (d.addProperties ps)

theorem buildsDeclared_of_leaf {t : Tree} (h : BuildsAs text ofLeaf (DenotesMember text []) t) :
    BuildsDeclared text t := by
  intro p hp
  obtain ⟨l, rfl, hl⟩ := h p hp
  refine ⟨.leaf l, rfl, ?_⟩
  intro r lists ps hlists
  have hmember := hl.propagate ps
  rw [List.append_nil] at hmember
  exact .leaf hlists hmember

theorem buildsDeclared_of_block {rb ri : Option Range} {ts : List Tree}
    (h : ∀ t ∈ ts, BuildsAs text ofDeclaration (DenotesDeclaration text) t) :
    BuildsDeclared text (.node (.known .blockDecl) rb [.node (.known .body) ri ts]) := by
  intro p hp
  obtain ⟨ps, hps, hnode⟩ := build_node hp
  obtain _ | ⟨hbody, _ | _⟩ := hps
  obtain ⟨qs, hqs, hinner⟩ := build_node hbody
  obtain ⟨ds, rfl, hds⟩ := BuildsAs.forall₂ h hqs
  obtain rfl := Except.ok.inj hinner
  obtain rfl := Except.ok.inj hnode
  refine ⟨.block [] ds, by rw [ofDeclaration, ofDeclarations_eq_map]; rfl, ?_⟩
  intro r lists ps hlists
  rw [Declaration.addProperties, List.append_nil]
  exact .block hlists hds

theorem buildsAs_declaration {r : Option Range} {lists : List Tree} {t : Tree}
    (hl : ∀ t ∈ lists, BuildsAs text ofProperties DenotesList t) (ht : BuildsDeclared text t) :
    BuildsAs text ofDeclaration (DenotesDeclaration text)
      (.node (.known .declaration) r (lists ++ [t])) := by
  intro p hp
  obtain ⟨ps, hps, hnode⟩ := build_node hp
  obtain ⟨qs, q, rfl, hqs, hq⟩ := forall₂_snoc hps
  obtain ⟨pss, rfl, hpss⟩ := BuildsAs.forall₂ hl hqs
  obtain ⟨d, rfl, hd⟩ := ht q hq
  rw [Build.node, declaration_ofDeclaration] at hnode
  obtain rfl := Except.ok.inj hnode
  exact ⟨_, rfl, hd r lists _ ⟨pss, hpss, rfl⟩⟩

mutual

theorem builds_declaration (d : DerivationTree (.rule .declaration)) :
    ∃ t, d.kept = [t] ∧ BuildsAs text ofDeclaration (DenotesDeclaration text) t := by
  match d with
  | .rule (.seq lists (.left (.left e))) =>
    obtain ⟨t, hk, ht⟩ := builds_field text e
    refine ⟨.node (.known .declaration) _ (lists.kept ++ e.kept), rfl, ?_⟩
    rw [hk]
    exact buildsAs_declaration text (builds_lists text lists) (buildsDeclared_of_leaf text ht)
  | .rule (.seq lists (.left (.right e))) =>
    obtain ⟨t, hk, ht⟩ := builds_method text e
    refine ⟨.node (.known .declaration) _ (lists.kept ++ e.kept), rfl, ?_⟩
    rw [hk]
    exact buildsAs_declaration text (builds_lists text lists) (buildsDeclared_of_leaf text ht)
  | .rule (.seq lists (.right (.rule (.seq (.seq (.terminal b hb) (.rule e)) (.terminal c hc))))) =>
    refine ⟨.node (.known .declaration) _ (lists.kept ++ [.node (.known .blockDecl) _
      ([] ++ [.node (.known .body) _ e.kept] ++ [])]), rfl, ?_⟩
    exact buildsAs_declaration text (builds_lists text lists)
      (buildsDeclared_of_block text (builds_declarations e))
  termination_by d.size
  decreasing_by
    simp only [size, Rule.phrase]
    omega

theorem builds_declarations (d : DerivationTree (.many (.rule .declaration))) :
    ∀ t ∈ d.kept, BuildsAs text ofDeclaration (DenotesDeclaration text) t := by
  intro t ht
  obtain ⟨e, he, hs⟩ := mem_kept_many d ht
  exact of_kept (builds_declaration e) he
  termination_by d.size

end

/-! ### Classes and units -/

theorem builds_bases (d : DerivationTree (.maybe (.rule .inheritance))) :
    ∃ t, d.kept = [t] ∧ ∀ p, t.build text = .ok p → ∃ names : List String,
      (p = .absent ∧ names = [] ∨ p = .tree (.known .inheritance) none (names.map .word)) ∧
        DenoteBases t names := by
  match d with
  | .absent =>
    refine ⟨.absent, rfl, ?_⟩
    intro p hp
    obtain rfl := Except.ok.inj hp
    exact ⟨[], Or.inl ⟨rfl, rfl⟩, .absent⟩
  | .present (.rule (.seq (.terminal c hc) (.seq (.terminal t ht) rest))) =>
    obtain ⟨ts, hts, hk⟩ := kept_names rfl rest
    refine ⟨.node (.known .inheritance) _ ([] ++ ([t.tree] ++ rest.kept)), rfl, ?_⟩
    intro p hp
    have hall : [] ++ ([t.tree] ++ rest.kept) = (t :: ts).map Token.tree := by rw [hk]; rfl
    rw [hall] at hp ⊢
    obtain ⟨ps, hps, hnode⟩ := build_node hp
    obtain rfl := build_names text hps
    simp only [Build.node, Build.inheritance, mapM_held, bind, Except.bind] at hnode
    obtain rfl := Except.ok.inj hnode
    refine ⟨(t :: ts).map Token.text, Or.inr ?_, ?_⟩
    · rw [List.map_map]
      rfl
    · exact .present (forall₂_isName (List.forall_mem_cons.2 ⟨ht, hts⟩))

theorem classDecl_parts (site : Build.Site) {list bases : Part} {ps : List Property}
    {names : List String} {keyword name : String} {range range' : Range} {inner : List Part}
    (hl : list = .absent ∧ ps = [] ∨ list = ofProperties ps)
    (hb : bases = .absent ∧ names = [] ∨
      bases = .tree (.known .inheritance) none (names.map .word)) :
    Build.classDecl site [list, .token (.known .kwClass) keyword range,
      .token (.known .identifier) name range', bases, .tree (.known .body) none inner] =
        if name.isEmpty then site.refuse .classNameMissing
        else .ok (.classDecl name (names.map .word) (ps.map ofProperty) inner) := by
  rcases hl with ⟨rfl, rfl⟩ | rfl <;> rcases hb with ⟨rfl, rfl⟩ | rfl <;> rfl

theorem builds_class (d : DerivationTree (.rule .classDecl)) :
    ∃ t, d.kept = [t] ∧ BuildsAs text Part.ofClass (DenotesClass text) t := by
  match d with
  | .rule (.seq (.seq (.seq (.seq (.seq (.seq list (.terminal k hk)) (.terminal n hn)) supers)
      (.terminal b hb)) (.rule e)) (.terminal c hc)) =>
    obtain ⟨l, hl, hlist⟩ := builds_list? text list
    obtain ⟨i, hi, hbases⟩ := builds_bases text supers
    refine ⟨.node (.known .classDecl) _ (list.kept ++ [k.tree] ++ [n.tree] ++ supers.kept ++ [] ++
      [.node (.known .body) _ e.kept] ++ []), rfl, ?_⟩
    intro p hp
    obtain ⟨ps, hps, hnode⟩ := build_node hp
    rw [hl, hi] at hps ⊢
    obtain _ | ⟨hpl, _ | ⟨hpk, _ | ⟨hpn, _ | ⟨hpi, _ | ⟨hpe, _ | _⟩⟩⟩⟩⟩ := hps
    obtain ⟨properties, hlpart, hproperties⟩ := hlist _ hpl
    obtain rfl := build_token hpk
    obtain rfl := build_token hpn
    obtain ⟨names, hipart, hnames⟩ := hbases _ hpi
    obtain ⟨qs, hqs, hbody⟩ := build_node hpe
    obtain ⟨ds, rfl, hds⟩ := BuildsAs.forall₂ (builds_declarations text e) hqs
    obtain rfl := Except.ok.inj hbody
    rw [Build.node, hk, hn, classDecl_parts _ hlpart hipart] at hnode
    split at hnode
    · cases hnode
    · obtain rfl := Except.ok.inj hnode
      refine ⟨⟨n.text, names, properties, ⟨[], ds⟩⟩, ?_, ?_⟩
      · rw [Part.ofClass, ofDeclarations_eq_map]
      · rw [Token.tree, hk, Token.tree, hn]
        exact .classDecl hproperties ⟨n.range, rfl⟩ hnames hds

theorem builds_unit (d : DerivationTree (.rule .unit)) :
    ∃ range ts, d.kept = [.node (.known .unit) range ts] ∧
      ∀ p, (Tree.node (.known .unit) range ts).build text = .ok p →
        ∃ cs, p = Part.ofUnit ⟨cs⟩ ∧ List.Forall₂ (DenotesClass text) ts cs := by
  match d with
  | .rule e =>
    refine ⟨_, e.kept, rfl, ?_⟩
    intro p hp
    obtain ⟨ps, hps, hnode⟩ := build_node hp
    have hclasses : ∀ t ∈ e.kept, BuildsAs text Part.ofClass (DenotesClass text) t := by
      intro t ht
      obtain ⟨e', he, -⟩ := mem_kept_many e ht
      exact of_kept (builds_class text e') he
    obtain ⟨cs, rfl, hcs⟩ := BuildsAs.forall₂ hclasses hps
    exact ⟨cs, (Except.ok.inj hnode).symm, hcs⟩

/-! ### Members and leaves -/

variable {text} {lists : List Tree} {t : Tree}

namespace Tree

attribute [local simp] members membersAll

theorem membersAll_append (ts us : List Tree) :
    membersAll lists (ts ++ us) = membersAll lists ts ++ membersAll lists us := by
  induction ts with
  | nil => rfl
  | cons t ts ih => rw [List.cons_append, membersAll, membersAll, ih, List.append_assoc]

theorem membersAll_eq_nil {ts : List Tree} (h : ∀ t ∈ ts, t.members lists = []) :
    membersAll lists ts = [] := by
  induction ts with
  | nil => rfl
  | cons t ts ih =>
    rw [membersAll, h t List.mem_cons_self, ih fun s hs => h s (List.mem_cons_of_mem t hs)]
    rfl

theorem members_name {name : String} (h : t.IsName name) : t.members lists = [] := by
  obtain ⟨range, rfl⟩ := h
  rw [members]

theorem members_mark {k : Terminal} {b : Bool} (h : Marks k t b) : t.members lists = [] := by
  cases h <;> rw [members]

theorem members_initial {v : Option Value} (h : DenotesInitial t v) : t.members lists = [] := by
  cases h with
  | absent => rw [members]
  | present h =>
    cases h with
    | literal h => simp only [members, membersAll, List.append_nil]

theorem members_property {p : Property} (h : DenotesProperty t p) : t.members lists = [] := by
  cases h with
  | property hm hn hv =>
    simp only [members, membersAll, members_mark hm, members_name hn, members_initial hv,
      List.append_nil]

theorem forall_of_forall₂ {α β : Type} {R : α → β → Prop} {P : α → Prop} {as : List α}
    {bs : List β} (h : List.Forall₂ R as bs) (hp : ∀ a b, R a b → P a) : ∀ a ∈ as, P a := by
  induction h with
  | nil => exact nofun
  | cons ht _ ih => exact List.forall_mem_cons.2 ⟨hp _ _ ht, ih⟩

theorem members_list {ps : List Property} (h : DenotesList t ps) : t.members lists = [] := by
  cases h with
  | list h =>
    rw [members]
    · exact membersAll_eq_nil (forall_of_forall₂ h fun _ _ => members_property)
    all_goals exact nofun

theorem members_list? {ps : List Property} (h : DenotesList? t ps) : t.members lists = [] := by
  cases h with
  | absent => rw [members]
  | present h => exact members_list h

theorem members_bases {names : List String} (h : DenoteBases t names) : t.members lists = [] := by
  cases h with
  | absent => rw [members]
  | present h =>
    rw [members]
    · exact membersAll_eq_nil (forall_of_forall₂ h fun _ _ => members_name)
    all_goals exact nofun

theorem isPropertyList_of_denotes {ps : List Property} (h : DenotesList t ps) :
    t.isPropertyList = true := by
  cases h
  rfl

theorem filter_isPropertyList {ls : List Tree} {pss : List (List Property)}
    (h : List.Forall₂ DenotesList ls pss) (ht : t.isPropertyList = false) :
    (ls ++ [t]).filter isPropertyList = ls := by
  rw [List.filter_append, List.filter_singleton, ht, cond_false, List.append_nil]
  exact List.filter_eq_self.2 (forall_of_forall₂ h fun _ _ => isPropertyList_of_denotes)

theorem members_declaration {r : Option Range} {ls : List Tree} {pss : List (List Property)}
    (h : List.Forall₂ DenotesList ls pss) (ht : t.isPropertyList = false) :
    (node (.known .declaration) r (ls ++ [t])).members lists = t.members (lists ++ ls) := by
  rw [members, filter_isPropertyList h ht, membersAll_append,
    membersAll_eq_nil (forall_of_forall₂ h fun _ _ => members_list), List.nil_append]
  simp only [membersAll, List.append_nil]

theorem DenoteLists.append {ls ms : List Tree} {ps qs : List Property} (h : DenoteLists ls ps)
    (h' : DenoteLists ms qs) : DenoteLists (ls ++ ms) (ps ++ qs) := by
  obtain ⟨pss, hpss, rfl⟩ := h
  obtain ⟨qss, hqss, rfl⟩ := h'
  exact ⟨pss ++ qss, List.rel_append hpss hqss, List.flatten_append.symm⟩

/-- A leaf is denoted by a member whose properties are those of the lists that come with it. -/
def DenotesLeaf (text : List Char) (m : List Tree × Tree) (l : Leaf) : Prop :=
  ∃ ps, DenoteLists m.1 ps ∧ DenotesMember text ps m.2 l

theorem members_member {ps : List Property} {l : Leaf} (h : DenotesMember text ps t l) :
    t.members lists = [(lists, t)] := by
  cases h <;> rw [members]

theorem isPropertyList_member {ps : List Property} {l : Leaf} (h : DenotesMember text ps t l) :
    t.isPropertyList = false := by
  cases h <;> rfl

end Tree

mutual

theorem leaves_of_declaration : (d : Declaration) → ∀ {lists : List Tree}
    {inherited : List Property} {t : Tree}, DenoteLists lists inherited →
      DenotesDeclaration text t d →
        List.Forall₂ (DenotesLeaf text) (t.members lists) (d.sourceLeaves inherited)
  | .leaf l => by
    intro hl h
    cases h with
    | leaf hls hm =>
      have hlists := hl.append hls
      obtain ⟨pss, hpss, rfl⟩ := hls
      rw [members_declaration hpss (isPropertyList_member hm), members_member hm,
        Declaration.sourceLeaves]
      exact .cons ⟨_, hlists, hm.propagate _⟩ .nil
  | .block ps ds => by
    intro hl h
    cases h with
    | block hls hi =>
      have hlists := hl.append hls
      obtain ⟨pss, hpss, rfl⟩ := hls
      rw [members_declaration hpss rfl, Declaration.sourceLeaves]
      simp only [members, membersAll, List.append_nil]
      exact leaves_of_declarations ds hlists hi

theorem leaves_of_declarations : (ds : List Declaration) → ∀ {lists : List Tree}
    {inherited : List Property} {ts : List Tree}, DenoteLists lists inherited →
      List.Forall₂ (DenotesDeclaration text) ts ds →
        List.Forall₂ (DenotesLeaf text) (membersAll lists ts) (sourceLeaves inherited ds)
  | [] => by
    intro hl h
    cases h
    exact .nil
  | d :: ds => by
    intro hl h
    cases h with
    | cons hd hds =>
      rw [membersAll, sourceLeaves]
      exact List.rel_append (leaves_of_declaration d hl hd) (leaves_of_declarations ds hl hds)

end

theorem leaves_of_class {c : Class} (h : DenotesClass text t c) :
    List.Forall₂ (DenotesLeaf text) (t.members []) (sourceLeaves [] c.body.inner) := by
  cases h with
  | classDecl hl hn hb hi =>
    have hnil : DenoteLists [] [] := ⟨[], .nil, rfl⟩
    simp only [members, membersAll, members_list? hl, members_name hn, members_bases hb,
      List.nil_append, List.append_nil]
    exact leaves_of_declarations _ hnil hi

theorem body_properties_of_class {c : Class} (h : DenotesClass text t c) :
    c.body.properties = [] := by
  cases h
  rfl

/-! ### From text to leaves -/

theorem parse_cases {u : SourceUnit} (h : parse text = .ok u) :
    ∃ tree part, tokenize .unit text = .ok tree ∧ tree.build text = .ok part ∧
      u = part.unit?.getD ⟨[]⟩ := by
  rw [parse] at h
  cases htree : tokenize .unit text with
  | error e =>
    rw [htree] at h
    cases h
  | ok tree =>
    rw [htree] at h
    cases hpart : tree.build text with
    | error e =>
      simp only [bind, Except.bind, hpart] at h
      cases h
    | ok part =>
      simp only [bind, Except.bind, hpart] at h
      exact ⟨tree, part, rfl, hpart, (Except.ok.inj h).symm⟩

theorem classes_of_parse {u : SourceUnit} (h : parse text = .ok u) :
    ∃ range ts, tokenize .unit text = .ok (.node (.known .unit) range ts) ∧
      List.Forall₂ (DenotesClass text) ts u.classes := by
  obtain ⟨tree, part, htree, hpart, rfl⟩ := parse_cases h
  obtain ⟨tokens, -, hderives⟩ := derives_of_read (read_of_tokenize htree)
  obtain ⟨d, -, hpieces⟩ := hderives.exists_derivationTree
  obtain ⟨range, ts, hkept, hbuilds⟩ := builds_unit text d
  have hnode : tree = .node (.known .unit) range ts := by
    have heq : [tree] = [.node (.known .unit) range ts] := by
      rw [← hpieces, ← hkept]
      exact pieces_eq_kept d
    exact (List.cons.inj heq).1
  subst hnode
  obtain ⟨cs, rfl, hcs⟩ := hbuilds part hpart
  have hbodies : ∀ c ∈ cs, c.body.properties = [] :=
    forall_of_forall₂ hcs.flip fun _ _ => body_properties_of_class
  rw [Part.unit?_ofUnit hbodies]
  exact ⟨range, ts, htree, hcs⟩

/-- From text to leaves no declaration is lost, doubled or given properties that are not its own:
the members below a class, in the order of the text, denote its leaves, up to the order in which
these are flattened. -/
theorem parse_denotes {u : SourceUnit} (h : parse text = .ok u) :
    ∃ range ts, tokenize .unit text = .ok (.node (.known .unit) range ts) ∧
      List.Forall₂ (fun t c => DenotesClass text t c ∧ ∃ ls : List Leaf,
        (ls.map .leaf).Perm c.body.normalize.inner ∧
          List.Forall₂ (DenotesLeaf text) (t.members []) ls) ts u.classes := by
  obtain ⟨range, ts, htree, hclasses⟩ := classes_of_parse h
  -- the leaves in the order of the text are a permutation of the flattened ones
  refine ⟨range, ts, htree, hclasses.imp ?_⟩
  intro t c hc
  have hbody : c.body = ⟨[], c.body.inner⟩ := by rw [← body_properties_of_class hc]
  have hperm := Block.sourceLeaves_perm_flat c.body.inner
  rw [← hbody] at hperm
  exact ⟨hc, _, hperm.map _, leaves_of_class hc⟩

/-- A block with stacked property lists beside a method. -/
def stackedLists : List Char :=
  "[p] class A : B \x7b[a=1] [b] \x7b [meta c] int x = 2; \x7d static void f(int y);\x7d".toList

theorem parse_denotes_stackedLists :
    ∃ u range ts, parse stackedLists = .ok u ∧
      tokenize .unit stackedLists = .ok (.node (.known .unit) range ts) ∧
      List.Forall₂ (fun t c => DenotesClass stackedLists t c ∧ ∃ ls : List Leaf,
        (ls.map .leaf).Perm c.body.normalize.inner ∧
          List.Forall₂ (DenotesLeaf stackedLists) (t.members []) ls) ts u.classes := by
  have hok : (parse stackedLists).toOption.isSome = true := by decide +kernel
  cases h : parse stackedLists with
  | error e =>
    rw [h] at hok
    cases hok
  | ok u =>
    obtain ⟨range, ts, htree, hclasses⟩ := parse_denotes h
    exact ⟨u, range, ts, rfl, htree, hclasses⟩

end ClassLang
