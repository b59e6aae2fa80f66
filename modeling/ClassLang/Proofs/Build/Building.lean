import ClassLang.Proofs.Build.Classes

/-!
# What is denoted is built

A tree that denotes something is built to the part of it. Only a class without a name is denoted and
not built, and no text has one. So what is built is told by what trees denote alone: a text whose
classes denote some classes is parsed to the unit of these (`parse_of_denotes`).
-/

namespace ClassLang

open ClassLang.Tree
open ClassLang.Part (ofInitial ofProperty ofType ofArgument ofLeaf ofDeclaration ofDeclarations
  ofClass ofUnit)

namespace Tree

variable {text : List Char}

theorem build_of_parts {r : Rule} {range : Option Range} {ts : List Tree} {ps : List Part}
    (h : buildAll text ts = .ok ps) :
    build text (.node (.known r) range ts) = Build.node text r range ps := by
  rw [build, h]

theorem buildAll_cons {t : Tree} {ts : List Tree} {p : Part} {ps : List Part}
    (h : build text t = .ok p) (h' : buildAll text ts = .ok ps) :
    buildAll text (t :: ts) = .ok (p :: ps) := by
  rw [buildAll, h, h']

theorem buildAll_snoc {t : Tree} {ts : List Tree} {p : Part} {ps : List Part}
    (h : buildAll text ts = .ok ps) (h' : build text t = .ok p) :
    buildAll text (ts ++ [t]) = .ok (ps ++ [p]) := by
  induction ts generalizing ps with
  | nil =>
    obtain rfl := Except.ok.inj h
    exact buildAll_cons h' rfl
  | cons s ts ih =>
    rw [buildAll] at h
    split at h
    · cases h
    · rename_i q hq
      split at h
      · cases h
      · rename_i qs hqs
        obtain rfl := Except.ok.inj h
        exact buildAll_cons hq (ih hqs)

theorem buildAll_of_forall₂ {α : Type} {of : α → Part} {denotes : Tree → α → Prop}
    {ts : List Tree} {as : List α} (h : List.Forall₂ denotes ts as)
    (hb : ∀ t a, denotes t a → build text t = .ok (of a)) :
    buildAll text ts = .ok (as.map of) := by
  induction h with
  | nil => rfl
  | cons ht _ ih => exact buildAll_cons (hb _ _ ht) ih

/-! ### Values and properties -/

theorem DenotesValue.build {t : Tree} {v : Value} (h : DenotesValue t v) :
    t.build text = .ok (.value v) := by
  cases h with
  | literal h =>
    rw [build_of_parts (buildAll_cons rfl rfl), Build.node, Build.value]
    simp only [Build.first, List.head?_cons, bind, Except.bind, h]

theorem DenotesInitial.build {t : Tree} {v : Option Value} (h : DenotesInitial t v) :
    t.build text = .ok (ofInitial v) := by
  cases h with
  | absent => rfl
  | present h => exact h.build

theorem IsName.build {t : Tree} {name : String} (h : t.IsName name) (text : List Char) :
    ∃ range, t.build text = .ok (.token (.known .identifier) name range) := by
  obtain ⟨range, rfl⟩ := h
  exact ⟨range, rfl⟩

theorem Marks.build {k : Terminal} {t : Tree} {b : Bool} (h : Marks k t b) (text : List Char) :
    ∃ p, t.build text = .ok p ∧ (!p.isAbsent) = b := by
  cases h with
  | absent => exact ⟨.absent, rfl, rfl⟩
  | present => exact ⟨_, rfl, rfl⟩

theorem DenotesProperty.build {t : Tree} {p : Property} (h : DenotesProperty t p) :
    t.build text = .ok (ofProperty p) := by
  cases h with
  | property hm hn hv =>
    obtain ⟨q, hq, rfl⟩ := hm.build text
    obtain ⟨range, hname⟩ := hn.build text
    rw [build_of_parts (buildAll_cons hq (buildAll_cons hname (buildAll_cons hv.build rfl)))]
    rfl

theorem DenotesList.build {t : Tree} {ps : List Property} (h : DenotesList t ps) :
    t.build text = .ok (ofProperties ps) := by
  cases h with
  | list h => exact build_of_parts (buildAll_of_forall₂ h fun _ _ => DenotesProperty.build)

theorem DenotesList?.build {t : Tree} {ps : List Property} (h : DenotesList? t ps)
    (text : List Char) :
    ∃ p, t.build text = .ok p ∧ (p = .absent ∧ ps = [] ∨ p = ofProperties ps) := by
  cases h with
  | absent => exact ⟨.absent, rfl, Or.inl ⟨rfl, rfl⟩⟩
  | present h => exact ⟨_, h.build, Or.inr rfl⟩

/-! ### Types -/

theorem buildAll_names {ts : List Tree} {names : List String} (h : List.Forall₂ IsName ts names)
    (text : List Char) (rule : Rule) :
    ∃ ps, buildAll text ts = .ok ps ∧ ps.mapM (Build.held rule) = .ok (names.map .word) := by
  induction h with
  | nil => exact ⟨[], rfl, rfl⟩
  | cons hn _ ih =>
    obtain ⟨range, hname⟩ := hn.build text
    obtain ⟨ps, hps, hheld⟩ := ih
    refine ⟨_, buildAll_cons hname hps, ?_⟩
    rw [List.mapM_cons, hheld]
    rfl

theorem textsFrom_map_word (place : Nat) (names : List String) :
    Part.textsFrom place (names.map .word) = .ok names := by
  induction names generalizing place with
  | nil => rfl
  | cons name names ih =>
    rw [List.map_cons, Part.textsFrom, Part.text?, ih]
    rfl

theorem DenotesType.build {t : Tree} {d : DataType} (h : DenotesType t d) :
    t.build text = .ok (ofType d) := by
  induction h with
  | name h =>
    obtain ⟨ps, hps, hheld⟩ := buildAll_names h text .typeName
    rw [build_of_parts hps, type_ofName]
    simp only [Build.node, Build.typeName, bind, Except.bind, hheld, textsFrom_map_word]
  | pointer _ ih => rw [build_of_parts (buildAll_cons ih rfl)]; rfl
  | doublePointer _ ih => rw [build_of_parts (buildAll_cons ih rfl)]; rfl
  | reference _ ih => rw [build_of_parts (buildAll_cons ih rfl)]; rfl
  | array _ ih => rw [build_of_parts (buildAll_cons ih rfl)]; rfl
  | matrix _ ih => rw [build_of_parts (buildAll_cons rfl (buildAll_cons ih rfl))]; rfl

theorem DenotesSpelling.build {t : Tree} {written : String} {d : DataType} {isConst : Bool}
    (h : DenotesSpelling text t written d isConst) :
    t.build text = .ok (.spelling written (ofType d) isConst) := by
  cases h with
  | spelling hm ht =>
    obtain ⟨q, hq, rfl⟩ := hm.build text
    rw [build_of_parts (buildAll_cons hq (buildAll_cons ht.build rfl))]
    rfl

/-! ### Members -/

theorem DenotesArgument.build {t : Tree} {a : Argument} (h : DenotesArgument text t a) :
    t.build text = .ok (ofArgument a) := by
  cases h with
  | argument hl hs hn hv =>
    obtain ⟨p, hp, hlist⟩ := hl.build text
    obtain ⟨range, hname⟩ := hn.build text
    rw [build_of_parts (buildAll_cons hp (buildAll_cons hs.build (buildAll_cons hname
      (buildAll_cons hv.build rfl))))]
    simp only [Build.node, Build.argument, Build.quadruple, bind, Except.bind,
      childrenOf?_list .argument hlist]
    rfl

theorem DenoteArguments.build {t : Tree} {as : List Argument} (h : DenoteArguments text t as) :
    ∃ p, t.build text = .ok p ∧
      Build.childrenOf? .methodDecl p = .ok (as.map ofArgument) := by
  cases h with
  | absent => exact ⟨.absent, rfl, rfl⟩
  | present h =>
    have hall := buildAll_of_forall₂ h fun _ _ => DenotesArgument.build
    exact ⟨_, build_of_parts hall, rfl⟩

/-- A member is built without the properties that it is given. -/
theorem DenotesMember.build {ps : List Property} {t : Tree} {l : Leaf}
    (h : DenotesMember text ps t l) :
    ∃ l₀, t.build text = .ok (ofLeaf l₀) ∧ l = l₀.propagate ps := by
  cases h with
  | @field r mark spelling name initial id written d v isStatic hm hs hn hv =>
    obtain ⟨q, hq, rfl⟩ := hm.build text
    obtain ⟨range, hname⟩ := hn.build text
    refine ⟨.field ⟨id, d, v, [], !q.isAbsent⟩, ?_, ?_⟩
    · rw [build_of_parts (buildAll_cons hq (buildAll_cons hs.build (buildAll_cons hname
        (buildAll_cons hv.build rfl))))]
      rfl
    · simp only [Leaf.propagate, List.append_nil]
  | @method r mark spelling name arguments id written d isConst as isStatic hm hs hn ha =>
    obtain ⟨q, hq, rfl⟩ := hm.build text
    obtain ⟨range, hname⟩ := hn.build text
    obtain ⟨p, hp, hchildren⟩ := ha.build
    refine ⟨.method ⟨id, written, as, [], !q.isAbsent⟩, ?_, ?_⟩
    · rw [build_of_parts (buildAll_cons hq (buildAll_cons hs.build (buildAll_cons hname
        (buildAll_cons hp rfl))))]
      simp only [Build.node, Build.method, Build.quadruple, bind, Except.bind, hchildren]
      rfl
    · simp only [Leaf.propagate, List.append_nil]

/-! ### Declarations and classes -/

theorem buildAll_lists {lists : List Tree} {ps : List Property} (h : DenoteLists lists ps)
    (text : List Char) :
    ∃ pss : List (List Property), buildAll text lists = .ok (pss.map ofProperties) ∧
      ps = pss.flatten := by
  obtain ⟨pss, hpss, rfl⟩ := h
  exact ⟨pss, buildAll_of_forall₂ hpss fun _ _ => DenotesList.build, rfl⟩

/-- The node of a declaration is built when what its lists stand in front of is. -/
theorem build_declared {r : Option Range} {lists : List Tree} {t : Tree} {ps : List Property}
    {d : Declaration} (h : DenoteLists lists ps) (ht : t.build text = .ok (ofDeclaration d)) :
    (node (.known .declaration) r (lists ++ [t])).build text =
      .ok (ofDeclaration (d.addProperties ps)) := by
  obtain ⟨pss, hlists, rfl⟩ := buildAll_lists h text
  rw [build_of_parts (buildAll_snoc hlists ht), Build.node, declaration_ofDeclaration]

theorem build_block {rb ri : Option Range} {ts : List Tree} {ds : List Declaration}
    (h : buildAll text ts = .ok (ofDeclarations ds)) :
    (node (.known .blockDecl) rb [node (.known .body) ri ts]).build text =
      .ok (ofDeclaration (.block [] ds)) := by
  rw [build_of_parts (buildAll_cons (build_of_parts h) rfl)]
  rfl

mutual

theorem DenotesDeclaration.build : (d : Declaration) → {t : Tree} → DenotesDeclaration text t d →
    t.build text = .ok (ofDeclaration d)
  | .leaf l, _, h => by
    cases h with
    | leaf hl hm =>
      obtain ⟨l₀, hb, rfl⟩ := hm.build
      exact build_declared (d := .leaf l₀) hl hb
  | .block ps ds, _, h => by
    cases h with
    | block hl hi =>
      rw [build_declared hl (build_block (DenoteDeclarations.build ds hi)),
        Declaration.addProperties, List.append_nil]

theorem DenoteDeclarations.build : (ds : List Declaration) → {ts : List Tree} →
    List.Forall₂ (DenotesDeclaration text) ts ds → buildAll text ts = .ok (ofDeclarations ds)
  | [], _, h => by
    cases h
    rfl
  | d :: ds, _, h => by
    cases h with
    | cons hd hds =>
      exact buildAll_cons (DenotesDeclaration.build d hd) (DenoteDeclarations.build ds hds)

end

theorem DenoteBases.build {t : Tree} {names : List String} (h : DenoteBases t names)
    (text : List Char) :
    ∃ p, t.build text = .ok p ∧ (p = .absent ∧ names = [] ∨
      p = .tree (.known .inheritance) none (names.map .word)) := by
  cases h with
  | absent => exact ⟨.absent, rfl, Or.inl ⟨rfl, rfl⟩⟩
  | @present r ts names h =>
    obtain ⟨ps, hps, hheld⟩ := buildAll_names h text .inheritance
    refine ⟨.tree (.known .inheritance) none (names.map .word), ?_, Or.inr rfl⟩
    rw [build_of_parts hps, Build.node, Build.inheritance]
    simp only [bind, Except.bind, hheld]

/-- Only a class without a name is denoted and not built. -/
theorem DenotesClass.build {t : Tree} {c : Class} (h : DenotesClass text t c) :
    ∃ site : Build.Site, t.build text =
      if c.name.isEmpty then site.refuse .classNameMissing else .ok (ofClass c) := by
  cases h with
  | @classDecl r ri list name bases keyword id range inner ps names ds hl hname hb hi =>
    obtain ⟨p, hp, hlist⟩ := hl.build text
    obtain ⟨range', hid⟩ := hname.build text
    obtain ⟨q, hq, hbases⟩ := hb.build text
    have hbody : (node (.known .body) ri inner).build text =
        Build.node text .body ri (ofDeclarations ds) :=
      build_of_parts (DenoteDeclarations.build ds hi)
    refine ⟨⟨text, r⟩, ?_⟩
    rw [build_of_parts (buildAll_cons hp (buildAll_cons rfl (buildAll_cons hid (buildAll_cons hq
      (buildAll_cons hbody rfl)))))]
    exact classDecl_parts ⟨text, r⟩ hlist hbases

theorem buildAll_classes {ts : List Tree} {cs : List Class}
    (h : List.Forall₂ (DenotesClass text) ts cs) (hn : ∀ c ∈ cs, c.name.isEmpty = false) :
    buildAll text ts = .ok (cs.map ofClass) := by
  induction h with
  | nil => rfl
  | cons hc _ ih =>
    obtain ⟨hname, hnames⟩ := List.forall_mem_cons.1 hn
    obtain ⟨site, hb⟩ := hc.build
    rw [hname] at hb
    exact buildAll_cons hb (ih hnames)

/-- Classes that are built have a name. -/
theorem names_of_builds {ts : List Tree} {cs : List Class} {ps : List Part}
    (h : List.Forall₂ (DenotesClass text) ts cs)
    (hb : List.Forall₂ (fun t p => build text t = .ok p) ts ps) :
    ∀ c ∈ cs, c.name.isEmpty = false := by
  induction h generalizing ps with
  | nil => exact nofun
  | @cons t c ts cs hc _ ih =>
    obtain _ | ⟨ht, hts⟩ := hb
    obtain ⟨site, hclass⟩ := hc.build
    refine List.forall_mem_cons.2 ⟨?_, ih hts⟩
    by_contra hname
    rw [Bool.not_eq_false] at hname
    rw [ht, hname] at hclass
    cases hclass

end Tree

/-! ### Texts -/

theorem build_of_denotes {text : List Char} {range : Option Range} {ts : List Tree}
    {cs : List Class} (hc : List.Forall₂ (DenotesClass text) ts cs)
    (hn : ∀ c ∈ cs, c.name.isEmpty = false) :
    (Tree.node (.known .unit) range ts).build text = .ok (ofUnit ⟨cs⟩) :=
  build_of_parts (buildAll_classes hc hn)

theorem parse_of_build {text : List Char} {tree : Tree} {u : SourceUnit}
    (h : tokenize .unit text = .ok tree) (hb : tree.build text = .ok (ofUnit u))
    (hbodies : ∀ c ∈ u.classes, c.body.properties = []) : parse text = .ok u := by
  rw [parse, h]
  simp only [bind, Except.bind, hb]
  exact congrArg (fun u => Except.ok (u.getD ⟨[]⟩)) (Part.unit?_ofUnit hbodies)

theorem bodies_of_denotes {text : List Char} {ts : List Tree} {cs : List Class}
    (hc : List.Forall₂ (DenotesClass text) ts cs) : ∀ c ∈ cs, c.body.properties = [] :=
  forall_of_forall₂ hc.flip fun _ _ => body_properties_of_class

/-- A text is parsed to the classes that its tree denotes, if all of them have a name. -/
theorem parse_of_denotes {text : List Char} {range : Option Range} {ts : List Tree}
    {cs : List Class} (h : tokenize .unit text = .ok (.node (.known .unit) range ts))
    (hc : List.Forall₂ (DenotesClass text) ts cs) (hn : ∀ c ∈ cs, c.name.isEmpty = false) :
    parse text = .ok ⟨cs⟩ :=
  parse_of_build h (build_of_denotes hc hn) (bodies_of_denotes hc)

theorem names_of_parse {text : List Char} {u : SourceUnit} (h : parse text = .ok u) :
    ∀ c ∈ u.classes, c.name.isEmpty = false := by
  obtain ⟨range, ts, htree, hclasses⟩ := classes_of_parse h
  obtain ⟨tree, part, htree', hpart, -⟩ := parse_cases h
  obtain rfl := Except.ok.inj (htree'.symm.trans htree)
  obtain ⟨ps, hps, -⟩ := build_node hpart
  exact names_of_builds hclasses hps

end ClassLang
