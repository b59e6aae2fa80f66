import ClassLang.Proofs.Build.AddedList
import ClassLang.Proofs.Syntax.Embedding

/-!
# One rule inside another

What a text gives when it is read as one rule is what it gives inside a larger text that is read as
another. What a tree denotes is the same in the larger text, since types are spelled there as they
are spelled in the smaller one. Main statement: `parseRule_agree`.
-/

namespace ClassLang

open ClassLang.Tree DerivationTree
open ClassLang.Part (ofProperty ofType ofDeclaration ofDeclarations ofBlock ofClass)

variable {text other : List Char} {tree : Tree} {p q : Part} {ts : List Tree}
  {ds : List Declaration}

theorem parseRule_of_build {r : StartRule} (h : r.read text = .ok tree)
    (hb : tree.build text = .ok p) : parseRule r text = .ok p.settle := by
  rw [parseRule_of_read h, hb]
  rfl

theorem settle_ofType (d : DataType) : (ofType d).settle = ofType d := by
  cases d <;> rfl

theorem filter_pieces_relocate (m : Relocation) (ts : List Tree) :
    (ts.map (Tree.relocate m)).filter (fun t => !t.isPunctuation) =
      (ts.filter fun t => !t.isPunctuation).map (Tree.relocate m) := by
  induction ts with
  | nil => rfl
  | cons t ts ih =>
    rw [List.map_cons, List.filter_cons, List.filter_cons, isPunctuation_relocate, ih]
    split <;> rfl

/-! ### Declarations in larger texts -/

namespace Tree

theorem DenoteDeclarations.elsewhere {text' : List Char} {m : Relocation}
    (h : List.Forall₂ (DenotesDeclaration text) ts ds)
    (hf : ∀ t ∈ ts, Faithful id text text' m t) :
    List.Forall₂ (DenotesDeclaration text') (ts.map (Tree.relocate m)) ds := by
  obtain ⟨es, hes, heq⟩ := DenoteDeclarations.relocate ds h hf
  rw [Declaration.respellAll_id, Declaration.respellAll_id] at heq
  exact heq ▸ hes

/-- More text behind a body does not change what its declarations denote. -/
theorem DenoteDeclarations.ahead {range : Option Range}
    (hr : StartRule.body.read text = .ok (.node (.known .body) range ts))
    (h : List.Forall₂ (DenotesDeclaration text) ts ds) (ext : List Char) :
    List.Forall₂ (DenotesDeclaration (text ++ ext)) ts ds := by
  have hfaithful : ∀ t ∈ ts, Faithful id text (text ++ ext) ⟨id, id⟩ t := by
    intro t ht r hmem
    have hall := spellingsAll_subset_node (.known .body) range ts (spellings_subset_all ht hmem)
    exact congrArg (fun cs => String.ofList (Layout.collapse cs)) (slice_spelling hr hall ext)
  have hsame := elsewhere h hfaithful
  rwa [map_eq_self Tree.relocate_id] at hsame

/-- Text on lines in front of a body does not change what its declarations denote. -/
theorem DenoteDeclarations.behind (front : List Char)
    (h : List.Forall₂ (DenotesDeclaration text) ts ds) :
    List.Forall₂ (DenotesDeclaration (front ++ '\n' :: text))
      (ts.map (Tree.relocate (.behind front))) ds :=
  elsewhere h fun _ _ => faithful_behind front _

theorem build_body {range : Option Range} (h : List.Forall₂ (DenotesDeclaration text) ts ds) :
    (node (.known .body) range ts).build text =
      .ok (.tree (.known .body) none (ofDeclarations ds)) :=
  build_of_parts (DenoteDeclarations.build ds h)

end Tree

/-- What is parsed as a body is the block of what its declarations denote. -/
theorem denotes_of_body (h : parseRule .body text = .ok p) :
    ∃ range ts ds, StartRule.body.read text = .ok (.node (.known .body) range ts) ∧
      List.Forall₂ (DenotesDeclaration text) ts ds ∧ p = ofBlock ⟨[], ds⟩ := by
  obtain ⟨tree, q, hread, hbuild, rfl⟩ := parseRule_cases h
  obtain ⟨d, hkept⟩ := exists_kept hread
  match d with
  | .rule e =>
    obtain rfl := (List.cons.inj hkept).1
    obtain ⟨qs, hqs, hnode⟩ := build_node hbuild
    obtain ⟨ds, rfl, hds⟩ := BuildsAs.forall₂ (builds_declarations text e) hqs
    obtain rfl := Except.ok.inj hnode
    refine ⟨_, _, ds, hread, hds, ?_⟩
    rw [ofBlock, ofDeclarations_eq_map]
    rfl

/-! ### Members, declarations and bodies -/

theorem parseRule_declaration_of_member {l : Leaf} (hm : DenotesMember text [] tree l)
    (h : StartRule.declaration.read text = .ok (Tree.close .declaration [tree])) :
    parseRule .declaration text = .ok (ofDeclaration (.leaf l)) := by
  have hkept : Tree.close .declaration [tree] =
      .node (.known .declaration) (cover [tree]) ([] ++ [tree]) := by
    cases hm <;> rfl
  have hlists : DenoteLists [] [] := ⟨[], .nil, rfl⟩
  exact parseRule_of_denotes h (hkept ▸ .leaf hlists hm)

/-- A field or a method is a declaration without property lists. -/
theorem parseRule_declaration (r : StartRule) (hr : r ∈ [.fieldDecl, .methodDecl])
    (h : parseRule r text = .ok p) : parseRule .declaration text = .ok p := by
  simp only [List.mem_cons, List.not_mem_nil, or_false] at hr
  rcases hr with rfl | rfl
  · obtain ⟨tree, l, hread, hl, rfl⟩ := denotes_of_parseRule h (builds_field text)
    rw [parseRule_declaration_of_member hl (StartRule.read_declaration_of_field hread)]
    exact congrArg Except.ok (settle_ofDeclaration (.leaf l)).symm
  · obtain ⟨tree, l, hread, hl, rfl⟩ := denotes_of_parseRule h (builds_method text)
    rw [parseRule_declaration_of_member hl (StartRule.read_declaration_of_method hread)]
    exact congrArg Except.ok (settle_ofDeclaration (.leaf l)).symm

theorem parseRule_body (h : parseRule .declaration text = .ok p) :
    parseRule .body text = .ok (.block [] [p]) := by
  obtain ⟨tree, d, hread, hd, rfl⟩ := denotes_of_parseRule h (builds_declaration text)
  obtain ⟨range, ts, rfl⟩ := exists_node hd
  have hbody : (Tree.close .body [.node (.known .declaration) range ts]).build text =
      .ok (.tree (.known .body) none (ofDeclarations [d])) := build_body (.cons hd .nil)
  rw [parseRule_of_build (StartRule.read_body_of_declaration hread) hbody, settle_ofDeclaration]
  rfl

/-- Bodies on lines of their own are one body. -/
theorem parseRule_bodies (h : parseRule .body text = .ok p) (h' : parseRule .body other = .ok q) :
    ∃ ds es, p = ofBlock ⟨[], ds⟩ ∧ q = ofBlock ⟨[], es⟩ ∧
      parseRule .body (text ++ '\n' :: other) = .ok (ofBlock ⟨[], ds ++ es⟩) := by
  obtain ⟨range, ts, ds, hread, hds, rfl⟩ := denotes_of_body h
  obtain ⟨range', ts', es, hread', hes, rfl⟩ := denotes_of_body h'
  obtain ⟨ps, qs, hps, hqs, hboth⟩ := StartRule.read_bodies hread hread'
  obtain ⟨-, -, rfl⟩ := Tree.node.inj hps
  obtain ⟨-, -, rfl⟩ := Tree.node.inj hqs
  have hahead := DenoteDeclarations.ahead hread hds ('\n' :: other)
  have hbehind := DenoteDeclarations.behind text hes
  rw [← filter_pieces_relocate] at hbehind
  have hall : List.Forall₂ (DenotesDeclaration (text ++ '\n' :: other))
      (ps.filter (fun t => !t.isPunctuation) ++ _) (ds ++ es) := List.rel_append hahead hbehind
  rw [← List.filter_append] at hall
  exact ⟨ds, es, rfl, rfl, parseRule_of_build hboth (build_body hall)⟩

/-- A body on lines of its own is the body of a class. -/
theorem parse_inClass {name : List Char} (hn : Pattern.IsName name)
    (h : parseRule .body text = .ok p) :
    ∃ b : Block, p = ofBlock b ∧ b.properties = [] ∧
      parseRule .classDecl (inClass name text) = .ok (ofClass ⟨String.ofList name, [], [], b⟩) ∧
      parse (inClass name text) = .ok ⟨[⟨String.ofList name, [], [], b⟩]⟩ := by
  obtain ⟨range, ts, ds, hread, hds, rfl⟩ := denotes_of_body h
  obtain ⟨front, k, n, b, c, hk, hname, hb, hc, htext, heq, whole, hwhole, hclass, hunit⟩ :=
    StartRule.read_inClass hn hread
  have hahead := DenoteDeclarations.ahead hread hds "\n\x7d".toList
  have hinner := DenoteDeclarations.behind front hahead
  rw [← heq] at hinner
  have hdenotes :
      DenotesClass (inClass name text) whole ⟨String.ofList name, [], [], ⟨[], ds⟩⟩ := by
    rw [hwhole, relocate_node]
    simp only [Tree.close, Token.tree, hk, hname, hb, hc]
    rw [← htext]
    exact .classDecl .absent ⟨n.range, rfl⟩ .absent hinner
  have hnonempty : (String.ofList name).isEmpty = false := by
    cases name with
    | nil => exact hn.elim
    | cons c cs => simp
  refine ⟨⟨[], ds⟩, rfl, rfl, ?_, ?_⟩
  · obtain ⟨site, hbuild⟩ := hdenotes.build
    rw [hnonempty] at hbuild
    exact parseRule_of_build hclass hbuild
  · have htree : tokenize .unit (inClass name text) = .ok (Tree.close .unit [whole]) := by
      rw [tokenize, hunit]
    rw [hwhole] at htree hdenotes
    refine parse_of_denotes htree (.cons hdenotes .nil) ?_
    rintro c hmem
    rw [List.mem_singleton.1 hmem]
    exact hnonempty

/-! ### Properties, values and types -/

theorem parseRule_inBrackets (h : parseRule .property text = .ok p) :
    parseRule .properties (inBrackets text) = .ok (.list [p]) := by
  obtain ⟨tree, a, hread, ha, rfl⟩ := denotes_of_parseRule h (builds_property text)
  obtain ⟨b, c, m, hb, hc, hlist⟩ := StartRule.read_inBrackets hread
  have hdenotes : DenotesList (Tree.close .properties [b.tree, tree.relocate m, c.tree]) [a] := by
    have hmoved := ha.relocate (m := m)
    generalize tree.relocate m = moved at hmoved
    cases hmoved with
    | property hmark hname hv =>
      simp only [Tree.close, Token.tree, hb, hc]
      exact .list (.cons (.property hmark hname hv) .nil)
  exact parseRule_of_build hlist hdenotes.build

theorem parseRule_withName (h : parseRule .value text = .ok p) :
    parseRule .property (withName text) = .ok (.property "A" p false) := by
  obtain ⟨tree, v, hread, hv, rfl⟩ := denotes_of_parseRule h (builds_value text)
  obtain ⟨n, s, m, hn, htext, hs, hproperty⟩ := StartRule.read_withName hread
  have hdenotes : DenotesProperty (Tree.close .property [.absent, n.tree, s.tree, tree.relocate m])
      ⟨"A", some v, false⟩ := by
    have hmoved := hv.relocate (m := m)
    generalize tree.relocate m = moved at hmoved
    cases hmoved with
    | literal hliteral =>
      simp only [Tree.close, Token.tree, hn, htext, hs]
      exact .property .absent ⟨n.range, rfl⟩ (.present (.literal hliteral))
  exact parseRule_of_build hproperty hdenotes.build

theorem parseRule_asField (h : parseRule .typeDecl text = .ok p)
    (hstatic : StartRule.typeDecl.firstWord? text ≠ some "static".toList)
    (hconst : StartRule.typeDecl.firstWord? text ≠ some "const".toList) :
    parseRule .fieldDecl (asField text) = .ok (.field (.word "x") p .absent [] false) := by
  obtain ⟨tree, d, hread, hd, rfl⟩ := denotes_of_parseRule h (builds_type text)
  obtain ⟨n, s, hn, htext, hs, hcover, hfield⟩ := StartRule.read_asField hread hstatic hconst
  obtain ⟨range, hrange⟩ := Option.isSome_iff_exists.1 hcover
  have hdenotes : DenotesMember (asField text) [] (Tree.close .fieldDecl [.absent,
      Tree.close .typeSpelling [.absent, tree], n.tree, .absent, s.tree])
      (.field ⟨"x", d, none, [], false⟩) := by
    have hkept : Tree.close .typeSpelling [.absent, tree] =
        .node (.known .typeSpelling) (some range) [.absent, tree] := by
      rw [Tree.close, hrange]
      cases hd <;> rfl
    rw [hkept]
    simp only [Tree.close, Token.tree, hn, htext, hs]
    exact .field .absent (.spelling .absent hd) ⟨n.range, rfl⟩ .absent
  obtain ⟨l, hbuild, hl⟩ := hdenotes.build
  rw [Leaf.propagate_nil] at hl
  subst hl
  rw [settle_ofType]
  exact parseRule_of_build hfield hbuild

/-! ### All rules -/

/-- How what a text gives as one rule shows in larger texts. -/
structure RulesAgree (text : List Char) : Prop where
  /-- A field or a method is a declaration. -/
  member : ∀ r ∈ [StartRule.fieldDecl, .methodDecl], ∀ p, parseRule r text = .ok p →
    parseRule .declaration text = .ok p
  /-- A declaration is a body. -/
  declaration : ∀ p, parseRule .declaration text = .ok p →
    parseRule .body text = .ok (.block [] [p])
  /-- A body is that of a class, and the class is a unit. -/
  body : ∀ p, parseRule .body text = .ok p → ∀ name, Pattern.IsName name →
    ∃ b : Block, p = ofBlock b ∧ b.properties = [] ∧
      parseRule .classDecl (inClass name text) = .ok (ofClass ⟨String.ofList name, [], [], b⟩) ∧
      parse (inClass name text) = .ok ⟨[⟨String.ofList name, [], [], b⟩]⟩
  /-- Two bodies are one. -/
  bodies : ∀ p other q, parseRule .body text = .ok p → parseRule .body other = .ok q →
    ∃ ds es, p = ofBlock ⟨[], ds⟩ ∧ q = ofBlock ⟨[], es⟩ ∧
      parseRule .body (text ++ '\n' :: other) = .ok (ofBlock ⟨[], ds ++ es⟩)
  /-- A property is a list. -/
  property : ∀ p, parseRule .property text = .ok p →
    parseRule .properties (inBrackets text) = .ok (.list [p])
  /-- A value is that of a property. -/
  value : ∀ p, parseRule .value text = .ok p →
    parseRule .property (withName text) = .ok (.property "A" p false)
  /-- A type is that of a field, unless its first word is taken for a mark of the field. -/
  type : ∀ p, parseRule .typeDecl text = .ok p →
    StartRule.typeDecl.firstWord? text ≠ some "static".toList →
    StartRule.typeDecl.firstWord? text ≠ some "const".toList →
    parseRule .fieldDecl (asField text) = .ok (.field (.word "x") p .absent [] false)

/-- The rules under which a text can be read agree with one another. -/
theorem parseRule_agree (text : List Char) : RulesAgree text where
  member r hr _ h := parseRule_declaration r hr h
  declaration _ h := parseRule_body h
  body _ h _ hn := parse_inClass hn h
  bodies _ _ _ h h' := parseRule_bodies h h'
  property _ h := parseRule_inBrackets h
  value _ h := parseRule_withName h
  type _ h hstatic hconst := parseRule_asField h hstatic hconst

/-- A body with a written type in it, in a class with the name `class`. -/
theorem parseRule_agree_class :
    ∃ b : Block, parseRule .body "const  int f(); static A g;".toList = .ok (ofBlock b) ∧
      parse (inClass "class".toList "const  int f(); static A g;".toList) =
        .ok ⟨[⟨"class", [], [], b⟩]⟩ := by
  have hok : (parseRule .body "const  int f(); static A g;".toList).toOption.isSome = true := by
    decide +kernel
  have hname : Pattern.IsName "class".toList := ⟨rfl, List.all_eq_true.1 rfl⟩
  obtain ⟨p, hp⟩ := exists_ok_of_isSome hok
  obtain ⟨b, rfl, -, -, hclass⟩ := (parseRule_agree _).body p hp _ hname
  exact ⟨b, hp, hclass⟩

/-- A class may be named like the mark of a field, and then no field has its type. -/
example : (parseRule .typeDecl "static".toList).toOption.isSome = true ∧
    (parseRule .fieldDecl (asField "static".toList)).toOption.isSome = false := by
  decide +kernel

end ClassLang
