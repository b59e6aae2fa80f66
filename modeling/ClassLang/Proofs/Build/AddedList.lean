import ClassLang.Proofs.Build.Concatenation
import ClassLang.Proofs.Syntax.BehindList

/-!
# Adding a property list

A property list on the line before a declaration adds its properties in front of those of the
declaration and changes nothing else, unless the declaration starts with the word `class`: then the
two together are rejected (`parseRule_behind_list`).
-/

namespace ClassLang

open ClassLang.Tree DerivationTree
open ClassLang.Part (ofProperty ofDeclaration)

variable {text other : List Char}

theorem parseRule_cases {r : StartRule} {p : Part} (h : parseRule r text = .ok p) :
    ∃ tree q, r.read text = .ok tree ∧ tree.build text = .ok q ∧ p = q.settle := by
  cases hread : r.read text with
  | error cause =>
    rw [parseRule_of_error hread] at h
    cases h
  | ok tree =>
    rw [parseRule_of_read hread] at h
    cases hbuild : tree.build text with
    | error f =>
      rw [hbuild] at h
      cases h
    | ok q =>
      rw [hbuild] at h
      exact ⟨tree, q, rfl, hbuild, (Except.ok.inj h).symm⟩

theorem settle_ofDeclaration (d : Declaration) : (ofDeclaration d).settle = ofDeclaration d := by
  cases d with
  | leaf l => cases l <;> rfl
  | block ps inner => rfl

theorem exists_kept {r : StartRule} {tree : Tree} (h : r.read text = .ok tree) :
    ∃ d : DerivationTree r.phrase, d.kept = [tree] := by
  obtain ⟨ts, -, hderives⟩ := derives_of_read h
  obtain ⟨d, -, hpieces⟩ := hderives.exists_derivationTree
  exact ⟨d, kept_of_pieces d hpieces⟩

/-- What is parsed as a rule is what the tree of the rule denotes. -/
theorem denotes_of_parseRule {α : Type} {of : α → Part} {denotes : Tree → α → Prop} {r : StartRule}
    {p : Part} (h : parseRule r text = .ok p)
    (hb : ∀ d : DerivationTree r.phrase, ∃ t, d.kept = [t] ∧ BuildsAs text of denotes t) :
    ∃ tree a, r.read text = .ok tree ∧ denotes tree a ∧ p = (of a).settle := by
  obtain ⟨tree, q, hread, hbuild, rfl⟩ := parseRule_cases h
  obtain ⟨d, hkept⟩ := exists_kept hread
  obtain ⟨t, hk, hbuilds⟩ := hb d
  obtain rfl : t = tree := (List.cons.inj (hk.symm.trans hkept)).1
  obtain ⟨a, rfl, ha⟩ := hbuilds q hbuild
  exact ⟨t, a, hread, ha, rfl⟩

theorem parseRule_of_denotes {tree : Tree} {d : Declaration}
    (h : StartRule.declaration.read text = .ok tree) (hd : DenotesDeclaration text tree d) :
    parseRule .declaration text = .ok (ofDeclaration d) := by
  rw [parseRule_of_read h, DenotesDeclaration.build d hd]
  exact congrArg Except.ok (settle_ofDeclaration d)

/-- One more list in front of a declaration adds its properties. -/
theorem Tree.DenotesDeclaration.cons {r r' : Option Range} {list : Tree} {ts : List Tree}
    {ps : List Property} {d : Declaration}
    (h : DenotesDeclaration text (.node (.known .declaration) r ts) d) (hl : DenotesList list ps) :
    DenotesDeclaration text (.node (.known .declaration) r' (list :: ts)) (d.addProperties ps) := by
  have hlist : DenoteLists [list] ps := ⟨[ps], .cons hl .nil, (List.append_nil ps).symm⟩
  cases h with
  | leaf hls hm => exact .leaf (hlist.append hls) (hm.propagate ps)
  | block hls hi => exact .block (hlist.append hls) hi

theorem exists_node {tree : Tree} {d : Declaration} (h : DenotesDeclaration text tree d) :
    ∃ r ts, tree = .node (.known .declaration) r ts := by
  cases h with
  | leaf => exact ⟨_, _, rfl⟩
  | block => exact ⟨_, _, rfl⟩

theorem denotes_behind_list {front : List Char} {list tree : Tree} {ps : List Property}
    {d : Declaration} (h : DenotesDeclaration text tree d) (hl : DenotesList list ps) :
    DenotesDeclaration (front ++ '\n' :: text) ((Frame.behind front [] [list]).root tree)
      (d.addProperties ps) := by
  obtain ⟨e, he, heq⟩ := DenotesDeclaration.relocate (f := id) d h
    (faithful_behind front (front.count '\n' + 1))
  rw [Declaration.respell_id, Declaration.respell_id] at heq
  subst heq
  have hkept : [list].filter (fun t => !t.isPunctuation) = [list] := by
    cases hl
    rfl
  obtain ⟨r, ts, rfl⟩ := exists_node h
  have hroot : (Frame.behind front [] [list]).root (.node (.known .declaration) r ts) =
      .node (.known .declaration) (Range.join (cover [list]) (r.map (Range.relocate
        (.shift (front.length + 1) (front.count '\n' + 1))))) (list :: relocateAll
          (.shift (front.length + 1) (front.count '\n' + 1)) ts) :=
    congrArg (fun us => Tree.node _ _ (us ++ _)) hkept
  rw [hroot]
  exact he.cons hl

/-- What becomes of a property list on the line before a declaration: its properties come in front
of those of the declaration, and everything else stays as it is, if the first word of the
declaration is not `class`. Otherwise the grammar rejects the two together. -/
theorem parseRule_behind_list {p q : Part} (hl : parseRule .properties text = .ok p)
    (hd : parseRule .declaration other = .ok q) :
    ∃ (ps : List Property) (d : Declaration), p = .list (ps.map ofProperty) ∧ q = ofDeclaration d ∧
      (StartRule.declaration.firstWord? other ≠ some "class".toList →
        parseRule .declaration (text ++ '\n' :: other) = .ok (ofDeclaration (d.addProperties ps))) ∧
      (StartRule.declaration.firstWord? other = some "class".toList →
        ∃ cause, parseRule .declaration (text ++ '\n' :: other) =
          .error (.rejected (text ++ '\n' :: other) cause)) := by
  obtain ⟨list, ps, hlist, hps, rfl⟩ := denotes_of_parseRule hl (builds_list text)
  obtain ⟨tree, d, htree, hdeclaration, rfl⟩ := denotes_of_parseRule hd (builds_declaration other)
  refine ⟨ps, d, rfl, settle_ofDeclaration d, ?_, ?_⟩
  · intro hc
    have hread := read_behind_list hlist htree hc
    exact parseRule_of_denotes hread (denotes_behind_list hdeclaration hps)
  · intro hc
    obtain ⟨cause, hcause⟩ := read_behind_list_class hlist htree hc
    exact ⟨cause, parseRule_of_error hcause⟩

/-- A field of a class type, behind a list with a value. -/
theorem parseRule_behind_list_field :
    ∃ (ps : List Property) (d : Declaration),
      parseRule .properties "[a=1, meta b]".toList = .ok (.list (ps.map ofProperty)) ∧
      parseRule .declaration "[c] Foo x;".toList = .ok (ofDeclaration d) ∧
      parseRule .declaration ("[a=1, meta b]".toList ++ '\n' :: "[c] Foo x;".toList) =
        .ok (ofDeclaration (d.addProperties ps)) := by
  have hl : (parseRule .properties "[a=1, meta b]".toList).toOption.isSome = true := by
    decide +kernel
  have hd : (parseRule .declaration "[c] Foo x;".toList).toOption.isSome = true := by
    decide +kernel
  have hfirst : StartRule.declaration.firstWord? "[c] Foo x;".toList ≠ some "class".toList := by
    decide +kernel
  obtain ⟨p, hp⟩ := exists_ok_of_isSome hl
  obtain ⟨q, hq⟩ := exists_ok_of_isSome hd
  obtain ⟨ps, d, rfl, rfl, hjoined, -⟩ := parseRule_behind_list hp hq
  exact ⟨ps, d, hp, hq, hjoined hfirst⟩

/-- A field of a class named `class` is parsed by itself and not behind a property list. -/
theorem parseRule_class_behind_list :
    (parseRule .properties "[A]".toList).toOption.isSome = true ∧
      (parseRule .declaration "class x;".toList).toOption.isSome = true ∧
      (parseRule .declaration ("[A]".toList ++ '\n' :: "class x;".toList)).toOption.isSome =
        false := by
  decide +kernel

end ClassLang
