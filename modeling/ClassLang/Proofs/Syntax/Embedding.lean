import ClassLang.Proofs.Syntax.BehindList
import ClassLang.Proofs.Syntax.Extent
import ClassLang.Proofs.Syntax.Lines

/-!
# Texts of one rule inside texts of another

A text that is read as one rule is read inside a text of a rule in which the first one occurs: the
larger text is laid out from the derivation around that of the smaller one, whose tokens stand
where the larger text puts them, and no name in it comes to stand where it is taken for a keyword.
-/

namespace ClassLang

open Terminal
open DerivationTree (Avoids marks wordsBehindList)

variable {text other : List Char} {tree tree' : Tree}

/-! ### Larger texts -/

/-- A class with a body that stands on lines of its own. -/
def inClass (name body : List Char) : List Char :=
  "class ".toList ++ (name ++ (" \x7b".toList ++ '\n' :: (body ++ '\n' :: "\x7d".toList)))

/-- A property in brackets, the second one on a line of its own. -/
def inBrackets (property : List Char) : List Char :=
  "[".toList ++ (property ++ '\n' :: "]".toList)

/-- A property with a name and a value. -/
def withName (value : List Char) : List Char := "A=".toList ++ value

/-- A field with its type and, on the next line, its name. -/
def asField (type : List Char) : List Char := type ++ '\n' :: "x;".toList

/-! ### Pieces of the larger texts -/

theorem Laid.word (p : Position) {k : Terminal} {w : List Char} (hm : k.Matches w) :
    ∃ t : Token, t.terminal = k ∧ Laid p [t] w := by
  let x : Piece := ⟨[], k, w⟩
  have hlaid : Laid p [x.token p] ([] ++ (w ++ [])) :=
    .piece .nil hm (Terminal.endsBefore_nil k) (.nil .nil)
  rw [List.nil_append, List.append_nil] at hlaid
  exact ⟨_, rfl, hlaid⟩

theorem laid_classFront {name : List Char} (hn : Pattern.IsName name) :
    ∃ k n b : Token, k.terminal = kwClass ∧ n.terminal = identifier ∧ b.terminal = leftBrace ∧
      n.text = String.ofList name ∧
      Laid .start [k, n, b] ("class".toList ++ (" ".toList ++ (name ++ " \x7b".toList))) := by
  have hname : identifier.Matches name := hn
  have hspace : Layout.IsGap true " ".toList := .blank rfl .nil
  have hangle : Scan.angle (' ' :: (name ++ " \x7b".toList)) = none := Terminal.angle_blank hname
  have hclass : kwClass.EndsBefore (" ".toList ++ (name ++ " \x7b".toList)) := ⟨rfl, hangle⟩
  let x : Piece := ⟨[], kwClass, "class".toList⟩
  let y : Piece := ⟨" ".toList, identifier, name⟩
  let z : Piece := ⟨" ".toList, leftBrace, "\x7b".toList⟩
  let k := x.token .start
  let n := y.token k.range.stop
  have hz : Laid n.range.stop [z.token n.range.stop] (" ".toList ++ ("\x7b".toList ++ [])) :=
    .piece hspace rfl trivial (.nil .nil)
  have hy : Laid k.range.stop [n, z.token n.range.stop] (" ".toList ++ (name ++ " \x7b".toList)) :=
    .piece hspace hname ⟨rfl, rfl⟩ hz
  exact ⟨k, n, z.token n.range.stop, rfl, rfl, rfl, rfl, .piece .nil rfl hclass hy⟩

theorem DerivationTree.eq_rule {r : Rule} (d : DerivationTree (.rule r)) :
    ∃ e : DerivationTree r.phrase, d = .rule e := by
  match d with
  | .rule e => exact ⟨e, rfl⟩

theorem Point.avoids_nil {words : List String} : Avoids words [] :=
  fun _ ht => absurd ht (Option.not_mem_none _)

namespace DerivationTree.Clear

variable {p q : Phrase} {k : Terminal} {d : DerivationTree p} {e : DerivationTree q} {t : Token}

theorem snoc (hd : d.Clear) (ht : t.terminal = k) (hk : k ≠ identifier) :
    (seq d (.terminal t ht)).Clear :=
  ⟨hd, trivial, fun _ => Point.avoids_of_terminal ht hk⟩

theorem behind_token {ht : t.terminal = k} (hd : (seq d (.terminal t ht)).Clear) (he : e.Clear) :
    (seq (seq d (.terminal t ht)) e).Clear := by
  refine ⟨hd, he, ?_⟩
  rintro (hl | ⟨hnil, -⟩)
  · exact hl.elim
  · cases hnil

theorem alone (he : e.Clear) : (more e .none).Clear := ⟨he, trivial, fun _ => Point.avoids_nil⟩

end DerivationTree.Clear

/-! ### Derivations of the larger texts -/

namespace DerivationTree

theorem pieces_relocate_single {p : Phrase} {d : DerivationTree p} (h : d.pieces = [tree])
    (m : Relocation) : (d.relocate m).pieces = [tree.relocate m] := by
  rw [d.pieces_relocate m, h, List.map_singleton]

section

variable {k n b c : Token} (hk : k.terminal = kwClass) (hn : n.terminal = identifier)
  (hb : b.terminal = leftBrace) (hc : c.terminal = rightBrace) (d : DerivationTree (.rule .body))

/-- A class without properties and bases. -/
def plainClass : DerivationTree (.rule .classDecl) :=
  .rule (.seq (.seq (.seq (.seq (.seq (.seq .absent (.terminal k hk)) (.terminal n hn)) .absent)
    (.terminal b hb)) d) (.terminal c hc))

theorem plainClass_pieces (h : d.pieces = [tree]) :
    (plainClass hk hn hb hc d).pieces =
      [Tree.close .classDecl [.absent, k.tree, n.tree, .absent, b.tree, tree, c.tree]] := by
  show [Tree.close .classDecl ([.absent, k.tree, n.tree, .absent, b.tree] ++ d.pieces ++
    [c.tree])] = _
  rw [h]
  rfl

theorem plainClass_clear (hd : d.Clear) : (plainClass hk hn hb hc d).Clear := by
  have habsent : (DerivationTree.absent (p := .rule .properties)).Clear := trivial
  have hkey := habsent.snoc hk (by decide)
  have hhead := (hkey.behind_token (e := .terminal n hn) trivial).behind_token
    (e := .absent (p := .rule .inheritance)) trivial
  have hbody := (hhead.snoc hb (by decide)).behind_token hd
  exact ⟨fun _ _ _ => List.not_mem_nil, hbody.snoc hc (by decide)⟩

end

section

variable {n s : Token} (hn : n.terminal = identifier) (hs : s.terminal = semicolon)
  (d : DerivationTree .type)

/-- A field without marks and a first value. -/
def plainField : DerivationTree (.rule .fieldDecl) :=
  .rule (.seq (.seq (.seq (.seq .absent (.rule (.seq .absent d))) (.terminal n hn)) .absent)
    (.terminal s hs))

theorem plainField_tokens : (plainField hn hs d).tokens = d.tokens ++ [n, s] := by
  show (d.tokens ++ [n]) ++ [] ++ [s] = _
  rw [List.append_nil, List.append_assoc]
  rfl

theorem plainField_pieces (h : d.pieces = [tree]) :
    (plainField hn hs d).pieces = [Tree.close .fieldDecl [.absent,
      Tree.close .typeSpelling [.absent, tree], n.tree, .absent, s.tree]] := by
  show [Tree.close .fieldDecl ([.absent, Tree.close .typeSpelling ([Tree.absent] ++ d.pieces),
    n.tree, .absent] ++ [s.tree])] = _
  rw [h]
  rfl

theorem plainField_clear (hd : d.Clear) (hname : n.text ∉ wordsBehindList)
    (hstatic : ∀ us, Avoids ["static"] (d.tokens ++ us))
    (hconst : ∀ us, Avoids ["const"] (d.tokens ++ us)) : (plainField hn hs d).Clear := by
  have hspelled : (DerivationTree.rule (r := .typeSpelling) (.seq .absent d)).Clear :=
    ⟨List.append_nil d.tokens ▸ hconst [], trivial, hd, False.elim⟩
  have hhead : (DerivationTree.seq (.absent (p := .terminal kwStatic))
      (.rule (r := .typeSpelling) (.seq .absent d))).Clear := ⟨trivial, hspelled, False.elim⟩
  have havoids : Avoids wordsBehindList [n] := by
    rintro t ht -
    obtain rfl := Option.some.inj ht
    exact hname
  have hnamed : (DerivationTree.seq (.seq (.absent (p := .terminal kwStatic))
      (.rule (r := .typeSpelling) (.seq .absent d))) (.terminal n hn)).Clear :=
    ⟨hhead, trivial, fun _ => havoids⟩
  have hinitial : (DerivationTree.absent (p := .seq (.terminal equals) (.rule .value))).Clear :=
    trivial
  have hmarks : Avoids (marks .fieldDecl) (d.tokens ++ [n] ++ [] ++ [s]) := by
    rw [List.append_nil, List.append_assoc]
    exact hstatic _
  exact ⟨hmarks, (hnamed.behind_token hinitial).snoc hs (by decide)⟩

end

end DerivationTree

/-! ### Declarations -/

namespace StartRule

theorem read_declaration_of_field (h : fieldDecl.read text = .ok tree) :
    declaration.read text = .ok (Tree.close .declaration [tree]) := by
  obtain ⟨d, hclear, hpieces, hlaid⟩ := exists_laid rfl h
  let e : DerivationTree StartRule.declaration.phrase := .rule (.seq .none (.left (.left d)))
  have he : e.Clear := ⟨fun _ _ _ => List.not_mem_nil, trivial, hclear, False.elim⟩
  have hp : e.pieces = [Tree.close .declaration [tree]] := by
    rw [← hpieces]
    rfl
  exact read_of_laid e he hp hlaid

theorem read_declaration_of_method (h : methodDecl.read text = .ok tree) :
    declaration.read text = .ok (Tree.close .declaration [tree]) := by
  obtain ⟨d, hclear, hpieces, hlaid⟩ := exists_laid rfl h
  let e : DerivationTree StartRule.declaration.phrase := .rule (.seq .none (.left (.right d)))
  have he : e.Clear := ⟨fun _ _ _ => List.not_mem_nil, trivial, hclear, False.elim⟩
  have hp : e.pieces = [Tree.close .declaration [tree]] := by
    rw [← hpieces]
    rfl
  exact read_of_laid e he hp hlaid

theorem read_body_of_declaration (h : declaration.read text = .ok tree) :
    body.read text = .ok (Tree.close .body [tree]) := by
  obtain ⟨d, hclear, hpieces, hlaid⟩ := exists_laid rfl h
  let e : DerivationTree StartRule.body.phrase := .rule (.more d .none)
  have he : e.Clear := ⟨fun _ _ _ => List.not_mem_nil, hclear.alone⟩
  have hp : e.pieces = [Tree.close .body [tree]] := by
    rw [← hpieces]
    exact congrArg (fun ps => [Tree.close .body ps]) (List.append_nil _)
  have htokens : e.tokens = d.tokens := List.append_nil _
  exact read_of_laid e he hp (htokens ▸ hlaid)

/-- Declarations end in a semicolon or a brace. -/
theorem not_endsInList_declaration (d : DerivationTree (.rule .declaration)) : ¬d.EndsInList := by
  have hsign : ∀ {r : Rule} {p : Phrase} {k : Terminal} (e : DerivationTree p) (t : Token)
      (ht : t.terminal = k), r ≠ .properties →
      ¬(r = .properties ∨ (DerivationTree.seq e (.terminal t ht)).EndsInList) := by
    rintro r p k e t ht hr (rfl | hl | ⟨hnil, -⟩)
    · exact hr rfl
    · exact hl
    · cases hnil
  match d with
  | .rule (.seq lists e) =>
    have hdeclared : ¬e.EndsInList ∧ e.tokens ≠ [] := by
      match e with
      | .left (.left (.rule (.seq f (.terminal t ht)))) =>
        exact ⟨hsign f t ht nofun, List.append_ne_nil_of_right_ne_nil _ (List.cons_ne_nil t [])⟩
      | .left (.right (.rule (.seq f (.terminal t ht)))) =>
        exact ⟨hsign f t ht nofun, List.append_ne_nil_of_right_ne_nil _ (List.cons_ne_nil t [])⟩
      | .right (.rule (.seq f (.terminal t ht))) =>
        exact ⟨hsign f t ht nofun, List.append_ne_nil_of_right_ne_nil _ (List.cons_ne_nil t [])⟩
    rintro (hr | hl | ⟨hnil, -⟩)
    · cases hr
    · exact hdeclared.1 hl
    · exact hdeclared.2 hnil

/-- Items one behind the other, none of which ends in a property list. -/
theorem exists_both {p : Phrase} (hp : ∀ d : DerivationTree p, ¬d.EndsInList)
    (d e : DerivationTree (.many p)) (hd : d.Clear) (he : e.Clear) :
    ∃ f : DerivationTree (.many p), f.tokens = d.tokens ++ e.tokens ∧
      f.pieces = d.pieces ++ e.pieces ∧ f.Clear := by
  match d with
  | .none => exact ⟨e, rfl, rfl, he⟩
  | .more d rest =>
    obtain ⟨f, htokens, hpieces, hclear⟩ := exists_both hp rest e hd.2.1 he
    refine ⟨.more d f, ?_, ?_, hd.1, hclear, fun hl => absurd hl (hp d)⟩
    · rw [DerivationTree.tokens, DerivationTree.tokens, htokens, List.append_assoc]
    · rw [DerivationTree.pieces, DerivationTree.pieces, hpieces, List.append_assoc]
  termination_by d.size
  decreasing_by
    simp only [DerivationTree.size]
    omega

/-- Two bodies on lines of their own are one body. -/
theorem read_bodies (h : body.read text = .ok tree) (h' : body.read other = .ok tree') :
    ∃ ps qs, tree = Tree.close .body ps ∧ tree' = Tree.close .body qs ∧
      body.read (text ++ '\n' :: other) = .ok (Tree.close .body
        (ps ++ qs.map (Tree.relocate (.behind text)))) := by
  obtain ⟨d, hd, hp, hlaid⟩ := exists_laid rfl h
  obtain ⟨e, he, hq, hlaid'⟩ := exists_laid rfl h'
  obtain ⟨d, rfl⟩ := DerivationTree.eq_rule d
  obtain ⟨e, rfl⟩ := DerivationTree.eq_rule e
  let m : Relocation := .behind text
  obtain ⟨f, htokens, hpieces, hclear⟩ :=
    exists_both not_endsInList_declaration d (e.relocate m) hd.2 (he.2.relocate m)
  refine ⟨d.pieces, e.pieces, (List.cons.inj hp).1.symm, (List.cons.inj hq).1.symm, ?_⟩
  let g : DerivationTree StartRule.body.phrase := .rule f
  have hg : g.Clear := ⟨fun _ _ _ => List.not_mem_nil, hclear⟩
  have hgp : g.pieces = [Tree.close .body (d.pieces ++ e.pieces.map (Tree.relocate m))] := by
    rw [← e.pieces_relocate m]
    exact congrArg (fun ps => [Tree.close .body ps]) hpieces
  have hgt : g.tokens = d.tokens ++ e.tokens.map (Token.relocate m) := by
    rw [← e.tokens_relocate m]
    exact htokens
  exact read_of_laid g hg hgp (hgt ▸ hlaid.onNextLine hlaid')

/-! ### A body in a class -/

theorem read_inClass {name : List Char} (hn : Pattern.IsName name)
    (h : body.read text = .ok tree) :
    ∃ (front : List Char) (k n b c : Token), k.terminal = kwClass ∧ n.terminal = identifier ∧
      b.terminal = leftBrace ∧ c.terminal = rightBrace ∧ n.text = String.ofList name ∧
      inClass name text = front ++ '\n' :: (text ++ "\n\x7d".toList) ∧
      ∃ whole, whole = Tree.close .classDecl [.absent, k.tree, n.tree, .absent, b.tree,
          tree.relocate (.behind front), c.tree] ∧
        classDecl.read (inClass name text) = .ok whole ∧
        unit.read (inClass name text) = .ok (Tree.close .unit [whole]) := by
  obtain ⟨d, hd, hp, hlaid⟩ := exists_laid rfl h
  obtain ⟨k, n, b, hk, hname, hb, htext, hfront⟩ := laid_classFront hn
  obtain ⟨c, hc, hbrace⟩ := Laid.word .start (k := rightBrace) (w := "\x7d".toList) rfl
  have hall := (hfront.onNextLine hlaid).onNextLine hbrace
  generalize hf : "class".toList ++ (" ".toList ++ (name ++ " \x7b".toList)) = front at hall
  have heq : inClass name text = front ++ '\n' :: text ++ '\n' :: "\x7d".toList := by
    show ("class".toList ++ " ".toList) ++
      (name ++ (" \x7b".toList ++ '\n' :: (text ++ '\n' :: "\x7d".toList))) = _
    rw [← hf]
    simp only [List.append_assoc, List.cons_append]
  let m : Relocation := .behind front
  let m' : Relocation := .behind (front ++ '\n' :: text)
  have hc' : (c.relocate m').terminal = rightBrace := hc
  let e : DerivationTree StartRule.classDecl.phrase := .plainClass hk hname hb hc' (d.relocate m)
  have he : e.Clear := DerivationTree.plainClass_clear _ _ _ _ _ (hd.relocate m)
  have hpieces : e.pieces = [Tree.close .classDecl [.absent, k.tree, n.tree, .absent, b.tree,
      tree.relocate m, (c.relocate m').tree]] :=
    DerivationTree.plainClass_pieces _ _ _ _ _ (DerivationTree.pieces_relocate_single hp m)
  have htokens : e.tokens = [k, n, b] ++ d.tokens.map (Token.relocate m) ++ [c.relocate m'] := by
    rw [← d.tokens_relocate m]
    rfl
  let u : DerivationTree StartRule.unit.phrase := .rule (.more e .none)
  have hu : u.Clear := ⟨fun _ _ _ => List.not_mem_nil, he.alone⟩
  have hutokens : u.tokens = e.tokens := List.append_nil _
  have hupieces : u.pieces = [Tree.close .unit e.pieces] :=
    congrArg (fun ps => [Tree.close .unit ps]) (List.append_nil e.pieces)
  rw [hpieces] at hupieces
  refine ⟨front, k, n, b, c.relocate m', hk, hname, hb, hc, htext, ?_, _, rfl, ?_⟩
  · rw [heq, List.append_assoc, List.cons_append]
    rfl
  · rw [heq]
    exact ⟨read_of_laid e he hpieces (htokens ▸ hall),
      read_of_laid u hu hupieces (hutokens ▸ htokens ▸ hall)⟩

/-! ### Properties, values and types -/

theorem read_inBrackets (h : property.read text = .ok tree) :
    ∃ (b c : Token) (m : Relocation), b.terminal = leftBracket ∧ c.terminal = rightBracket ∧
      properties.read (inBrackets text) =
        .ok (Tree.close .properties [b.tree, tree.relocate m, c.tree]) := by
  obtain ⟨d, hd, hp, hlaid⟩ := exists_laid rfl h
  let x : Piece := ⟨[], leftBracket, "[".toList⟩
  let b := x.token .start
  obtain ⟨m, hmoved⟩ := hlaid.exists_moved b.range.stop
  obtain ⟨c, hc, hclose⟩ := Laid.word (b.range.stop.advance (text ++ ['\n'])) (k := rightBracket)
    (w := "]".toList) rfl
  have hall : Laid .start (b :: (d.tokens.map (Token.relocate m) ++ [c])) (inBrackets text) :=
    .piece .nil rfl trivial (hmoved.append_newline hclose)
  let e : DerivationTree StartRule.properties.phrase :=
    .rule (.seq (.seq (.terminal b rfl) (.seq (d.relocate m) .none)) (.terminal c hc))
  have he : e.Clear := by
    have hitems : (DerivationTree.seq (d.relocate m)
        (.none (p := .seq (.terminal comma) (.rule .property)))).Clear :=
      ⟨hd.relocate m, trivial, fun _ => Point.avoids_nil⟩
    have hlist : (DerivationTree.seq (.terminal b rfl) (.seq (d.relocate m)
        (.none (p := .seq (.terminal comma) (.rule .property))))).Clear :=
      ⟨trivial, hitems, False.elim⟩
    exact ⟨fun _ _ _ => List.not_mem_nil, hlist.snoc hc (by decide)⟩
  have htokens : e.tokens = b :: (d.tokens.map (Token.relocate m) ++ [c]) := by
    rw [← d.tokens_relocate m, ← List.append_nil (d.relocate m).tokens]
    rfl
  have hpieces : e.pieces = [Tree.close .properties [b.tree, tree.relocate m, c.tree]] := by
    show [Tree.close .properties ([b.tree] ++ ((d.relocate m).pieces ++ []) ++ [c.tree])] = _
    rw [DerivationTree.pieces_relocate_single hp m]
    rfl
  exact ⟨b, c, m, rfl, hc, read_of_laid e he hpieces (htokens ▸ hall)⟩

theorem read_withName (h : value.read text = .ok tree) :
    ∃ (n s : Token) (m : Relocation), n.terminal = identifier ∧ n.text = "A" ∧
      s.terminal = equals ∧ property.read (withName text) =
        .ok (Tree.close .property [.absent, n.tree, s.tree, tree.relocate m]) := by
  obtain ⟨d, hd, hp, hlaid⟩ := exists_laid rfl h
  have hname : identifier.Matches "A".toList := ⟨rfl, nofun⟩
  let x : Piece := ⟨[], identifier, "A".toList⟩
  let y : Piece := ⟨[], equals, "=".toList⟩
  let n := x.token .start
  let s := y.token n.range.stop
  obtain ⟨m, hmoved⟩ := hlaid.exists_moved s.range.stop
  have hall : Laid .start (n :: s :: d.tokens.map (Token.relocate m)) (withName text) :=
    .piece .nil hname ⟨rfl, Terminal.angle_word (t := equals) (w := "=".toList) rfl⟩
      (.piece .nil rfl trivial hmoved)
  let e : DerivationTree StartRule.property.phrase :=
    .rule (.seq (.seq .absent (.terminal n rfl)) (.present (.seq (.terminal s rfl) (d.relocate m))))
  have he : e.Clear := by
    refine ⟨?_, ⟨trivial, trivial, False.elim⟩, ⟨trivial, hd.relocate m, False.elim⟩, ?_⟩
    · rintro t ht -
      obtain rfl := Option.some.inj ht
      decide
    · rintro (hl | ⟨hnil, -⟩)
      · exact hl.elim
      · cases hnil
  have htokens : e.tokens = n :: s :: d.tokens.map (Token.relocate m) := by
    rw [← d.tokens_relocate m]
    rfl
  have hpieces : e.pieces =
      [Tree.close .property [.absent, n.tree, s.tree, tree.relocate m]] := by
    show [Tree.close .property ([.absent, n.tree] ++ ([s.tree] ++ (d.relocate m).pieces))] = _
    rw [DerivationTree.pieces_relocate_single hp m]
    rfl
  exact ⟨n, s, m, rfl, rfl, rfl, read_of_laid e he hpieces (htokens ▸ hall)⟩

theorem laid_fieldEnd :
    ∃ n s : Token, n.terminal = identifier ∧ n.text = "x" ∧ s.terminal = semicolon ∧
      Laid .start [n, s] "x;".toList := by
  have hname : identifier.Matches "x".toList := ⟨rfl, nofun⟩
  let x : Piece := ⟨[], identifier, "x".toList⟩
  let y : Piece := ⟨[], semicolon, ";".toList⟩
  let n := x.token .start
  have hend : Laid n.range.stop [y.token n.range.stop] (";".toList ++ []) :=
    .piece .nil rfl trivial (.nil .nil)
  exact ⟨n, y.token n.range.stop, rfl, rfl, rfl, .piece .nil hname ⟨rfl, rfl⟩ hend⟩

/-- The first word of a text that is read is that of its first token. -/
theorem exists_first {r : StartRule} {d : DerivationTree r.phrase} (h : r.read text = .ok tree)
    (hr : r.point.finish? = none) (hd : d.tokens = tokensFrom .start (r.reading text).pieces.1) :
    ∃ t ts, d.tokens = t :: ts ∧ r.firstWord? text = some t.text.toList := by
  obtain ⟨q, htrail, hfinish⟩ := trail_of_run _ h
  have hne := ne_nil_of_finish? htrail hfinish hr
  rw [firstWord?]
  rw [hd]
  cases hx : (r.reading text).pieces.1 with
  | nil => exact absurd hx hne
  | cons x xs =>
    refine ⟨_, _, rfl, ?_⟩
    rw [List.head?_cons, Option.map_some, Piece.token, String.toList_ofList]

theorem read_asField (h : typeDecl.read text = .ok tree)
    (hstatic : typeDecl.firstWord? text ≠ some "static".toList)
    (hconst : typeDecl.firstWord? text ≠ some "const".toList) :
    ∃ n s : Token, n.terminal = identifier ∧ n.text = "x" ∧ s.terminal = semicolon ∧
      (Tree.cover [.absent, tree]).isSome = true ∧
      fieldDecl.read (asField text) = .ok (Tree.close .fieldDecl [.absent,
        Tree.close .typeSpelling [.absent, tree], n.tree, .absent, s.tree]) := by
  obtain ⟨d, hd, hp, hfrom⟩ := exists_clear h
  have hlaid := laid_of_read rfl h hfrom
  obtain ⟨first, rest, hfirst, hword⟩ := exists_first h rfl hfrom
  obtain ⟨n, s, hn, htext, hs, hend⟩ := laid_fieldEnd
  have hall := hlaid.onNextLine hend
  let m : Relocation := .behind text
  have hn' : (n.relocate m).terminal = identifier := hn
  have hs' : (s.relocate m).terminal = semicolon := hs
  have havoids : ∀ {word : String} (us : List Token),
      StartRule.typeDecl.firstWord? text ≠ some word.toList → Avoids [word] (d.tokens ++ us) := by
    rintro word us hne t ht - hmem
    rw [hfirst] at ht
    obtain rfl : first = t := Option.some.inj ht
    exact hne (List.mem_singleton.1 hmem ▸ hword)
  have hname : (n.relocate m).text ∉ wordsBehindList := by
    rw [Token.relocate, htext]
    decide
  let e : DerivationTree StartRule.fieldDecl.phrase := .plainField hn' hs' d
  have he : e.Clear := DerivationTree.plainField_clear _ _ _ hd hname
    (fun us => havoids us hstatic) fun us => havoids us hconst
  have htokens := DerivationTree.plainField_tokens hn' hs' d
  have hpieces := DerivationTree.plainField_pieces hn' hs' d hp
  have hcover : (Tree.cover [.absent, tree]).isSome = true := by
    have hextends := (DerivationTree.seq (.absent (p := .terminal kwConst)) d).extends_pieces
    obtain ⟨range, hrange⟩ := hextends.exists_cover (hfirst ▸ List.cons_ne_nil first rest)
    rw [DerivationTree.pieces, hp] at hrange
    exact Option.isSome_of_eq_some hrange
  exact ⟨_, _, hn', htext, hs', hcover, read_of_laid e he hpieces (htokens ▸ hall)⟩

end StartRule

end ClassLang
