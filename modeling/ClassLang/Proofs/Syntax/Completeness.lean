import ClassLang.Proofs.Syntax.MemberPaths
import ClassLang.Proofs.Syntax.Spaced

/-!
# Completeness of reading

Every derivation is read. A declaration may stand in a body whatever is declared in it, blocks of
further declarations included, so blocks, declarations and bodies are gone through together, by the
size of their derivations. Main statement: a derivation of any start rule whose leaves are written
out with single blanks between them is read back as its tree.
-/

namespace ClassLang

open Terminal DerivationTree

namespace Point

variable {t : Token} {ts us : List Token}

/-! ### Declarations -/

theorem head_of_list {d : DerivationTree (.rule .properties)} (ht : t ∈ d.tokens.head?) :
    t.terminal = leftBracket := by
  match d with
  | .rule (.seq (.seq (.terminal b hb) _) _) => exact Option.some.inj ht ▸ hb

theorem opens_list (d : DerivationTree (.rule .properties)) (hd : d.Clear) (lists : List Tree)
    (c : DeclarationContext) :
    Opens (startDeclaration lists c) d.tokens (declaration (lists ++ d.pieces) c) := by
  obtain ⟨ps, t, us, hp, hts, ht, hl⟩ := leads_properties d hd (.ofDeclaration lists c)
  refine ⟨t, us, property (.inList [t.tree] (.ofDeclaration lists c)), hts, ?_, ?_⟩
  · rw [startDeclaration, ht]
  · rw [hp]
    exact hl

theorem leads_lists (d : DerivationTree (.many (.rule .properties))) (hd : d.Clear)
    (lists : List Tree) (c : DeclarationContext) :
    (declaration lists c).Leads d.tokens (declaration (lists ++ d.pieces) c) := by
  match d with
  | .none =>
    rw [pieces, List.append_nil]
    exact .nil
  | .more e rest =>
    have hrest := leads_lists rest hd.2.1 (lists ++ e.pieces) c
    rw [List.append_assoc] at hrest
    have hfirst : (declaration lists c).Leads e.tokens (declaration (lists ++ e.pieces) c) :=
      (opens_list e hd.1 lists c).leads id fun t ht =>
        tells_of_terminal (head_of_list ht) (by decide)
    exact hfirst.append hrest
  termination_by d.size
  decreasing_by
    simp only [size]
    omega

/-- Property lists, if there are any, end in a property list. -/
theorem endsInList_more {d : DerivationTree (.rule .properties)}
    (e : DerivationTree (.many (.rule .properties))) : (DerivationTree.more d e).EndsInList := by
  match e with
  | .none =>
    match d with
    | .rule _ => exact Or.inr ⟨rfl, Or.inl rfl⟩
  | .more d e => exact Or.inl (endsInList_more e)
  termination_by e.size
  decreasing_by
    simp only [size]
    omega

/-- What a declaration is behind its property lists may follow them. -/
theorem opens_listed {lists : DerivationTree (.many (.rule .properties))} (hd : lists.Clear)
    (hw : lists.EndsInList → Avoids wordsBehindList us) {c : DeclarationContext} {q : Point}
    (h : Opens (startDeclaration lists.pieces c) us q) :
    Opens (startDeclaration [] c) (lists.tokens ++ us) q := by
  match lists with
  | .none => exact h
  -- behind a list the keywords of a class are looked for as well
  | .more e rest =>
    have hlists := (opens_list e hd.1 [] c).append (leads_lists rest hd.2.1 ([] ++ e.pieces) c)
    refine hlists.append (h.leads id (tells_of_avoids (hw (endsInList_more rest)) ?_))
    simp [accepts, listFollowers, declarationStarts, memberStarts, spellingStarts, typeStarts,
      isKeyword, spelling?, wordsBehindList]

/-! ### Names in front of a declaration -/

theorem avoids_pair {a b : String} (ha : Avoids [a] ts) (hb : Avoids [b] ts) :
    Avoids [a, b] ts := by
  intro t ht hi hmem
  rcases List.mem_cons.1 hmem with h | h
  · exact ha t ht hi (List.mem_singleton.2 h)
  · exact hb t ht hi h

theorem avoids_of_terminal {words : List String} {k : Terminal} (ht : t.terminal = k)
    (hk : k ≠ identifier) : Avoids words (t :: ts) := by
  intro s hs hi
  obtain rfl := Option.some.inj hs
  exact absurd (ht.symm.trans hi) hk

theorem avoids_list {words : List String} (d : DerivationTree (.rule .properties)) :
    Avoids words d.tokens := by
  intro t ht hi
  rw [head_of_list ht] at hi
  cases hi

/-- Without a static mark a member starts with its type. -/
theorem avoids_const (d : DerivationTree Phrase.memberFront) (hd : d.Clear) :
    Avoids ["const"] d.tokens := by
  match d with
  | .seq (.seq .absent e) (.terminal t ht) =>
    obtain ⟨const, tree, q, hp, ho, hq⟩ := opens_spelling e (.ofMember .absent .loneField)
    have hne := ho.ne_nil
    match e with
    | .rule e => exact avoids_append hd.1.2.1.1 hne
  | .seq (.seq (.present (.terminal m hm)) e) (.terminal t ht) =>
    exact avoids_of_terminal hm (by decide)

theorem avoids_field (d : DerivationTree (.rule .fieldDecl)) (hd : d.Clear) :
    Avoids ["static", "const"] d.tokens := by
  match d with
  | .rule (.seq (.seq front init) (.terminal s hs)) =>
    have hne := (opens_memberFront front hd.2.1.1 .loneField).ne_nil
    have hconst : Avoids ["const"] (front.tokens ++ init.tokens ++ [s]) := by
      rw [List.append_assoc]
      exact avoids_append (avoids_const front hd.2.1.1) hne
    exact avoids_pair hd.1 hconst

theorem avoids_method (d : DerivationTree (.rule .methodDecl)) (hd : d.Clear) :
    Avoids ["static", "const"] d.tokens := by
  match d with
  | .rule (.seq (.seq (.seq (.seq front (.terminal l hl)) arguments) (.terminal r hr))
      (.terminal s hs)) =>
    have hne := (opens_memberFront front hd.2.1.1.1.1 .loneMethod).ne_nil
    have hconst : Avoids ["const"] (front.tokens ++ [l] ++ arguments.tokens ++ [r] ++ [s]) := by
      simp only [List.append_assoc]
      exact avoids_append (avoids_const front hd.2.1.1.1.1) hne
    exact avoids_pair hd.1 hconst

theorem avoids_declared
    (d : DerivationTree (Phrase.rule .fieldDecl ||| Phrase.rule .methodDecl |||
      Phrase.rule .blockDecl)) (hd : d.Clear) : Avoids ["static", "const"] d.tokens := by
  match d with
  | .left (.left e) => exact avoids_field e hd
  | .left (.right e) => exact avoids_method e hd
  | .right (.rule (.seq (.seq (.terminal b hb) _) _)) => exact avoids_of_terminal hb (by decide)

theorem avoids_declaration (d : DerivationTree (.rule .declaration)) (hd : d.Clear) :
    Avoids ["static", "const"] d.tokens := by
  match d with
  | .rule (.seq .none e) => exact avoids_declared e hd.2.2.1
  | .rule (.seq (.more l rest) e) =>
    have hne : l.tokens ≠ [] := (opens_list l hd.2.1.1 [] .alone).ne_nil
    have hmore : l.tokens ++ rest.tokens ≠ [] := fun h => hne (List.append_eq_nil_iff.1 h).1
    exact avoids_append (avoids_append (avoids_list l) hne) hmore

/-! ### Nested declarations -/

theorem endBody_blockBody {lists ps : List Tree} {brace : Tree} {c : DeclarationContext} :
    endBody ps t.tree (c.blockBody lists brace) =
      some (endBlock lists brace (Tree.close .body ps) t.tree c) := by
  cases c <;> rfl

theorem step_rightBrace {before : List Tree} {c : BodyContext} (ht : t.terminal = rightBrace) :
    (body before c).step t = endBody before t.tree c := by
  simp only [step, ht]

mutual

/-- A block nests a body, and a body declarations, which may be blocks again. -/
theorem opens_block (d : DerivationTree (.rule .blockDecl)) (hd : d.Clear) (lists : List Tree)
    (c : DeclarationContext) :
    Opens (startDeclaration lists c) d.tokens (endDeclaration (lists ++ d.pieces) c) := by
  match d with
  | .rule (.seq (.seq (.terminal b hb) (.rule e)) (.terminal t ht)) =>
    have hopen : startDeclaration lists c b = some (body [] (c.blockBody lists b.tree)) := by
      rw [startDeclaration, hb]
    have hinner := leads_declarations e hd.2.1.2.1.2 [] (c.blockBody lists b.tree)
    have hclose : (body ([] ++ e.pieces) (c.blockBody lists b.tree)).step t =
        some (endBlock lists b.tree (Tree.close .body e.pieces) t.tree c) := by
      rw [step_rightBrace ht, endBody_blockBody, List.nil_append]
    exact ⟨b, e.tokens ++ [t], _, rfl, hopen,
      hinner.append (.one (tells_of_terminal ht (by decide)) hclose)⟩
  termination_by d.size
  decreasing_by
    simp only [size, Rule.phrase]
    omega

theorem opens_declaration (d : DerivationTree (.rule .declaration)) (hd : d.Clear)
    (c : DeclarationContext) :
    ∃ ps, d.pieces = [Tree.close .declaration ps] ∧
      Opens (startDeclaration [] c) d.tokens (endDeclaration ps c) := by
  match d with
  | .rule (.seq lists (.left (.left e))) =>
    obtain ⟨tree, hp, ho⟩ := opens_field e hd.2.2.1 (c := .ofDeclaration lists.pieces c) rfl
    refine ⟨lists.pieces ++ [tree], congrArg (fun ps => [Tree.close _ (lists.pieces ++ ps)]) hp, ?_⟩
    exact opens_listed hd.2.1 hd.2.2.2 (ho.mono (Turn.declaration _ _).step)
  | .rule (.seq lists (.left (.right e))) =>
    obtain ⟨tree, hp, ho⟩ := opens_method e hd.2.2.1 (c := .ofDeclaration lists.pieces c) rfl
    refine ⟨lists.pieces ++ [tree], congrArg (fun ps => [Tree.close _ (lists.pieces ++ ps)]) hp, ?_⟩
    exact opens_listed hd.2.1 hd.2.2.2 (ho.mono (Turn.declaration _ _).step)
  | .rule (.seq lists (.right e)) =>
    exact ⟨lists.pieces ++ e.pieces, rfl,
      opens_listed hd.2.1 hd.2.2.2 (opens_block e hd.2.2.1 lists.pieces c)⟩
  termination_by d.size
  decreasing_by
    simp only [size]
    omega

theorem leads_declarations (d : DerivationTree (.many (.rule .declaration))) (hd : d.Clear)
    (before : List Tree) (c : BodyContext) :
    (body before c).Leads d.tokens (body (before ++ d.pieces) c) := by
  match d with
  | .none =>
    rw [pieces, List.append_nil]
    exact .nil
  | .more e rest =>
    obtain ⟨ps, hp, ho⟩ := opens_declaration e hd.1 (.inBody before c)
    have hrest := leads_declarations rest hd.2.1 (before ++ e.pieces) c
    have hfirst : (body before c).Leads e.tokens (body (before ++ e.pieces) c) := by
      rw [hp]
      refine ho.leads (Turn.body _ _).step (tells_of_avoids (avoids_declaration e hd.1) ?_)
      cases c <;> simp [accepts, declarationStarts, memberStarts, spellingStarts, typeStarts,
        isKeyword, spelling?]
    rw [List.append_assoc] at hrest
    exact hfirst.append hrest
  termination_by d.size
  decreasing_by
    all_goals
      simp only [size]
      omega

end

/-! ### Classes -/

theorem leads_moreBases (d : DerivationTree (.many (.seq (.terminal comma) (.terminal identifier))))
    (head ps : List Tree) (c : ClassContext) :
    (bases head ps c).Leads d.tokens (bases head (ps ++ d.pieces) c) := by
  match d with
  | .none =>
    rw [pieces, List.append_nil]
    exact .nil
  | .more (.seq (.terminal s hs) (.terminal t ht)) rest =>
    have hrest := leads_moreBases rest head (ps ++ [s.tree, t.tree]) c
    rw [List.append_assoc] at hrest
    refine .cons (q := base head (ps ++ [s.tree]) c) (tells_of_terminal hs (by decide)) ?_
      (.cons (q := bases head (ps ++ [s.tree, t.tree]) c) ?_ ?_ hrest)
    · simp only [step, hs]
    · exact tells_of_no_keyword (by simp [accepts, isKeyword])
    · simp only [step, ht, List.append_assoc, List.singleton_append]
  termination_by d.size
  decreasing_by
    simp only [size]
    omega

theorem leads_bases (d : DerivationTree (.maybe (.rule .inheritance))) (head : List Tree)
    (c : ClassContext) (ht : t.terminal = leftBrace) :
    (classHead head c).Leads (d.tokens ++ [t])
      (body [] (.ofClass (head ++ d.pieces ++ [t.tree]) c)) := by
  match d with
  | .absent =>
    refine .one (tells_of_terminal ht (by decide)) ?_
    simp only [step, ht, enterBody, pieces]
  | .present (.rule (.seq (.terminal s hs) (.seq (.terminal b hb) rest))) =>
    have hfirst : (classHead head c).Leads [s, b] (bases head [s.tree, b.tree] c) := by
      refine .cons (q := base head [s.tree] c) (tells_of_terminal hs (by decide)) ?_ (.one ?_ ?_)
      · simp only [step, hs]
      · exact tells_of_no_keyword (by simp [accepts, isKeyword])
      · simp only [step, hb, List.singleton_append]
    have hall := hfirst.append (leads_moreBases rest head [s.tree, b.tree] c)
    refine hall.append (.one (tells_of_terminal ht (by decide)) ?_)
    simp only [step, ht, enterBody]
    rfl

theorem opens_class (d : DerivationTree (.rule .classDecl)) (hd : d.Clear) (c : ClassContext) :
    ∃ tree, d.pieces = [tree] ∧ Opens (startClass c) d.tokens (endClass tree c) := by
  match d with
  | .rule (.seq (.seq (.seq (.seq (.seq (.seq list (.terminal k hk)) (.terminal n hn)) supers)
      (.terminal b hb)) (.rule e)) (.terminal t ht)) =>
    refine ⟨Tree.close .classDecl (list.pieces ++ [k.tree] ++ [n.tree] ++ supers.pieces ++
      [b.tree] ++ [Tree.close .body e.pieces, t.tree]),
      congrArg (fun ps => [Tree.close .classDecl ps]) (List.append_assoc _ _ _), ?_⟩
    have hkey : Opens (startClass c) (list.tokens ++ [k])
        (className (list.pieces ++ [k.tree]) c) := by
      match list with
      | .absent => exact ⟨k, [], className [.absent, k.tree] c, rfl, by rw [startClass, hk], .nil⟩
      | .present l =>
        obtain ⟨ps, s, us, hp, hts, hs, hl⟩ := leads_properties l hd.2.1.1.1.1.1.1 (.ofClass c)
        refine ⟨s, us ++ [k], property (.inList [s.tree] (.ofClass c)), ?_, ?_,
          hl.append (.one (tells_of_terminal hk (by decide)) ?_)⟩
        · rw [tokens, hts, List.cons_append]
        · rw [startClass, hs]
        · simp only [endPropertyList, step, hk, pieces, hp, List.singleton_append]
    have hname : (className (list.pieces ++ [k.tree]) c).Leads [n]
        (classHead (list.pieces ++ [k.tree] ++ [n.tree]) c) := by
      refine .one (tells_of_no_keyword (by simp [accepts, isKeyword])) ?_
      simp only [step, hn]
    have hhead := (hkey.append hname).append (leads_bases supers _ c hb)
    rw [← List.append_assoc] at hhead
    have hinner := leads_declarations e hd.2.1.2.1.2 []
      (.ofClass (list.pieces ++ [k.tree] ++ [n.tree] ++ supers.pieces ++ [b.tree]) c)
    rw [List.nil_append] at hinner
    exact (hhead.append hinner).append
      (.one (tells_of_terminal ht (by decide)) (step_rightBrace ht))

theorem avoids_class {words : List String} (d : DerivationTree (.rule .classDecl)) :
    Avoids words d.tokens := by
  match d with
  | .rule (.seq (.seq (.seq (.seq (.seq (.seq .absent (.terminal k hk)) _) _) _) _) _) =>
    exact avoids_of_terminal hk (by decide)
  | .rule (.seq (.seq (.seq (.seq (.seq (.seq (.present l) (.terminal k hk)) _) _) _) _) _) =>
    match l with
    | .rule (.seq (.seq (.terminal b hb) _) _) => exact avoids_of_terminal hb (by decide)

theorem leads_classes (d : DerivationTree (.many (.rule .classDecl))) (hd : d.Clear)
    (before : List Tree) : (unit before).Leads d.tokens (unit (before ++ d.pieces)) := by
  match d with
  | .none =>
    rw [pieces, List.append_nil]
    exact .nil
  | .more e rest =>
    obtain ⟨tree, hp, ho⟩ := opens_class e hd.1 (.inUnit before)
    have hrest := leads_classes rest hd.2.1 (before ++ e.pieces)
    have hfirst : (unit before).Leads e.tokens (unit (before ++ e.pieces)) := by
      have hclass : Avoids ["class"] e.tokens := avoids_class e
      rw [hp]
      exact ho.leads id (tells_of_avoids hclass (by simp [accepts, isKeyword, spelling?]))
    rw [List.append_assoc] at hrest
    exact hfirst.append hrest
  termination_by d.size
  decreasing_by
    simp only [size]
    omega

/-! ### Whole texts -/

theorem leads_propertyList (d : DerivationTree (.rule .properties)) (hd : d.Clear) :
    ∃ ps, d.pieces = [Tree.close .properties ps] ∧
      lonePropertyList.Leads d.tokens (done (Tree.close .properties ps)) := by
  obtain ⟨ps, t, us, hp, hts, ht, hl⟩ := leads_properties d hd .alone
  have hopen : lonePropertyList.step t = some (property (.inList [t.tree] .alone)) := by
    simp only [step, ht]
  refine ⟨ps, hp, ?_⟩
  rw [hts]
  exact .cons (tells_of_terminal ht (by decide)) hopen hl

end Point

open Point in
/-- The tokens of a derivation lead to a point where the text may end with its tree. -/
theorem StartRule.leads (r : StartRule) (d : DerivationTree r.phrase) (hd : d.Clear) :
    ∃ tree q, d.pieces = [tree] ∧ r.point.Leads d.tokens q ∧ q.finish? = some tree := by
  have hmember : ∀ c : MemberContext, ∀ k ∈ (member c).accepts, k.isKeyword = true →
      ∃ w ∈ ["static", "const"], k.spelling? = some w := by
    simp [accepts, memberStarts, spellingStarts, typeStarts, isKeyword, spelling?]
  cases r with
  | unit =>
    match d with
    | .rule e => exact ⟨_, _, rfl, leads_classes e hd.2 [], rfl⟩
  | classDecl =>
    obtain ⟨tree, hp, ho⟩ := opens_class d hd .alone
    have hclass : Avoids ["class"] d.tokens := avoids_class d
    refine ⟨tree, _, hp, ho.leads id (tells_of_avoids hclass ?_), rfl⟩
    simp [StartRule.point, accepts, isKeyword, spelling?]
  | properties =>
    obtain ⟨ps, hp, hl⟩ := leads_propertyList d hd
    exact ⟨_, _, hp, hl, rfl⟩
  | property =>
    obtain ⟨ps, q, hp, hl, hq⟩ := leads_property d hd .alone
    refine ⟨_, q, hp, hl, ?_⟩
    rcases hq with rfl | ⟨qs, rfl, rfl⟩ <;> rfl
  | body =>
    match d with
    | .rule e => exact ⟨_, _, rfl, leads_declarations e hd.2 [] .alone, rfl⟩
  | declaration =>
    obtain ⟨ps, hp, ho⟩ := opens_declaration d hd .alone
    refine ⟨_, _, hp, ho.leads id (tells_of_avoids (avoids_declaration d hd) ?_), rfl⟩
    simp [StartRule.point, accepts, declarationStarts, memberStarts, spellingStarts, typeStarts,
      isKeyword, spelling?]
  | fieldDecl =>
    obtain ⟨tree, hp, ho⟩ := opens_field d hd (c := .loneField) rfl
    exact ⟨tree, _, hp, ho.leads id (tells_of_avoids (avoids_field d hd) (hmember _)), rfl⟩
  | methodDecl =>
    obtain ⟨tree, hp, ho⟩ := opens_method d hd (c := .loneMethod) rfl
    exact ⟨tree, _, hp, ho.leads id (tells_of_avoids (avoids_method d hd) (hmember _)), rfl⟩
  | typeDecl =>
    obtain ⟨tree, q, hp, ho, hq⟩ := opens_type d .alone
    have htype : ∀ k ∈ (Point.type .alone).accepts, k.isKeyword = false := by decide
    refine ⟨tree, q, hp, ho.leads id fun t _ => tells_of_no_keyword htype, ?_⟩
    rcases hq with rfl | ⟨ps, rfl, rfl⟩ <;> rfl
  | value =>
    obtain ⟨tree, hp, hl⟩ := leads_value d .alone
    exact ⟨tree, _, hp, hl, rfl⟩

/-- The reader is complete: whatever the grammar derives is read back, unless a name is spelled like
a keyword that may stand in its place. -/
theorem tokenize_spaced {r : StartRule} (d : DerivationTree r.phrase)
    (hm : ∀ t ∈ d.tokens, t.terminal.Matches t.text.toList) (hd : d.Clear) :
    ∃ tree, tokenize r (spaced d.tokens) = .ok tree ∧
      [tree.unplaced] = d.pieces.map Tree.unplaced := by
  -- the leaves take the places that the written text gives them, and nothing else changes
  have hgap : ∀ closed, Layout.IsGap closed [] := fun _ => .nil
  obtain ⟨us, halike, hlaid⟩ := exists_laid_spaced hm hgap .start
  obtain ⟨e, rfl, he⟩ := d.exists_alike halike
  obtain ⟨tree, q, hp, hl, hf⟩ := r.leads e (he.clear hd)
  refine ⟨tree, tokenize_of_laid hlaid hl hf, ?_⟩
  rw [← he.pieces, hp, List.map_singleton]

/-- A leaf that is in no text. -/
def Token.loose (k : Terminal) (text : String) : Token := ⟨k, text, ⟨.start, .start⟩⟩

def fieldNamedConst : DerivationTree StartRule.fieldDecl.phrase :=
  .rule (.seq (.seq (.seq (.seq .absent (.rule (.seq .absent
    (.type (.left (.left (.left (.left (.left (.rule (.seq
      (.terminal (.loose identifier "Matrix") rfl) .none)))))))))))
        (.terminal (.loose identifier "const") rfl)) .absent)
          (.terminal (.loose semicolon ";") rfl))

theorem tokenize_spaced_fieldNamedConst :
    ∃ tree, tokenize .fieldDecl "Matrix const ;".toList = .ok tree ∧
      [tree.unplaced] = fieldNamedConst.pieces.map Tree.unplaced := by
  have hm : ∀ t ∈ fieldNamedConst.tokens, t.terminal.Matches t.text.toList := by
    intro t ht
    have hscan : ∀ t ∈ fieldNamedConst.tokens,
        t.terminal.scan t.text.toList = some (t.text.toList, []) := by decide
    exact Terminal.scan_matches (hscan t ht)
  have hd : fieldNamedConst.Clear := by
    simp [fieldNamedConst, Clear, Avoids, EndsInList, tokens, marks, Token.loose]
  exact tokenize_spaced fieldNamedConst hm hd

end ClassLang
