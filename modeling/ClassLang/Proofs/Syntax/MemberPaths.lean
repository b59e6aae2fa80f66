import ClassLang.Proofs.Syntax.DerivationTree
import ClassLang.Proofs.Syntax.Laid

/-!
# Paths over members

A construct is opened by its first token at whatever point it may stand (`Point.Opens`) and gone on
with by its other tokens. Where only the token behind a construct tells that it is complete, as with
a property, a type and an argument, there are two points behind it. Main statements: the tokens of a
derivation of a property list, a field or a method, in which no name is taken for a keyword, lead to
the point where that construct is complete.
-/

namespace ClassLang

open Terminal DerivationTree

namespace Point

/-! ### Opening a construct -/

/-- Tokens of which the first one opens a construct and the others lead on to a point. -/
def Opens (start : Token → Option Point) (ts : List Token) (q : Point) : Prop :=
  ∃ t us m, ts = t :: us ∧ start t = some m ∧ m.Leads us q

namespace Opens

variable {start start' : Token → Option Point} {ts us : List Token} {p q s : Point}

theorem ne_nil (h : Opens start ts q) : ts ≠ [] := by
  obtain ⟨t, us, m, rfl, -, -⟩ := h
  exact List.cons_ne_nil t us

theorem append (h : Opens start ts q) (h' : q.Leads us s) : Opens start (ts ++ us) s := by
  obtain ⟨t, vs, m, rfl, hm, hl⟩ := h
  exact ⟨t, vs ++ us, m, rfl, hm, hl.append h'⟩

theorem mono (f : ∀ {t m}, start t = some m → start' t = some m) (h : Opens start ts q) :
    Opens start' ts q := by
  obtain ⟨t, us, m, rfl, hm, hl⟩ := h
  exact ⟨t, us, m, rfl, f hm, hl⟩

/-- A construct may stand at a point that moves on like the construct opens. -/
theorem leads (f : ∀ {t m}, start t = some m → p.step t = some m)
    (ht : ∀ t ∈ ts.head?, p.Tells t) (h : Opens start ts q) : p.Leads ts q := by
  obtain ⟨t, us, m, rfl, hm, hl⟩ := h
  exact .cons (ht t rfl) (f hm) hl

end Opens

variable {t : Token} {ts us : List Token}

theorem avoids_append {words : List String} (h : Avoids words ts) (hne : ts ≠ []) :
    Avoids words (ts ++ us) := by
  cases ts with
  | nil => exact absurd rfl hne
  | cons t ts => exact h

/-- A point at which only certain words are keywords tells all tokens that avoid them. -/
theorem tells_of_avoids {p : Point} {words : List String} (h : Avoids words ts)
    (hw : ∀ k ∈ p.accepts, k.isKeyword = true → ∃ w ∈ words, k.spelling? = some w) :
    ∀ t ∈ ts.head?, p.Tells t := by
  intro t ht hi hmis
  obtain ⟨k, hk, hkey, hs⟩ := hmis
  obtain ⟨w, hmem, hspell⟩ := hw k hk hkey
  rw [hspell] at hs
  exact h t ht hi (Option.some.inj hs ▸ hmem)

theorem tells_of_no_keyword {p : Point} (h : ∀ k ∈ p.accepts, k.isKeyword = false) :
    p.Tells t := by
  rintro - ⟨k, hk, hkey, -⟩
  rw [h k hk] at hkey
  cases hkey

theorem tells_of_terminal {p : Point} {k : Terminal} (ht : t.terminal = k)
    (hk : k ≠ identifier) : p.Tells t := by
  intro hi
  exact absurd (ht.symm.trans hi) hk

/-! ### Values and properties -/

theorem leads_value (d : DerivationTree (.rule .value)) (c : ValueContext) :
    ∃ tree, d.pieces = [tree] ∧ (value c).Leads d.tokens (endValue tree c) := by
  obtain ⟨t, ht, hts, hp⟩ := value_cases d
  have hstep : (value c).step t = some (endValue (Tree.close .value [t.tree]) c) := if_pos ht
  have htell : (value c).Tells t := by
    refine tells_of_ne ?_
    intro hi
    rw [hi] at ht
    cases ht
  refine ⟨_, hp, ?_⟩
  rw [hts]
  exact .one htell hstep

theorem initial_cases (d : DerivationTree .initial) :
    (d.tokens = [] ∧ d.pieces = [.absent]) ∨
      ∃ t tree us, t.terminal = equals ∧ d.tokens = t :: us ∧ d.pieces = [t.tree, tree] ∧
        ∀ c, (value c).Leads us (endValue tree c) := by
  match d with
  | .absent => exact Or.inl ⟨rfl, rfl⟩
  | .present (.seq (.terminal t ht) e) =>
    obtain ⟨tree, hp, -⟩ := leads_value e .alone
    refine Or.inr ⟨t, tree, e.tokens, ht, rfl, ?_, ?_⟩
    · simp only [pieces, hp, List.singleton_append]
    · intro c
      obtain ⟨tree', hp', hl⟩ := leads_value e c
      rw [hp] at hp'
      exact (List.cons.inj hp').1 ▸ hl

/-- The points at which a property is complete, of which the second waits for a value. -/
def AfterProperty (ps : List Tree) (c : PropertyContext) (q : Point) : Prop :=
  q = endProperty ps c ∨ ∃ qs, ps = qs ++ [.absent] ∧ q = propertyHead qs c

theorem leads_propertyBack (d : DerivationTree .initial) (ps : List Tree) (c : PropertyContext) :
    ∃ q, (propertyHead ps c).Leads d.tokens q ∧ AfterProperty (ps ++ d.pieces) c q := by
  rcases initial_cases d with ⟨hts, hp⟩ | ⟨s, tree, us, hs, hts, hp, hl⟩
  · rw [hts, hp]
    exact ⟨_, .nil, Or.inr ⟨ps, rfl, rfl⟩⟩
  · have hvalue := hl (.ofProperty (ps ++ [s.tree]) c)
    rw [hts, hp]
    refine ⟨_, .cons (q := value (.ofProperty (ps ++ [s.tree]) c)) ?_ ?_ hvalue, Or.inl ?_⟩
    · exact tells_of_terminal hs (by decide)
    · cases c <;> simp only [step, hs]
    · simp only [endValue, List.append_assoc, List.singleton_append]

theorem leads_property (d : DerivationTree (.rule .property)) (hd : d.Clear)
    (c : PropertyContext) :
    ∃ ps q, d.pieces = [Tree.close .property ps] ∧ (property c).Leads d.tokens q ∧
      AfterProperty ps c q := by
  match d with
  | .rule (.seq (.seq .absent (.terminal t ht)) e) =>
    obtain ⟨q, hl, hq⟩ := leads_propertyBack e [.absent, t.tree] c
    refine ⟨_, q, rfl, .cons ?_ ?_ hl, hq⟩
    · exact tells_of_avoids hd.1 (by simp [accepts, isKeyword, spelling?, marks]) t rfl
    · simp only [step, ht]
  | .rule (.seq (.seq (.present (.terminal m hm)) (.terminal t ht)) e) =>
    obtain ⟨q, hl, hq⟩ := leads_propertyBack e [m.tree, t.tree] c
    refine ⟨_, q, rfl, .cons (q := propertyName m.tree c) (tells_of_terminal hm (by decide)) ?_
      (.cons ?_ ?_ hl), hq⟩
    · simp only [step, hm]
    · exact tells_of_no_keyword (by simp [accepts, isKeyword])
    · simp only [step, ht]

/-- The points behind a property of a list that has these pieces. -/
def InList (before : List Tree) (c : PropertyListContext) (q : Point) : Prop :=
  q = propertyEnd before c ∨
    ∃ bs qs, before = bs ++ [Tree.close .property (qs ++ [.absent])] ∧
      q = propertyHead qs (.inList bs c)

theorem inList_of_afterProperty {ps before : List Tree} {c : PropertyListContext} {q : Point}
    (h : AfterProperty ps (.inList before c) q) :
    InList (before ++ [Tree.close .property ps]) c q := by
  rcases h with rfl | ⟨qs, rfl, rfl⟩
  · exact Or.inl rfl
  · exact Or.inr ⟨before, qs, rfl, rfl⟩

theorem step_inList {before : List Tree} {c : PropertyListContext} {q : Point}
    (h : InList before c q) (ht : t.terminal ≠ equals) : q.step t = continueList before c t := by
  rcases h with rfl | ⟨bs, qs, rfl, rfl⟩
  · rfl
  · simp only [step]

theorem leads_moreProperties (d : DerivationTree (.many (.seq (.terminal comma) (.rule .property))))
    (hd : d.Clear) {before : List Tree} {c : PropertyListContext} {q : Point}
    (h : InList before c q) : ∃ s, q.Leads d.tokens s ∧ InList (before ++ d.pieces) c s := by
  match d with
  | .none => exact ⟨q, .nil, by rwa [pieces, List.append_nil]⟩
  | .more (.seq (.terminal t ht) e) rest =>
    obtain ⟨ps, s, hp, hl, hs⟩ := leads_property e hd.1.2.1 (.inList (before ++ [t.tree]) c)
    obtain ⟨s', hl', hs'⟩ := leads_moreProperties rest hd.2.1 (inList_of_afterProperty hs)
    have hstep : q.step t = some (property (.inList (before ++ [t.tree]) c)) := by
      rw [step_inList h (by rw [ht]; decide), continueList, ht]
    refine ⟨s', ?_, ?_⟩
    · exact (Leads.cons (tells_of_terminal ht (by decide)) hstep hl).append hl'
    · simpa only [pieces, hp, List.append_assoc, List.singleton_append, List.cons_append,
        List.nil_append] using hs'
  termination_by d.size
  decreasing_by
    simp only [size]
    omega

theorem leads_properties (d : DerivationTree (.rule .properties)) (hd : d.Clear)
    (c : PropertyListContext) :
    ∃ ps t us, d.pieces = [Tree.close .properties ps] ∧ d.tokens = t :: us ∧
      t.terminal = leftBracket ∧
        (property (.inList [t.tree] c)).Leads us (endPropertyList ps c) := by
  match d with
  | .rule (.seq (.seq (.terminal t ht) (.seq e rest)) (.terminal b hb)) =>
    obtain ⟨ps, q, hp, hl, hq⟩ := leads_property e hd.2.1.2.1.1 (.inList [t.tree] c)
    obtain ⟨s, hl', hs⟩ := leads_moreProperties rest hd.2.1.2.1.2.1 (inList_of_afterProperty hq)
    have hstep := step_inList hs (t := b) (by rw [hb]; decide)
    rw [continueList, hb] at hstep
    refine ⟨_, t, e.tokens ++ rest.tokens ++ [b], rfl, rfl, ht, ?_⟩
    have hall := (hl.append hl').append (.one (tells_of_terminal hb (by decide)) hstep)
    simpa only [pieces, hp, List.append_assoc, List.singleton_append, List.cons_append,
      List.nil_append] using hall

/-! ### Types -/

/-- The points at which a type is complete, of which the second may still get longer. -/
def AfterType (tree : Tree) (c : TypeContext) (q : Point) : Prop :=
  q = suffix tree c ∨ ∃ ps, tree = Tree.close .typeName ps ∧ q = typeName ps c

theorem step_afterType {tree : Tree} {c : TypeContext} {q : Point} (h : AfterType tree c q)
    (ht : t.terminal ≠ doubleColon) : q.step t = continueType tree c t := by
  rcases h with rfl | ⟨ps, rfl, rfl⟩
  · rfl
  · simp only [step]

theorem tells_afterType {tree : Tree} {c : TypeContext} {q : Point} (h : AfterType tree c q) :
    q.Tells t := by
  have hc : ∀ k ∈ typeSuffixes ++ typeEnds c, k.isKeyword = false := by
    cases c <;> simp [typeSuffixes, typeEnds, isKeyword]
  rcases h with rfl | ⟨ps, rfl, rfl⟩
  · exact tells_of_no_keyword hc
  · exact tells_of_no_keyword (List.forall_mem_cons.2 ⟨rfl, hc⟩)

theorem leads_names
    (d : DerivationTree (.many (.seq (.terminal doubleColon) (.terminal identifier))))
    (ps : List Tree) (c : TypeContext) :
    (typeName ps c).Leads d.tokens (typeName (ps ++ d.pieces) c) := by
  match d with
  | .none =>
    rw [pieces, List.append_nil]
    exact .nil
  | .more (.seq (.terminal s hs) (.terminal t ht)) rest =>
    have hrest := leads_names rest (ps ++ [s.tree, t.tree]) c
    rw [List.append_assoc] at hrest
    refine .cons (q := typeNamePart (ps ++ [s.tree]) c) (tells_of_terminal hs (by decide)) ?_
      (.cons (q := typeName (ps ++ [s.tree, t.tree]) c) ?_ ?_ hrest)
    · simp only [step, hs]
    · exact tells_of_no_keyword (by simp [accepts, isKeyword])
    · simp only [step, ht, List.append_assoc, List.singleton_append]
  termination_by d.size
  decreasing_by
    simp only [size]
    omega

theorem opens_layer {tree tree' : Tree} {c : TypeContext} {q : Point} {ts : List Token}
    (h : Opens (startType c) ts q) (hq : AfterType tree c q) (ht : t.terminal ≠ doubleColon)
    (hs : continueType tree c t = some (suffix tree' c)) :
    Opens (startType c) (ts ++ [t]) (suffix tree' c) :=
  h.append (.one (tells_afterType hq) ((step_afterType hq ht).trans hs))

theorem opens_type (d : DerivationTree .type) (c : TypeContext) :
    ∃ tree q, d.pieces = [tree] ∧ Opens (startType c) d.tokens q ∧ AfterType tree c q := by
  match d with
  | .type (.left (.left (.left (.left (.left (.rule (.seq (.terminal t ht) e))))))) =>
    refine ⟨_, _, rfl, ⟨t, e.tokens, typeName [t.tree] c, rfl, ?_, leads_names e _ c⟩,
      Or.inr ⟨_, rfl, rfl⟩⟩
    rw [startType, ht]
  -- a layer stands behind its type, so the type inside opens the whole
  | .type (.left (.left (.left (.left (.right (.rule (.seq e (.terminal t ht)))))))) =>
    obtain ⟨tree, q, hp, ho, hq⟩ := opens_type e c
    refine ⟨Tree.close .pointerType [tree, t.tree], _, ?_,
      opens_layer ho hq (by rw [ht]; decide) ?_, Or.inl rfl⟩
    · exact congrArg (fun ps => [Tree.close .pointerType (ps ++ [t.tree])]) hp
    · rw [continueType, ht]
  | .type (.left (.left (.left (.right (.rule (.seq e (.terminal t ht))))))) =>
    obtain ⟨tree, q, hp, ho, hq⟩ := opens_type e c
    refine ⟨Tree.close .doublePointerType [tree, t.tree], _, ?_,
      opens_layer ho hq (by rw [ht]; decide) ?_, Or.inl rfl⟩
    · exact congrArg (fun ps => [Tree.close .doublePointerType (ps ++ [t.tree])]) hp
    · rw [continueType, ht]
  | .type (.left (.left (.right (.rule (.seq e (.terminal t ht)))))) =>
    obtain ⟨tree, q, hp, ho, hq⟩ := opens_type e c
    refine ⟨Tree.close .referenceType [tree, t.tree], _, ?_,
      opens_layer ho hq (by rw [ht]; decide) ?_, Or.inl rfl⟩
    · exact congrArg (fun ps => [Tree.close .referenceType (ps ++ [t.tree])]) hp
    · rw [continueType, ht]
  | .type (.left (.right (.rule (.seq (.seq e (.terminal b hb)) (.terminal t ht))))) =>
    obtain ⟨tree, q, hp, ho, hq⟩ := opens_type e c
    have hbracket : q.step b = some (arrayEnd tree b.tree c) := by
      rw [step_afterType hq (by rw [hb]; decide), continueType, hb]
    have hclose : (arrayEnd tree b.tree c).step t =
        some (suffix (Tree.close .arrayType [tree, b.tree, t.tree]) c) := by
      simp only [step, ht]
    refine ⟨Tree.close .arrayType [tree, b.tree, t.tree], _, ?_,
      (ho.append (.one (tells_afterType hq) hbracket)).append
        (.one (tells_of_terminal ht (by decide)) hclose), Or.inl rfl⟩
    exact congrArg (fun ps => [Tree.close .arrayType (ps ++ [b.tree] ++ [t.tree])]) hp
  | .type (.right (.rule (.seq (.seq (.terminal m hm) e) (.terminal t ht)))) =>
    obtain ⟨tree, q, hp, ho, hq⟩ := opens_type e (.inMatrix m.tree c)
    have hopen : startType c m = some (type (.inMatrix m.tree c)) := by rw [startType, hm]
    have hinner : (type (.inMatrix m.tree c)).Leads e.tokens q :=
      ho.leads id fun t _ => tells_of_no_keyword (by simp [accepts, typeStarts, isKeyword])
    have hclose : q.step t = some (suffix (Tree.close .matrixType [m.tree, tree, t.tree]) c) := by
      rw [step_afterType hq (by rw [ht]; decide)]
      simp only [continueType, endType, ht]
    refine ⟨Tree.close .matrixType [m.tree, tree, t.tree], _, ?_,
      ⟨m, e.tokens ++ [t], _, rfl, hopen, hinner.append (.one (tells_afterType hq) hclose)⟩,
      Or.inl rfl⟩
    exact congrArg (fun ps => [Tree.close .matrixType ([m.tree] ++ ps ++ [t.tree])]) hp
  termination_by d.size
  decreasing_by
    all_goals
      simp only [size]
      omega

/-! ### Members -/

theorem opens_spelling (d : DerivationTree (.rule .typeSpelling)) (c : SpellingContext) :
    ∃ const tree q, d.pieces = [Tree.close .typeSpelling [const, tree]] ∧
      Opens (startSpelling c) d.tokens q ∧ AfterType tree (.ofSpelling const c) q := by
  match d with
  | .rule (.seq .absent e) =>
    obtain ⟨tree, q, hp, ho, hq⟩ := opens_type e (.ofSpelling .absent c)
    refine ⟨.absent, tree, q, ?_, ho.mono (Turn.spelling c).step, hq⟩
    exact congrArg (fun ps => [Tree.close .typeSpelling ([Tree.absent] ++ ps)]) hp
  | .rule (.seq (.present (.terminal m hm)) e) =>
    obtain ⟨tree, q, hp, ho, hq⟩ := opens_type e (.ofSpelling m.tree c)
    have hopen : startSpelling c m = some (type (.ofSpelling m.tree c)) := by
      rw [startSpelling, hm]
    have hinner : (type (.ofSpelling m.tree c)).Leads e.tokens q :=
      ho.leads id fun t _ => tells_of_no_keyword (by simp [accepts, typeStarts, isKeyword])
    refine ⟨m.tree, tree, q, ?_, ⟨m, e.tokens, _, rfl, hopen, hinner⟩, hq⟩
    exact congrArg (fun ps => [Tree.close .typeSpelling ([m.tree] ++ ps)]) hp

/-- Behind the static mark a type spelling avoids its own mark only. -/
theorem leads_spelling {d : DerivationTree (.rule .typeSpelling)} (hd : d.Clear)
    {c : SpellingContext} {q : Point} (h : Opens (startSpelling c) d.tokens q) :
    (spelling c).Leads d.tokens q := by
  match d with
  | .rule e =>
    exact h.leads id (tells_of_avoids hd.1
      (by simp [accepts, spellingStarts, typeStarts, isKeyword, spelling?, marks]))

theorem step_afterType_memberName {static const tree : Tree} {c : MemberContext} {q : Point}
    (hq : AfterType tree (.ofSpelling const (.ofMember static c)) q)
    (ht : t.terminal = identifier) :
    q.step t =
      some (memberName [static, Tree.close .typeSpelling [const, tree], t.tree] c) := by
  rw [step_afterType hq (by rw [ht]; decide)]
  simp only [continueType, endType, ht]

theorem opens_memberFront (d : DerivationTree Phrase.memberFront) (hd : d.Clear)
    (c : MemberContext) : Opens (startMember c) d.tokens (memberName d.pieces c) := by
  match d with
  | .seq (.seq .absent e) (.terminal t ht) =>
    obtain ⟨const, tree, q, hp, ho, hq⟩ := opens_spelling e (.ofMember .absent c)
    have hname : q.step t = some (memberName ([Tree.absent] ++ e.pieces ++ [t.tree]) c) := by
      rw [hp]
      exact step_afterType_memberName hq ht
    exact (ho.mono (Turn.member c).step).append (.one (tells_afterType hq) hname)
  | .seq (.seq (.present (.terminal m hm)) e) (.terminal t ht) =>
    obtain ⟨const, tree, q, hp, ho, hq⟩ := opens_spelling e (.ofMember m.tree c)
    have hname : q.step t = some (memberName ([m.tree] ++ e.pieces ++ [t.tree]) c) := by
      rw [hp]
      exact step_afterType_memberName hq ht
    have hopen : startMember c m = some (spelling (.ofMember m.tree c)) := by
      rw [startMember, hm]
    exact ⟨m, e.tokens ++ [t], _, rfl, hopen,
      (leads_spelling hd.1.2.1 ho).append (.one (tells_afterType hq) hname)⟩

theorem tells_memberName {ps : List Tree} {c : MemberContext} : (memberName ps c).Tells t := by
  refine tells_of_no_keyword ?_
  cases c <;> simp [accepts, MemberContext.allowsField, MemberContext.allowsMethod, isKeyword]

theorem leads_fieldBack (d : DerivationTree .initial) {ps : List Tree} {c : MemberContext}
    (ha : c.allowsField = true) (ht : t.terminal = semicolon) :
    (memberName ps c).Leads (d.tokens ++ [t])
      (endMember (Tree.close .fieldDecl (ps ++ d.pieces ++ [t.tree])) c) := by
  rcases initial_cases d with ⟨hts, hp⟩ | ⟨s, tree, us, hs, hts, hp, hl⟩
  · rw [hts, hp, List.append_assoc]
    refine .one tells_memberName ?_
    simp only [step, ht, ha, List.singleton_append]
  · have hvalue := hl (.ofField (ps ++ [s.tree]) c)
    rw [hts, hp, List.append_assoc]
    refine .cons (q := value (.ofField (ps ++ [s.tree]) c)) tells_memberName ?_
      (hvalue.append (.one (tells_of_terminal ht (by decide)) ?_))
    · simp only [step, hs, ha]
    · simp only [endValue, step, ht, List.append_assoc, List.cons_append, List.nil_append]

theorem opens_field (d : DerivationTree (.rule .fieldDecl)) (hd : d.Clear) {c : MemberContext}
    (ha : c.allowsField = true) :
    ∃ tree, d.pieces = [tree] ∧ Opens (startMember c) d.tokens (endMember tree c) := by
  match d with
  | .rule (.seq (.seq front init) (.terminal s hs)) =>
    refine ⟨_, rfl, ?_⟩
    have hfront := opens_memberFront front hd.2.1.1 c
    have hall := hfront.append (leads_fieldBack init ha hs)
    rwa [← List.append_assoc] at hall

/-! ### Arguments -/

/-- The points at which an argument is complete, of which the second waits for a value. -/
def AfterArgument (ps : List Tree) (c : ArgumentContext) (q : Point) : Prop :=
  q = endArgument ps c ∨ ∃ qs, ps = qs ++ [.absent] ∧ q = argumentName qs c

theorem opens_argumentFront
    (d : DerivationTree (Phrase.maybe Rule.properties ++ Rule.typeSpelling ++ identifier))
    (hd : d.Clear) (c : ArgumentContext) :
    Opens (startArgument c) d.tokens (argumentName d.pieces c) ∧ Avoids ["const"] d.tokens := by
  match d with
  | .seq (.seq .absent e) (.terminal t ht) =>
    obtain ⟨const, tree, q, hp, ho, hq⟩ := opens_spelling e (.ofArgument .absent c)
    have hname : q.step t = some (argumentName ([Tree.absent] ++ e.pieces ++ [t.tree]) c) := by
      rw [hp, step_afterType hq (by rw [ht]; decide)]
      simp only [continueType, endType, ht]
      rfl
    refine ⟨(ho.mono (Turn.nextArgument c).step).append (.one (tells_afterType hq) hname), ?_⟩
    have hne := ho.ne_nil
    cases e with
    | rule e => exact avoids_append hd.1.2.1.1 hne
  | .seq (.seq (.present l) e) (.terminal t ht) =>
    obtain ⟨ps, b, us, hlp, hlt, hb, hl⟩ := leads_properties l hd.1.1 (.ofArgument c)
    obtain ⟨const, tree, q, hp, ho, hq⟩ :=
      opens_spelling e (.ofArgument (Tree.close .properties ps) c)
    have hname : q.step t = some (argumentName (l.pieces ++ e.pieces ++ [t.tree]) c) := by
      rw [hlp, hp, step_afterType hq (by rw [ht]; decide)]
      simp only [continueType, endType, ht]
      rfl
    have hopen : startArgument c b = some (property (.inList [b.tree] (.ofArgument c))) := by
      rw [startArgument, hb]
    have hspelling : (argumentType (Tree.close .properties ps) c).Leads e.tokens q := by
      have hlist : EndsInList l := by
        cases l with
        | rule _ => exact Or.inl rfl
      exact ho.leads id (tells_of_avoids (hd.1.2.2 hlist) (by
        simp [accepts, listFollowers, declarationStarts, memberStarts, spellingStarts, typeStarts,
          isKeyword, spelling?, wordsBehindList]))
    refine ⟨⟨b, us ++ e.tokens ++ [t], _, ?_, hopen,
      (hl.append hspelling).append (.one (tells_afterType hq) hname)⟩, ?_⟩
    · simp only [tokens, hlt, List.cons_append]
    · simp only [tokens, hlt]
      intro t ht hi
      obtain rfl := Option.some.inj ht
      rw [hb] at hi
      cases hi

theorem leads_argumentBack (d : DerivationTree .initial) (qs : List Tree) (c : ArgumentContext) :
    ∃ q, (argumentName qs c).Leads d.tokens q ∧ AfterArgument (qs ++ d.pieces) c q := by
  rcases initial_cases d with ⟨hts, hp⟩ | ⟨s, tree, us, hs, hts, hp, hl⟩
  · rw [hts, hp]
    exact ⟨_, .nil, Or.inr ⟨qs, rfl, rfl⟩⟩
  · have hvalue := hl (.ofArgument (qs ++ [s.tree]) c)
    rw [hts, hp]
    refine ⟨_, .cons (q := value (.ofArgument (qs ++ [s.tree]) c)) ?_ ?_ hvalue, Or.inl ?_⟩
    · exact tells_of_no_keyword (by simp [accepts, isKeyword])
    · simp only [step, hs]
    · simp only [endValue, List.append_assoc, List.singleton_append]

theorem opens_argument (d : DerivationTree (.rule .argument)) (hd : d.Clear)
    (c : ArgumentContext) :
    ∃ ps q, d.pieces = [Tree.close .argument ps] ∧ Opens (startArgument c) d.tokens q ∧
      AfterArgument ps c q ∧ Avoids ["const"] d.tokens := by
  match d with
  | .rule (.seq front init) =>
    obtain ⟨ho, havoid⟩ := opens_argumentFront front hd.2.1 c
    obtain ⟨q, hl, hq⟩ := leads_argumentBack init front.pieces c
    exact ⟨_, q, rfl, ho.append hl, hq, avoids_append havoid ho.ne_nil⟩

/-- The points behind the arguments that a context holds. -/
def InArguments (c : ArgumentContext) (q : Point) : Prop :=
  q = argumentEnd c ∨
    ∃ bs qs, c.before = bs ++ [Tree.close .argument (qs ++ [.absent])] ∧
      q = argumentName qs { c with before := bs }

theorem inArguments_of_afterArgument {ps : List Tree} {c : ArgumentContext} {q : Point}
    (h : AfterArgument ps c q) :
    InArguments { c with before := c.before ++ [Tree.close .argument ps] } q := by
  rcases h with rfl | ⟨qs, rfl, rfl⟩
  · exact Or.inl rfl
  · exact Or.inr ⟨c.before, qs, rfl, rfl⟩

theorem step_inArguments {c : ArgumentContext} {q : Point} (h : InArguments c q)
    (ht : t.terminal ≠ equals) : q.step t = continueArguments c t := by
  rcases h with rfl | ⟨bs, qs, hb, rfl⟩
  · rfl
  · simp only [step, ← hb]

theorem leads_moreArguments (d : DerivationTree (.many (.seq (.terminal comma) (.rule .argument))))
    (hd : d.Clear) {c : ArgumentContext} {q : Point} (h : InArguments c q) :
    ∃ s, q.Leads d.tokens s ∧ InArguments { c with before := c.before ++ d.pieces } s := by
  match d with
  | .none => exact ⟨q, .nil, by rwa [pieces, List.append_nil]⟩
  | .more (.seq (.terminal t ht) e) rest =>
    have hstep : q.step t = some (nextArgument { c with before := c.before ++ [t.tree] }) := by
      rw [step_inArguments h (by rw [ht]; decide), continueArguments, ht]
    obtain ⟨ps, s, hp, ho, hs, havoid⟩ :=
      opens_argument e hd.1.2.1 { c with before := c.before ++ [t.tree] }
    have hl : (nextArgument { c with before := c.before ++ [t.tree] }).Leads e.tokens s :=
      ho.leads id (tells_of_avoids havoid (by
        simp [accepts, spellingStarts, typeStarts, isKeyword, spelling?]))
    obtain ⟨s', hl', hs'⟩ := leads_moreArguments rest hd.2.1 (inArguments_of_afterArgument hs)
    refine ⟨s', (Leads.cons (tells_of_terminal ht (by decide)) hstep hl).append hl', ?_⟩
    simpa only [pieces, hp, List.append_assoc, List.singleton_append, List.cons_append,
      List.nil_append] using hs'
  termination_by d.size
  decreasing_by
    simp only [size]
    omega

theorem leads_arguments (d : DerivationTree (.rule .arguments)) (hd : d.Clear) (method : List Tree)
    (c : MemberContext) :
    ∃ ps q, d.pieces = [Tree.close .arguments ps] ∧
      (firstArgument ⟨method, [], c⟩).Leads d.tokens q ∧ InArguments ⟨method, ps, c⟩ q := by
  match d with
  | .rule (.seq e rest) =>
    obtain ⟨ps, q, hp, ho, hq, havoid⟩ := opens_argument e hd.2.1 ⟨method, [], c⟩
    have hfirst : (firstArgument ⟨method, [], c⟩).Leads e.tokens q := by
      exact ho.leads (Turn.firstArgument _).step (tells_of_avoids havoid (by
        simp [accepts, spellingStarts, typeStarts, isKeyword, spelling?]))
    obtain ⟨s, hl, hs⟩ := leads_moreArguments rest hd.2.2.1 (inArguments_of_afterArgument hq)
    refine ⟨e.pieces ++ rest.pieces, s, rfl, hfirst.append hl, ?_⟩
    rwa [hp]

theorem leads_parentheses (d : DerivationTree (.maybe (.rule .arguments))) (hd : d.Clear)
    (method : List Tree) (c : MemberContext) (ht : t.terminal = rightParen) :
    (firstArgument ⟨method, [], c⟩).Leads (d.tokens ++ [t])
      (methodEnd (method ++ d.pieces ++ [t.tree]) c) := by
  match d with
  | .absent =>
    refine .one (tells_of_terminal ht (by decide)) ?_
    simp only [step, ht, pieces, List.append_assoc, List.singleton_append]
  | .present e =>
    obtain ⟨ps, q, hp, hl, hq⟩ := leads_arguments e hd method c
    refine hl.append (.one (tells_of_terminal ht (by decide)) ?_)
    rw [step_inArguments hq (by rw [ht]; decide)]
    simp only [continueArguments, ht, pieces, hp, List.append_assoc, List.singleton_append]

theorem opens_method (d : DerivationTree (.rule .methodDecl)) (hd : d.Clear) {c : MemberContext}
    (ha : c.allowsMethod = true) :
    ∃ tree, d.pieces = [tree] ∧ Opens (startMember c) d.tokens (endMember tree c) := by
  match d with
  | .rule (.seq (.seq (.seq (.seq front (.terminal l hl)) arguments) (.terminal r hr))
      (.terminal s hs)) =>
    refine ⟨_, rfl, ?_⟩
    have hfront := opens_memberFront front hd.2.1.1.1.1 c
    have hopen : (memberName front.pieces c).step l =
        some (firstArgument ⟨front.pieces ++ [l.tree], [], c⟩) := by
      simp only [step, hl, ha]
    have harguments := leads_parentheses arguments hd.2.1.1.2.1 (front.pieces ++ [l.tree]) c hr
    have hclose : (methodEnd (front.pieces ++ [l.tree] ++ arguments.pieces ++ [r.tree]) c).step s =
        some (endMember (Tree.close .methodDecl
          (front.pieces ++ [l.tree] ++ arguments.pieces ++ [r.tree] ++ [s.tree])) c) := by
      simp only [step, hs]
    have hall := ((hfront.append (.one tells_memberName hopen)).append harguments).append
      (.one (tells_of_terminal hs (by decide)) hclose)
    rwa [← List.append_assoc] at hall

end Point

end ClassLang
