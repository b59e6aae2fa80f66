import ClassLang.Syntax.Step

/-!
# Transitions between reading points

What a token does at each point, told once and as a relation. A token is read at a point itself, or
at a point it turns into: where an optional part is left out, or where what has been read is all
there is of a construct. `Point.step` moves a point over a token exactly if there is a transition
(`step_eq_some_iff`), so what holds of every step is proved by cases on transitions.
-/

namespace ClassLang

open Terminal

/-- The point where a class begins. -/
def ClassContext.opening : ClassContext → Point
  | alone => .loneClass
  | inUnit before => .unit before

namespace Point

/-- A point that is also another one, unless what may only stand here comes next. -/
inductive Turn : Point → Point → Prop
  | body (before : List Tree) (c : BodyContext) :
    Turn (body before c) (declaration [] (.inBody before c))
  | loneDeclaration : Turn loneDeclaration (declaration [] .alone)
  | declaration (lists : List Tree) (c : DeclarationContext) :
    Turn (declaration lists c) (member (.ofDeclaration lists c))
  | member (c : MemberContext) : Turn (member c) (spelling (.ofMember .absent c))
  | spelling (c : SpellingContext) : Turn (spelling c) (type (.ofSpelling .absent c))
  | typeName (pieces : List Tree) (c : TypeContext) :
    Turn (typeName pieces c) (suffix (Tree.close .typeName pieces) c)
  | firstArgument (c : ArgumentContext) : Turn (firstArgument c) (nextArgument c)
  | nextArgument (c : ArgumentContext) : Turn (nextArgument c) (spelling (.ofArgument .absent c))
  | argumentType (properties : Tree) (c : ArgumentContext) :
    Turn (argumentType properties c) (spelling (.ofArgument properties c))
  | argumentName (pieces : List Tree) (c : ArgumentContext) :
    Turn (argumentName pieces c) (argumentEnd
      { c with before := c.before ++ [Tree.close .argument (pieces ++ [.absent])] })
  | propertyHead (pieces before : List Tree) (c : PropertyListContext) :
    Turn (propertyHead pieces (.inList before c))
      (propertyEnd (before ++ [Tree.close .property (pieces ++ [.absent])]) c)

/-- The moves over one token. -/
inductive Transition (t : Token) : Point → Point → Prop
  | bareClass {c : ClassContext} : t.terminal = kwClass →
    Transition t c.opening (className [.absent, t.tree] c)
  | classList {c : ClassContext} : t.terminal = leftBracket →
    Transition t c.opening (property (.inList [t.tree] (.ofClass c)))
  | classKeyword {list : Tree} {c : ClassContext} : t.terminal = kwClass →
    Transition t (classKeyword list c) (className [list, t.tree] c)
  | className {ps : List Tree} {c : ClassContext} : t.terminal = identifier →
    Transition t (className ps c) (classHead (ps ++ [t.tree]) c)
  | firstBase {ps : List Tree} {c : ClassContext} : t.terminal = colon →
    Transition t (classHead ps c) (base ps [t.tree] c)
  | base {head ps : List Tree} {c : ClassContext} : t.terminal = identifier →
    Transition t (base head ps c) (bases head (ps ++ [t.tree]) c)
  | nextBase {head ps : List Tree} {c : ClassContext} : t.terminal = comma →
    Transition t (bases head ps c) (base head (ps ++ [t.tree]) c)
  | baseless {ps : List Tree} {c : ClassContext} : t.terminal = leftBrace →
    Transition t (classHead ps c) (body [] (.ofClass (ps ++ [.absent] ++ [t.tree]) c))
  | based {head ps : List Tree} {c : ClassContext} : t.terminal = leftBrace →
    Transition t (bases head ps c)
      (body [] (.ofClass (head ++ [Tree.close .inheritance ps] ++ [t.tree]) c))
  | endBody {ps : List Tree} {c : BodyContext} {q : Point} : t.terminal = rightBrace →
    endBody ps t.tree c = some q → Transition t (body ps c) q
  | declarationList {lists : List Tree} {c : DeclarationContext} : t.terminal = leftBracket →
    Transition t (declaration lists c) (property (.inList [t.tree] (.ofDeclaration lists c)))
  | block {lists : List Tree} {c : DeclarationContext} : t.terminal = leftBrace →
    Transition t (declaration lists c) (body [] (c.blockBody lists t.tree))
  | static {c : MemberContext} : t.terminal = kwStatic →
    Transition t (member c) (spelling (.ofMember t.tree c))
  | const {c : SpellingContext} : t.terminal = kwConst →
    Transition t (spelling c) (type (.ofSpelling t.tree c))
  | type {c : TypeContext} : t.terminal = identifier →
    Transition t (type c) (typeName [t.tree] c)
  | matrix {c : TypeContext} : t.terminal = matrixOpen →
    Transition t (type c) (type (.inMatrix t.tree c))
  | doubleColon {ps : List Tree} {c : TypeContext} : t.terminal = doubleColon →
    Transition t (typeName ps c) (typeNamePart (ps ++ [t.tree]) c)
  | typeNamePart {ps : List Tree} {c : TypeContext} : t.terminal = identifier →
    Transition t (typeNamePart ps c) (typeName (ps ++ [t.tree]) c)
  | star {tree : Tree} {c : TypeContext} : t.terminal = star →
    Transition t (suffix tree c) (suffix (Tree.close .pointerType [tree, t.tree]) c)
  | doubleStar {tree : Tree} {c : TypeContext} : t.terminal = doubleStar →
    Transition t (suffix tree c) (suffix (Tree.close .doublePointerType [tree, t.tree]) c)
  | ampersand {tree : Tree} {c : TypeContext} : t.terminal = ampersand →
    Transition t (suffix tree c) (suffix (Tree.close .referenceType [tree, t.tree]) c)
  | array {tree : Tree} {c : TypeContext} : t.terminal = leftBracket →
    Transition t (suffix tree c) (arrayEnd tree t.tree c)
  | arrayEnd {tree bracket : Tree} {c : TypeContext} : t.terminal = rightBracket →
    Transition t (arrayEnd tree bracket c)
      (suffix (Tree.close .arrayType [tree, bracket, t.tree]) c)
  | matrixEnd {tree opening : Tree} {c : TypeContext} : t.terminal = greater →
    Transition t (suffix tree (.inMatrix opening c))
      (suffix (Tree.close .matrixType [opening, tree, t.tree]) c)
  | memberName {tree const static : Tree} {c : MemberContext} : t.terminal = identifier →
    Transition t (suffix tree (.ofSpelling const (.ofMember static c)))
      (memberName [static, Tree.close .typeSpelling [const, tree], t.tree] c)
  | argumentName {tree const list : Tree} {c : ArgumentContext} : t.terminal = identifier →
    Transition t (suffix tree (.ofSpelling const (.ofArgument list c)))
      (argumentName [list, Tree.close .typeSpelling [const, tree], t.tree] c)
  | fieldValue {ps : List Tree} {c : MemberContext} : t.terminal = equals →
    c.allowsField = true →
    Transition t (memberName ps c) (value (.ofField (ps ++ [t.tree]) c))
  | endField {ps : List Tree} {c : MemberContext} : t.terminal = semicolon →
    c.allowsField = true →
    Transition t (memberName ps c)
      (endMember (Tree.close .fieldDecl (ps ++ [.absent, t.tree])) c)
  | arguments {ps : List Tree} {c : MemberContext} : t.terminal = leftParen →
    c.allowsMethod = true →
    Transition t (memberName ps c) (firstArgument ⟨ps ++ [t.tree], [], c⟩)
  | fieldEnd {ps : List Tree} {c : MemberContext} : t.terminal = semicolon →
    Transition t (fieldEnd ps c) (endMember (Tree.close .fieldDecl (ps ++ [t.tree])) c)
  | noArguments {c : ArgumentContext} : t.terminal = rightParen →
    Transition t (firstArgument c) (methodEnd (c.method ++ [.absent, t.tree]) c.outer)
  | argumentList {c : ArgumentContext} : t.terminal = leftBracket →
    Transition t (nextArgument c) (property (.inList [t.tree] (.ofArgument c)))
  | argumentValue {ps : List Tree} {c : ArgumentContext} : t.terminal = equals →
    Transition t (argumentName ps c) (value (.ofArgument (ps ++ [t.tree]) c))
  | nextArgument {c : ArgumentContext} : t.terminal = comma →
    Transition t (argumentEnd c) (nextArgument { c with before := c.before ++ [t.tree] })
  | endArguments {c : ArgumentContext} : t.terminal = rightParen →
    Transition t (argumentEnd c)
      (methodEnd (c.method ++ [Tree.close .arguments c.before, t.tree]) c.outer)
  | methodEnd {ps : List Tree} {c : MemberContext} : t.terminal = semicolon →
    Transition t (methodEnd ps c) (endMember (Tree.close .methodDecl (ps ++ [t.tree])) c)
  | loneList : t.terminal = leftBracket →
    Transition t lonePropertyList (property (.inList [t.tree] .alone))
  | metaMark {c : PropertyContext} : t.terminal = kwMeta →
    Transition t (property c) (propertyName t.tree c)
  | property {c : PropertyContext} : t.terminal = identifier →
    Transition t (property c) (propertyHead [.absent, t.tree] c)
  | propertyName {mark : Tree} {c : PropertyContext} : t.terminal = identifier →
    Transition t (propertyName mark c) (propertyHead [mark, t.tree] c)
  | propertyValue {ps : List Tree} {c : PropertyContext} : t.terminal = equals →
    Transition t (propertyHead ps c) (value (.ofProperty (ps ++ [t.tree]) c))
  | nextProperty {ps : List Tree} {c : PropertyListContext} : t.terminal = comma →
    Transition t (propertyEnd ps c) (property (.inList (ps ++ [t.tree]) c))
  | endList {ps : List Tree} {c : PropertyListContext} : t.terminal = rightBracket →
    Transition t (propertyEnd ps c) (endPropertyList (ps ++ [t.tree]) c)
  | value {c : ValueContext} : t.terminal.isLiteral = true →
    Transition t (value c) (endValue (Tree.close .value [t.tree]) c)
  | turn {p p' q : Point} : Turn p p' → Transition t p' q → Transition t p q

variable {t : Token} {p p' q : Point}

/-! ### Steps are transitions -/

theorem transition_of_startType {c : TypeContext} (h : startType c t = some q) :
    Transition t (type c) q := by
  unfold startType at h
  split at h <;> cases h
  · exact .type ‹_›
  · exact .matrix ‹_›

theorem transition_of_startSpelling {c : SpellingContext} (h : startSpelling c t = some q) :
    Transition t (spelling c) q := by
  unfold startSpelling at h
  split at h
  · cases h
    exact .const ‹_›
  · exact .turn (.spelling c) (transition_of_startType h)

theorem transition_of_startMember {c : MemberContext} (h : startMember c t = some q) :
    Transition t (member c) q := by
  unfold startMember at h
  split at h
  · cases h
    exact .static ‹_›
  · exact .turn (.member c) (transition_of_startSpelling h)

theorem transition_of_startDeclaration {lists : List Tree} {c : DeclarationContext}
    (h : startDeclaration lists c t = some q) : Transition t (declaration lists c) q := by
  unfold startDeclaration at h
  split at h
  · cases h
    exact .declarationList ‹_›
  · cases h
    exact .block ‹_›
  · exact .turn (.declaration lists c) (transition_of_startMember h)

theorem transition_of_startClass {c : ClassContext} (h : startClass c t = some q) :
    Transition t c.opening q := by
  unfold startClass at h
  split at h <;> cases h
  · exact .bareClass ‹_›
  · exact .classList ‹_›

theorem transition_of_startArgument {c : ArgumentContext} (h : startArgument c t = some q) :
    Transition t (nextArgument c) q := by
  unfold startArgument at h
  split at h
  · cases h
    exact .argumentList ‹_›
  · exact .turn (.nextArgument c) (transition_of_startSpelling h)

theorem transition_of_continueType {tree : Tree} {c : TypeContext}
    (h : continueType tree c t = some q) : Transition t (suffix tree c) q := by
  unfold continueType endType at h
  split at h
  · cases h
    exact .star ‹_›
  · cases h
    exact .doubleStar ‹_›
  · cases h
    exact .ampersand ‹_›
  · cases h
    exact .array ‹_›
  · split at h <;> cases h
    · exact .matrixEnd ‹_›
    · exact .memberName ‹_›
    · exact .argumentName ‹_›

theorem transition_of_continueList {ps : List Tree} {c : PropertyListContext}
    (h : continueList ps c t = some q) : Transition t (propertyEnd ps c) q := by
  unfold continueList at h
  split at h <;> cases h
  · exact .nextProperty ‹_›
  · exact .endList ‹_›

theorem transition_of_continueArguments {c : ArgumentContext}
    (h : continueArguments c t = some q) : Transition t (argumentEnd c) q := by
  unfold continueArguments at h
  split at h <;> cases h
  · exact .nextArgument ‹_›
  · exact .endArguments ‹_›

theorem eq_of_enterBody {head : List Tree} {c : ClassContext} (h : enterBody head c t = some q) :
    t.terminal = leftBrace ∧ q = body [] (.ofClass (head ++ [t.tree]) c) := by
  unfold enterBody at h
  split at h <;> cases h
  exact ⟨‹_›, rfl⟩

theorem transition_of_step (h : p.step t = some q) : Transition t p q := by
  unfold step at h
  cases p with simp only at h
  | unit before => exact transition_of_startClass (c := .inUnit before) h
  | loneClass => exact transition_of_startClass (c := .alone) h
  | classKeyword list c =>
    split at h <;> cases h
    exact .classKeyword ‹_›
  | className ps c =>
    split at h <;> cases h
    exact .className ‹_›
  | classHead ps c =>
    split at h
    · cases h
      exact .firstBase ‹_›
    · obtain ⟨ht, rfl⟩ := eq_of_enterBody h
      exact .baseless ht
  | base head ps c =>
    split at h <;> cases h
    exact .base ‹_›
  | bases head ps c =>
    split at h
    · cases h
      exact .nextBase ‹_›
    · obtain ⟨ht, rfl⟩ := eq_of_enterBody h
      exact .based ht
  | body ps c =>
    split at h
    · exact .endBody ‹_› h
    · exact .turn (.body ps c) (transition_of_startDeclaration h)
  | loneDeclaration => exact .turn .loneDeclaration (transition_of_startDeclaration h)
  | declaration lists c => exact transition_of_startDeclaration h
  | member c => exact transition_of_startMember h
  | spelling c => exact transition_of_startSpelling h
  | type c => exact transition_of_startType h
  | typeName ps c =>
    split at h
    · cases h
      exact .doubleColon ‹_›
    · exact .turn (.typeName ps c) (transition_of_continueType h)
  | typeNamePart ps c =>
    split at h <;> cases h
    exact .typeNamePart ‹_›
  | suffix tree c => exact transition_of_continueType h
  | arrayEnd tree bracket c =>
    split at h <;> cases h
    exact .arrayEnd ‹_›
  | memberName ps c =>
    split at h <;> cases h
    · exact .fieldValue ‹_› ‹_›
    · exact .endField ‹_› ‹_›
    · exact .arguments ‹_› ‹_›
  | fieldEnd ps c =>
    split at h <;> cases h
    exact .fieldEnd ‹_›
  | firstArgument c =>
    split at h
    · cases h
      exact .noArguments ‹_›
    · exact .turn (.firstArgument c) (transition_of_startArgument h)
  | nextArgument c => exact transition_of_startArgument h
  | argumentType list c => exact .turn (.argumentType list c) (transition_of_startSpelling h)
  | argumentName ps c =>
    split at h
    · cases h
      exact .argumentValue ‹_›
    · exact .turn (.argumentName ps c) (transition_of_continueArguments h)
  | argumentEnd c => exact transition_of_continueArguments h
  | methodEnd ps c =>
    split at h <;> cases h
    exact .methodEnd ‹_›
  | lonePropertyList =>
    split at h <;> cases h
    exact .loneList ‹_›
  | property c =>
    split at h <;> cases h
    · exact .metaMark ‹_›
    · exact .property ‹_›
  | propertyName mark c =>
    split at h <;> cases h
    exact .propertyName ‹_›
  | propertyHead ps c =>
    split at h
    · cases h
      exact .propertyValue ‹_›
    · exact .turn (.propertyHead ps _ _) (transition_of_continueList h)
    · cases h
  | propertyEnd ps c => exact transition_of_continueList h
  | value c =>
    split at h <;> cases h
    exact .value ‹_›
  | done tree => cases h

/-! ### Transitions are steps -/

/-- What a point turns into has no step that the point has itself. -/
theorem Turn.step (h : Turn p p') (hq : p'.step t = some q) : p.step t = some q := by
  obtain ⟨k, text, range⟩ := t
  cases h with
  | typeName ps c => cases k <;> first | exact hq | (cases c with
    | alone => cases hq
    | inMatrix opening c => cases hq
    | ofSpelling const c => cases c <;> cases hq)
  | _ => cases k <;> first | exact hq | cases hq

theorem Transition.step (h : Transition t p q) : p.step t = some q := by
  induction h with
  | turn hturn _ ih => exact hturn.step ih
  | @bareClass c ht | @classList c ht =>
    cases c <;> simp [ClassContext.opening, Point.step, startClass, ht]
  | endBody ht hq => simp [Point.step, ht, hq]
  | value ht => simp [Point.step, ht]
  | fieldValue ht ha | endField ht ha | arguments ht ha => simp [Point.step, ht, ha]
  | _ ht =>
    simp [Point.step, ht, enterBody, startDeclaration, startMember, startSpelling, startType,
      startArgument, continueType, endType, continueList, continueArguments]

theorem step_eq_some_iff : p.step t = some q ↔ Transition t p q :=
  ⟨transition_of_step, Transition.step⟩

/-! ### What some signs do -/

/-- A brace that closes something closes a body. -/
theorem Transition.of_rightBrace (h : Transition t p q) (ht : t.terminal = rightBrace) :
    ∃ before context, p = .body before context ∧
      Point.endBody before t.tree context = some q := by
  induction h with
  | endBody _ hq => exact ⟨_, _, rfl, hq⟩
  | turn hturn _ ih =>
    obtain ⟨before, context, rfl, -⟩ := ih
    cases hturn
  | value hl =>
    rw [ht] at hl
    cases hl
  | _ hk => cases ht.symm.trans hk

/-- A bracket that closes something closes a property list, or it ends an array. -/
theorem Transition.of_rightBracket (h : Transition t p q) (ht : t.terminal = rightBracket) :
    (∃ tree bracket context, p = .arrayEnd tree bracket context ∧
      q = .suffix (Tree.close .arrayType [tree, bracket, t.tree]) context) ∨
    ∃ pieces context, q = endPropertyList pieces context := by
  induction h with
  | arrayEnd _ => exact Or.inl ⟨_, _, _, rfl, rfl⟩
  | endList _ => exact Or.inr ⟨_, _, rfl⟩
  | turn hturn _ ih =>
    obtain ⟨tree, bracket, context, rfl, -⟩ | hlist := ih
    · cases hturn
    · exact Or.inr hlist
  | value hl =>
    rw [ht] at hl
    cases hl
  | _ hk => cases ht.symm.trans hk

/-- Behind the keyword of a class its name is looked for. -/
theorem Transition.of_kwClass (h : Transition t p q) (ht : t.terminal = kwClass) :
    ∃ pieces context, q = .className pieces context := by
  induction h with
  | bareClass _ | classKeyword _ => exact ⟨_, _, rfl⟩
  | turn _ _ ih => exact ih
  | value hl =>
    rw [ht] at hl
    cases hl
  | _ hk => cases ht.symm.trans hk

end Point

end ClassLang
