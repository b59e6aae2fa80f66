import ClassLang.Proofs.Syntax.Completeness

/-!
# Completions

From every reading point some terminals lead to the end of a text: names where a name is due, and
then the signs that close what is open, from the inside out. `Point.completion` lists them. Blocks
and opened matrices nest without bound, so the signs follow the contexts of the point. Main
statement: a point is moved over its completion, whatever places the tokens stand at, to a point
where the text may end.
-/

namespace ClassLang

open Terminal

/-! ### Terminals written out -/

/-- A text that belongs to a terminal, and is no keyword if it is a name. -/
def Terminal.sample : Terminal → String
  | bool => "true"
  | identifier => "x"
  | char => "\x270\x27"
  | float => "0.0"
  | integer => "0"
  | string => "\x22\x22"
  | matrixOpen => "Matrix<"
  | k => k.spelling?.getD ""

theorem Terminal.matches_sample (k : Terminal) : k.Matches k.sample.toList := by
  have hscan : k.scan k.sample.toList = some (k.sample.toList, []) := by
    cases k <;> decide
  exact scan_matches hscan

theorem Terminal.not_mistaken_sample (accepted : List Terminal) :
    ¬Mistaken accepted identifier.sample := by
  rintro ⟨k, -, hkey, hspelling⟩
  cases k <;> simp_all [isKeyword, spelling?, sample]

def Token.sample (k : Terminal) : Token := .loose k k.sample

/-! ### What closes a context -/

def BodyContext.closing : BodyContext → List Terminal
  | alone => []
  | ofClass _ _ => [rightBrace]
  | ofLoneBlock _ _ => [rightBrace]
  | ofBlock _ _ _ outer => rightBrace :: outer.closing

def DeclarationContext.closing : DeclarationContext → List Terminal
  | alone => []
  | inBody _ outer => outer.closing

def MemberContext.closing : MemberContext → List Terminal
  | loneField => []
  | loneMethod => []
  | ofDeclaration _ outer => outer.closing

/-- What may follow the name of a member, up to the end. -/
def MemberContext.afterName (c : MemberContext) : List Terminal :=
  if c.allowsField then semicolon :: c.closing
  else leftParen :: rightParen :: semicolon :: c.closing

def ArgumentContext.closing (c : ArgumentContext) : List Terminal :=
  rightParen :: semicolon :: c.outer.closing

def classRest : List Terminal := [kwClass, identifier, leftBrace, rightBrace]

def PropertyListContext.closing : PropertyListContext → List Terminal
  | alone => []
  | ofClass _ => classRest
  | ofDeclaration _ outer => leftBrace :: rightBrace :: outer.closing
  | ofArgument outer => identifier :: identifier :: outer.closing

def PropertyContext.closing : PropertyContext → List Terminal
  | alone => []
  | inList _ outer => rightBracket :: outer.closing

def SpellingContext.closing : SpellingContext → List Terminal
  | ofMember _ outer => identifier :: outer.afterName
  | ofArgument _ outer => identifier :: outer.closing

def TypeContext.closing : TypeContext → List Terminal
  | alone => []
  | ofSpelling _ outer => outer.closing
  | inMatrix _ outer => greater :: outer.closing

def ValueContext.closing : ValueContext → List Terminal
  | alone => []
  | ofProperty _ outer => outer.closing
  | ofField _ outer => semicolon :: outer.closing
  | ofArgument _ outer => outer.closing

namespace Point

/-- Terminals that lead from a point to the end of a text. -/
def completion : Point → List Terminal
  | unit _ => []
  | loneClass => classRest
  | classKeyword _ _ => classRest
  | className _ _ => [identifier, leftBrace, rightBrace]
  | classHead _ _ => [leftBrace, rightBrace]
  | base _ _ _ => [identifier, leftBrace, rightBrace]
  | bases _ _ _ => [leftBrace, rightBrace]
  | body _ c => c.closing
  | loneDeclaration => [leftBrace, rightBrace]
  | declaration _ c => leftBrace :: rightBrace :: c.closing
  | member c => identifier :: identifier :: c.afterName
  | spelling c => identifier :: c.closing
  | type c => identifier :: c.closing
  | typeName _ c => c.closing
  | typeNamePart _ c => identifier :: c.closing
  | suffix _ c => c.closing
  | arrayEnd _ _ c => rightBracket :: c.closing
  | memberName _ c => c.afterName
  | fieldEnd _ c => semicolon :: c.closing
  | firstArgument c => c.closing
  | nextArgument c => identifier :: identifier :: c.closing
  | argumentType _ c => identifier :: identifier :: c.closing
  | argumentName _ c => c.closing
  | argumentEnd c => c.closing
  | methodEnd _ c => semicolon :: c.closing
  | lonePropertyList => [leftBracket, identifier, rightBracket]
  | property c => identifier :: c.closing
  | propertyName _ c => identifier :: c.closing
  | propertyHead _ c => c.closing
  | propertyEnd _ c => rightBracket :: c.closing
  | value c => kwNullptr :: c.closing
  | done _ => []

variable {p : Point} {t : Token} {k : Terminal} {ks : List Terminal}

/-! ### Ends of constructs -/

@[simp]
theorem completion_endClass (tree : Tree) (c : ClassContext) :
    (endClass tree c).completion = [] := by
  cases c <;> rfl

@[simp]
theorem completion_endDeclaration (ps : List Tree) (c : DeclarationContext) :
    (endDeclaration ps c).completion = c.closing := by
  cases c <;> rfl

@[simp]
theorem completion_endMember (tree : Tree) (c : MemberContext) :
    (endMember tree c).completion = c.closing := by
  cases c with
  | ofDeclaration lists outer => exact completion_endDeclaration _ outer
  | _ => rfl

@[simp]
theorem closing_blockBody (lists : List Tree) (brace : Tree) (c : DeclarationContext) :
    (c.blockBody lists brace).closing = rightBrace :: c.closing := by
  cases c <;> rfl

@[simp]
theorem completion_endPropertyList (ps : List Tree) (c : PropertyListContext) :
    (endPropertyList ps c).completion = c.closing := by
  cases c <;> rfl

@[simp]
theorem completion_endProperty (ps : List Tree) (c : PropertyContext) :
    (endProperty ps c).completion = c.closing := by
  cases c <;> rfl

@[simp]
theorem completion_endValue (tree : Tree) (c : ValueContext) :
    (endValue tree c).completion = c.closing := by
  cases c with
  | ofProperty ps outer => exact completion_endProperty _ outer
  | _ => rfl

/-! ### One step of a completion -/

/-- Whether a token leads to a point that the given terminals complete. -/
def Completes (t : Token) (ks : List Terminal) (p : Point) : Prop :=
  ∃ q, Transition t p q ∧ q.completion = ks

theorem completes_body {ps : List Tree} {c : BodyContext} (h : c.closing = k :: ks)
    (ht : t.terminal = k) : Completes t ks (body ps c) := by
  cases c with
  | alone => cases h
  | ofClass head outer =>
    cases h
    exact ⟨_, .endBody ht rfl, completion_endClass _ outer⟩
  | ofLoneBlock lists brace =>
    cases h
    exact ⟨_, .endBody ht rfl, rfl⟩
  | ofBlock lists brace before outer =>
    cases h
    exact ⟨_, .endBody ht rfl, rfl⟩

theorem completes_suffix {tree : Tree} {c : TypeContext} (h : c.closing = k :: ks)
    (ht : t.terminal = k) : Completes t ks (suffix tree c) := by
  cases c with
  | alone => cases h
  | inMatrix opening outer =>
    cases h
    exact ⟨_, .matrixEnd ht, rfl⟩
  | ofSpelling const outer =>
    cases outer with
    | ofMember static outer =>
      cases h
      exact ⟨_, .memberName ht, rfl⟩
    | ofArgument list outer =>
      cases h
      exact ⟨_, .argumentName ht, rfl⟩

theorem completes_memberName {ps : List Tree} {c : MemberContext} (h : c.afterName = k :: ks)
    (ht : t.terminal = k) : Completes t ks (memberName ps c) := by
  cases hf : c.allowsField with
  | true =>
    rw [MemberContext.afterName, hf, if_pos rfl] at h
    cases h
    exact ⟨_, .endField ht hf, completion_endMember _ c⟩
  | false =>
    rw [MemberContext.afterName, hf, if_neg Bool.false_ne_true] at h
    cases h
    have hm : c.allowsMethod = true := by
      cases c <;> first | rfl | cases hf
    exact ⟨_, .arguments ht hm, rfl⟩

/-- A point is moved over the first terminal of its completion, and the others complete the point
behind it. -/
theorem completes {k : Terminal} {ks : List Terminal} {t : Token} :
    {p : Point} → p.completion = k :: ks → t.terminal = k → Completes t ks p
  | loneClass, rfl, ht => ⟨_, .bareClass (c := .alone) ht, rfl⟩
  | classKeyword .., rfl, ht => ⟨_, .classKeyword ht, rfl⟩
  | className .., rfl, ht => ⟨_, .className ht, rfl⟩
  | classHead .., rfl, ht => ⟨_, .baseless ht, rfl⟩
  | base .., rfl, ht => ⟨_, .base ht, rfl⟩
  | bases .., rfl, ht => ⟨_, .based ht, rfl⟩
  | body .., h, ht => completes_body h ht
  | loneDeclaration, rfl, ht => ⟨_, .turn .loneDeclaration (.block ht), rfl⟩
  | declaration .., rfl, ht => ⟨_, .block ht, closing_blockBody _ _ _⟩
  | member c, rfl, ht => ⟨_, .turn (.member c) (.turn (.spelling _) (.type ht)), rfl⟩
  | spelling c, rfl, ht => ⟨_, .turn (.spelling c) (.type ht), rfl⟩
  | type _, rfl, ht => ⟨_, .type ht, rfl⟩
  | typeName ps c, h, ht =>
    have ⟨q, hmove, hq⟩ := completes_suffix h ht
    ⟨q, .turn (.typeName ps c) hmove, hq⟩
  | typeNamePart .., rfl, ht => ⟨_, .typeNamePart ht, rfl⟩
  | suffix .., h, ht => completes_suffix h ht
  | arrayEnd .., rfl, ht => ⟨_, .arrayEnd ht, rfl⟩
  | memberName .., h, ht => completes_memberName h ht
  | fieldEnd _ c, rfl, ht => ⟨_, .fieldEnd ht, completion_endMember _ c⟩
  | firstArgument _, rfl, ht => ⟨_, .noArguments ht, rfl⟩
  | nextArgument c, rfl, ht => ⟨_, .turn (.nextArgument c) (.turn (.spelling _) (.type ht)), rfl⟩
  | argumentType list c, rfl, ht =>
    ⟨_, .turn (.argumentType list c) (.turn (.spelling _) (.type ht)), rfl⟩
  | argumentName ps c, rfl, ht => ⟨_, .turn (.argumentName ps c) (.endArguments ht), rfl⟩
  | argumentEnd _, rfl, ht => ⟨_, .endArguments ht, rfl⟩
  | methodEnd _ c, rfl, ht => ⟨_, .methodEnd ht, completion_endMember _ c⟩
  | lonePropertyList, rfl, ht => ⟨_, .loneList ht, rfl⟩
  | property _, rfl, ht => ⟨_, .property ht, rfl⟩
  | propertyName .., rfl, ht => ⟨_, .propertyName ht, rfl⟩
  | propertyHead ps (.inList before c), rfl, ht =>
    ⟨_, .turn (.propertyHead ps before c) (.endList ht), completion_endPropertyList _ c⟩
  | propertyEnd _ c, rfl, ht => ⟨_, .endList ht, completion_endPropertyList _ c⟩
  | value c, rfl, ht => ⟨_, .value (by rw [ht]; rfl), completion_endValue _ c⟩

/-- Where nothing is left to be completed the text may end. -/
theorem finish_of_completion_nil (h : p.completion = []) : ∃ tree, p.finish? = some tree := by
  have hname : ∀ c : MemberContext, c.afterName ≠ [] := by
    intro c
    unfold MemberContext.afterName
    split <;> exact List.cons_ne_nil _ _
  have htype : ∀ c : TypeContext, c.closing = [] → c = .alone := by
    intro c hc
    cases c with
    | ofSpelling const outer => cases outer <;> cases hc
    | alone => rfl
    | inMatrix opening outer => cases hc
  cases p with
  | body ps c => cases c <;> first | exact ⟨_, rfl⟩ | cases h
  | memberName ps c => exact absurd h (hname c)
  | typeName ps c =>
    obtain rfl := htype c h
    exact ⟨_, rfl⟩
  | suffix tree c =>
    obtain rfl := htype c h
    exact ⟨_, rfl⟩
  | propertyHead ps c => cases c <;> first | exact ⟨_, rfl⟩ | cases h
  | _ => first | exact ⟨_, rfl⟩ | cases h

/-! ### Whole completions -/

/-- A point is moved over its completion, wherever the tokens stand, to where the text may end. -/
theorem leads_completion (p : Point) {us : List Token}
    (hu : List.Forall₂ Token.Alike us (p.completion.map Token.sample)) :
    ∃ q tree, p.Leads us q ∧ q.finish? = some tree := by
  -- on the completion: each token leaves a point that the rest completes
  generalize hk : p.completion = ks at hu
  induction ks generalizing p us with
  | nil =>
    obtain rfl := List.forall₂_nil_right_iff.1 hu
    obtain ⟨tree, htree⟩ := finish_of_completion_nil hk
    exact ⟨p, tree, .nil, htree⟩
  | cons k ks ih =>
    obtain ⟨t, ts, ⟨hterminal, htext⟩, hts, rfl⟩ := List.forall₂_cons_right_iff.1 hu
    obtain ⟨s, hmove, hrest⟩ := completes hk (t := t) hterminal
    obtain ⟨q, tree, hl, hf⟩ := ih s hrest hts
    have htell : p.Tells t := by
      intro hi
      have hk : k = identifier := hterminal.symm.trans hi
      have hword : t.text = identifier.sample := hk ▸ htext
      rw [hword]
      exact not_mistaken_sample p.accepts
    exact ⟨q, tree, .cons htell hmove.step hl, hf⟩

end Point

end ClassLang
