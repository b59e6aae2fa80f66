import ClassLang.Syntax.Reached
import ClassLang.Syntax.Spread
import ClassLang.Syntax.Transition

/-!
# Progress of reading

A step over a token leads from a reached point to a reached point: what it closes is derived by a
rule, and what it opens has its front behind it. Main statement: a text that is read is spread from
tokens that derive its tree.
-/

namespace ClassLang

open Terminal Rule Phrase

/-! ### Constructs that are complete -/

namespace Point

variable {r : StartRule} {ts : List Token} {ps : List Tree} {t : Token} {tree : Tree}

theorem reached_endClass {c : ClassContext} (h : Follows (c.Before r) classDecl [tree] ts) :
    (endClass tree c).Reached r ts := by
  cases c with
  | alone => exact h.begun_eq ▸ h.begun
  | inUnit before => exact h.snoc

theorem reached_endDeclaration {c : DeclarationContext}
    (h : Follows (c.Before r) Rule.declaration.phrase ps ts) :
    (endDeclaration ps c).Reached r ts := by
  cases c with
  | alone => exact h.begun_eq ▸ h.rule.begun
  | inBody before outer => exact h.rule.snoc

theorem reached_endField {c : MemberContext} (ha : c.allowsField = true)
    (h : Follows (c.Before r) fieldDecl [tree] ts) : (endMember tree c).Reached r ts := by
  cases c with
  | loneField => exact h.begun_eq ▸ h.begun
  | loneMethod => cases ha
  | ofDeclaration lists outer => exact reached_endDeclaration (h.map fun h => .left (.left h)).join

theorem reached_endMethod {c : MemberContext} (ha : c.allowsMethod = true)
    (h : Follows (c.Before r) methodDecl [tree] ts) : (endMember tree c).Reached r ts := by
  cases c with
  | loneField => cases ha
  | loneMethod => exact h.begun_eq ▸ h.begun
  | ofDeclaration lists outer =>
    exact reached_endDeclaration (h.map fun h => .left (.right h)).join

theorem reached_endProperties {c : PropertyListContext}
    (h : Follows (c.Before r) Rule.properties.phrase ps ts) :
    (endPropertyList ps c).Reached r ts := by
  cases c with
  | alone => exact h.begun_eq ▸ h.rule.begun
  | ofClass outer => exact h.rule
  | ofDeclaration lists outer => exact h.rule.snoc
  | ofArgument outer => exact h.rule

theorem reached_endProperty {c : PropertyContext}
    (h : Follows (c.Before r) Rule.property.phrase ps ts) : (endProperty ps c).Reached r ts := by
  cases c with
  | alone => exact h.begun_eq ▸ h.rule.begun
  | inList before outer => exact h.rule.join

theorem reached_endArgument {c : ArgumentContext}
    (h : Follows (c.Before r) Rule.argument.phrase ps ts) : (endArgument ps c).Reached r ts :=
  h.rule.join

theorem reached_endValue {c : ValueContext} (h : Follows (c.Before r) Rule.value [tree] ts) :
    (endValue tree c).Reached r ts := by
  cases c with
  | alone => exact h.begun_eq ▸ h.begun
  | ofProperty ps outer => exact reached_endProperty (h.join.map .with_initial)
  | ofField ps outer =>
    obtain ⟨us, vs, rfl, ⟨ha, hb⟩, hd⟩ := h
    exact ⟨ha, (hb.append hd).map .with_initial⟩
  | ofArgument ps outer => exact reached_endArgument (h.join.map .with_initial)

theorem reached_endBody {c : BodyContext} {q : Point}
    (h : Follows (c.Before r) (many Rule.declaration) ps ts) (ht : t.terminal = rightBrace)
    (hq : endBody ps t.tree c = some q) : q.Reached r (ts ++ [t]) := by
  have hbody := h.rule (k := Rule.body)
  cases c with
  | alone => cases hq
  | ofClass head outer =>
    obtain rfl := Option.some.inj hq
    exact reached_endClass ((hbody.join.token ht).pieces (List.append_assoc _ _ _)).rule
  | ofLoneBlock lists brace =>
    obtain rfl := Option.some.inj hq
    exact reached_endDeclaration ((hbody.join.token ht).rule.map .right).join
  | ofBlock lists brace before outer =>
    obtain rfl := Option.some.inj hq
    exact reached_endDeclaration ((hbody.join.token ht).rule.map .right).join

theorem reached_nextArgument {c : ArgumentContext} (h : (argumentEnd c).Reached r ts)
    (ht : t.terminal = comma) :
    (nextArgument { c with before := c.before ++ [t.tree] }).Reached r (ts ++ [t]) := by
  obtain ⟨us, vs, rfl, hc, hd⟩ := h
  obtain ⟨_, _, _, _, hm, ha, rfl, he⟩ := hd.seq_inv
  refine ⟨us, _, List.append_assoc _ _ _, hc, ?_⟩
  rw [he, List.append_assoc, List.append_assoc]
  exact hm.many_snoc (ha.append (ht ▸ .terminal t))

/-! ### Transitions -/

theorem derives_literal (h : t.terminal.isLiteral = true) :
    Derives Rule.value.phrase [t] [t.tree] := by
  unfold Terminal.isLiteral at h
  split at h
  · rename_i hk
    exact .left (.left (.left (.left (.left (hk ▸ .terminal t)))))
  · rename_i hk
    exact .left (.left (.left (.left (.right (hk ▸ .terminal t)))))
  · rename_i hk
    exact .left (.left (.left (.right (hk ▸ .terminal t))))
  · rename_i hk
    exact .left (.left (.right (hk ▸ .terminal t)))
  · rename_i hk
    exact .left (.right (hk ▸ .terminal t))
  · rename_i hk
    exact .right (hk ▸ .terminal t)
  · cases h

theorem reached_typeName {c : TypeContext} (h : Follows (c.Before r) Rule.typeName.phrase ps ts) :
    Follows (c.Before r) .type [Tree.close .typeName ps] ts :=
  h.rule.map fun h => .type (.left (.left (.left (.left (.left h)))))

theorem reached_opening {c : ClassContext} : c.opening.Reached r ts ↔ c.Before r ts := by
  cases c <;> rfl

/-- What reaches a point reaches what it turns into: nothing derives an absent part, and what is
complete is derived by its rule. -/
theorem reached_turn {p p' : Point} (hturn : Turn p p') (h : p.Reached r ts) : p'.Reached r ts := by
  cases hturn with
  | body ps c => exact .empty h .none
  | loneDeclaration => exact .empty h .none
  | declaration lists c => exact h
  | member c => exact .empty h .absent
  | spelling c => exact .empty h .absent
  | typeName ps c => exact reached_typeName h
  | firstArgument c =>
    obtain ⟨hnone, hopened⟩ := h
    rw [Reached, ArgumentContext.Before, hnone]
    exact .empty hopened .none
  | nextArgument c => exact .empty h .absent
  | argumentType list c => exact Follows.map .present h
  | argumentName ps c => exact (Follows.absent h).rule.join
  | propertyHead ps before c => exact (Follows.absent h).rule.join

/-- A transition leads from what a point is reached by to the same with one more token. -/
theorem reached_transition {p q : Point} (hmove : Transition t p q) (h : p.Reached r ts) :
    q.Reached r (ts ++ [t]) := by
  induction hmove with
  | turn hturn _ ih => exact ih (reached_turn hturn h)
  | bareClass ht => exact (Follows.empty (reached_opening.1 h) .absent).token ht
  | classList ht => exact (Follows.first (reached_opening.1 h) ht).none
  | classKeyword ht => exact (Follows.map .present h).token ht
  | className ht => exact Follows.token h ht
  | firstBase ht => exact (Follows.first h ht).none
  | base ht => exact Follows.token h ht
  | nextBase ht => exact (Follows.token h ht).map .many_tail
  | baseless ht => exact .empty ((Follows.absent h).token ht) .none
  | @based head ps c ht =>
    have hbases : Follows (Follows (c.Before r) classFront head) inheritance
      [Tree.close inheritance ps] ts := (Follows.map .separated_of_ended h).rule
    exact .empty ((hbases.map .present).join.token ht) .none
  | endBody ht hq => exact reached_endBody h ht hq
  | declarationList ht => exact (Follows.first h ht).none
  | @block lists c ht => cases c <;> exact .empty (.first h ht) .none
  | static ht => exact (Follows.first h ht).map .present
  | const ht => exact (Follows.first h ht).map .present
  | type ht => exact (Follows.first h ht).none
  | matrix ht => exact Follows.first h ht
  | doubleColon ht => exact Follows.token h ht
  | typeNamePart ht => exact (Follows.token h ht).map .many_tail
  | star ht =>
    exact (Follows.token h ht).rule.map fun h => .type (.left (.left (.left (.left (.right h)))))
  | doubleStar ht =>
    exact (Follows.token h ht).rule.map fun h => .type (.left (.left (.left (.right h))))
  | ampersand ht => exact (Follows.token h ht).rule.map fun h => .type (.left (.left (.right h)))
  | array ht => exact Follows.token h ht
  | arrayEnd ht => exact (Follows.token h ht).rule.map fun h => .type (.left (.right h))
  | matrixEnd ht => exact ((Follows.join h).token ht).rule.map fun h => .type (.right h)
  | @memberName tree const static c ht =>
    have hspelling : Follows (Follows (c.Before r) (maybe kwStatic) [static]) typeSpelling
      [Tree.close typeSpelling [const, tree]] ts := (Follows.join h).rule
    exact hspelling.join.token ht
  | @argumentName tree const list c ht =>
    have hspelling : Follows (Follows (c.Before r) (maybe Rule.properties) [list]) typeSpelling
      [Tree.close typeSpelling [const, tree]] ts := (Follows.join h).rule
    exact hspelling.join.token ht
  | fieldValue ht ha => exact ⟨ha, Follows.token h ht⟩
  | endField ht ha =>
    exact reached_endField ha (((Follows.absent h).token ht).pieces (List.append_assoc _ _ _)).rule
  | arguments ht ha => exact ⟨rfl, ha, Follows.token h ht⟩
  | fieldEnd ht => exact reached_endField h.1 (h.2.token ht).rule
  | noArguments ht =>
    obtain ⟨-, ha, hfront⟩ := h
    exact ⟨ha, (hfront.absent.token ht).pieces (List.append_assoc _ _ _)⟩
  | argumentList ht => exact (Follows.first h ht).none
  | argumentValue ht => exact Follows.token h ht
  | nextArgument ht => exact reached_nextArgument h ht
  | endArguments ht =>
    obtain ⟨us, vs, rfl, ⟨ha, hb⟩, hd⟩ := h
    exact ⟨ha, ((hb.append (.present (.rule (r := .arguments) hd.many_shift))).token ht).pieces
      (List.append_assoc _ _ _)⟩
  | methodEnd ht => exact reached_endMethod h.1 (h.2.token ht).rule
  | loneList ht => exact (Follows.first h ht).none
  | metaMark ht => exact Follows.first h ht
  | property ht => exact (Follows.empty h .absent).token ht
  | propertyName ht => exact (Follows.map .present h).token ht
  | propertyValue ht => exact Follows.token h ht
  | nextProperty ht => exact (Follows.token h ht).map .many_tail
  | endList ht => exact reached_endProperties ((Follows.map .separated_of_ended h).token ht)
  | value ht => exact reached_endValue (Follows.rule ⟨ts, [t], rfl, h, derives_literal ht⟩)

theorem reached_step {p q : Point} (h : p.Reached r ts) (hq : p.step t = some q) :
    q.Reached r (ts ++ [t]) :=
  reached_transition (transition_of_step hq) h

theorem reached_run {p q : Point} {us : List Token} (h : p.Reached r ts)
    (hq : p.run us = some q) : q.Reached r (ts ++ us) := by
  induction us generalizing p ts with
  | nil =>
    obtain rfl := Option.some.inj hq
    rwa [List.append_nil]
  | cons t us ih =>
    rw [run_cons] at hq
    obtain ⟨s, hs, hq⟩ := Option.bind_eq_some_iff.1 hq
    have hall := ih (reached_step h hs) hq
    rwa [List.append_assoc] at hall

theorem derives_of_finish? {p : Point} (h : p.Reached r ts) (hf : p.finish? = some tree) :
    Derives r.phrase ts [tree] := by
  unfold finish? at hf
  split at hf
  · obtain rfl := Option.some.inj hf
    exact Follows.begun_eq h ▸ (Follows.rule (k := .unit) h).begun
  · obtain rfl := Option.some.inj hf
    exact Follows.begun_eq h ▸ (Follows.rule (k := .body) h).begun
  · obtain rfl := Option.some.inj hf
    exact Follows.begun_eq h ▸ (reached_typeName h).begun
  · obtain rfl := Option.some.inj hf
    exact Follows.begun_eq h ▸ Follows.begun h
  · obtain rfl := Option.some.inj hf
    exact Follows.begun_eq h ▸ (Follows.absent h).rule.begun
  · obtain rfl := Option.some.inj hf
    exact h
  · cases hf

end Point

theorem StartRule.reached_point (r : StartRule) : r.point.Reached r [] := by
  cases r
  case unit => exact .empty ⟨rfl, rfl⟩ .none
  case body => exact .empty ⟨rfl, rfl⟩ .none
  all_goals exact ⟨rfl, rfl⟩

/-- Tokens that lead from the start of a rule to a point where the text may end derive its tree. -/
theorem derives_of_run {r : StartRule} {ts : List Token} {q : Point} {tree : Tree}
    (h : r.point.run ts = some q) (hf : q.finish? = some tree) : Derives r.phrase ts [tree] :=
  Point.derives_of_finish? (Point.reached_run r.reached_point h) hf

/-- A text that is read is spread from tokens that derive its tree. -/
theorem derives_of_read {r : StartRule} {text : List Char} {tree : Tree}
    (h : r.read text = .ok tree) :
    ∃ ts, Spread .start ts text ∧ Derives r.phrase ts [tree] := by
  obtain ⟨ts, q, hs, hq, hf⟩ := spread_of_run (r.reading text) h
  exact ⟨ts, hs, derives_of_run hq hf⟩

end ClassLang
