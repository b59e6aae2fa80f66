import ClassLang.Syntax.Transition

/-!
# Acceptable terminals

The terminals that are looked for at a point cover what can be stepped over there. Main statements:
a token can be stepped over exactly if its terminal may follow (`isSome_step_iff`), what may follow
is looked for, and names and truth values, which are spelled alike, are nowhere looked for at once.
-/

namespace ClassLang.Point

open Terminal

variable {p p' q : Point} {t : Token}

theorem mem_literals {k : Terminal} (h : k.isLiteral = true) : k ∈ literals := by
  revert h
  cases k <;> decide

/-- The terminals that may follow at a point. Only behind a property list fewer may follow than are
looked for. -/
def follows : Point → List Terminal
  | classKeyword _ _ => [kwClass]
  | declaration _ _ => declarationStarts
  | argumentType _ _ => spellingStarts
  | p => p.accepts

theorem Turn.follows_subset (h : Turn p p') : p'.follows ⊆ p.follows := by
  cases h with
  | body ps c => cases c <;> simp [follows, accepts]
  | _ =>
    simp [follows, accepts, declarationStarts, memberStarts, spellingStarts]

theorem Transition.mem_follows (h : Transition t p q) : t.terminal ∈ p.follows := by
  induction h with
  | turn hturn _ ih => exact hturn.follows_subset ih
  | @bareClass c ht | @classList c ht =>
    cases c <;> simp [ClassContext.opening, follows, accepts, ht]
  | @endBody ps c _ ht hq => cases c <;> simp_all [follows, accepts, Point.endBody]
  | @propertyValue ps c ht => cases c <;> simp [follows, accepts, ht]
  | value ht => exact mem_literals ht
  | fieldValue ht ha | endField ht ha | arguments ht ha => simp [follows, accepts, ht, ha]
  | _ ht =>
    simp [follows, accepts, ht, declarationStarts, memberStarts, spellingStarts, typeStarts,
      typeSuffixes, typeEnds]

theorem isSome_step_of_mem (h : t.terminal ∈ p.follows) : (p.step t).isSome := by
  obtain ⟨k, text, range⟩ := t
  cases p with
  | body ps c =>
    cases c <;> cases k <;> first | rfl | simp [follows, accepts, declarationStarts, memberStarts,
      spellingStarts, typeStarts] at h
  | typeName ps c | suffix tree c =>
    cases c with
    | ofSpelling const c =>
      cases c <;> cases k <;> first | rfl | simp [follows, accepts, typeSuffixes, typeEnds] at h
    | _ => cases k <;> first | rfl | simp [follows, accepts, typeSuffixes, typeEnds] at h
  | memberName ps c =>
    cases c <;> cases k <;> first | rfl | simp [follows, accepts, MemberContext.allowsField,
      MemberContext.allowsMethod] at h
  | propertyHead ps c => cases c <;> cases k <;> first | rfl | simp [follows, accepts] at h
  | _ =>
    cases k <;> first | rfl | simp [follows, accepts, declarationStarts, memberStarts,
      spellingStarts, typeStarts, literals] at h

theorem isSome_step_iff : (p.step t).isSome ↔ t.terminal ∈ p.follows := by
  constructor
  · intro h
    obtain ⟨q, hq⟩ := Option.isSome_iff_exists.1 h
    exact (transition_of_step hq).mem_follows
  · exact isSome_step_of_mem

theorem follows_subset_accepts (p : Point) : p.follows ⊆ p.accepts := by
  have hlists : [kwClass] ⊆ listFollowers ∧ declarationStarts ⊆ listFollowers ∧
      spellingStarts ⊆ listFollowers := by decide
  cases p <;> simp [follows, accepts, hlists]

/-- A token that a point is moved over is looked for there. -/
theorem mem_accepts (h : p.step t = some q) : t.terminal ∈ p.accepts :=
  p.follows_subset_accepts (transition_of_step h).mem_follows

theorem bool_not_mem_accepts (h : Terminal.identifier ∈ p.accepts) :
    Terminal.bool ∉ p.accepts := by
  have hb : Terminal.bool ∉ listFollowers ∧ Terminal.bool ∉ typeSuffixes := by decide
  cases p with
  | body ps c => cases c <;> simp_all [accepts, listFollowers]
  | typeName ps c => cases c <;> simp_all [accepts, typeEnds]
  | suffix tree c => cases c <;> simp_all [accepts, typeEnds]
  | memberName ps c =>
    cases c <;> simp [accepts, MemberContext.allowsField, MemberContext.allowsMethod]
  | propertyHead ps c => cases c <;> simp [accepts]
  | value c => exact absurd h (by simp [accepts, literals])
  | _ => simp_all [accepts, listFollowers, declarationStarts, memberStarts, spellingStarts]

end ClassLang.Point
