import ClassLang.Parse
import ClassLang.Proofs.Syntax.Extent
import ClassLang.Proofs.Syntax.LaidReading

/-!
# Reserved words are whole words

Where a name may stand, a word is read as a whole and only then taken for the keyword it spells. All
keywords but `class` are looked for in such places or, like the Boolean literals, in front of a
sign, so no letter, digit or underscore follows them. Between the classes of a unit no name may
stand, and there `class` is taken off the front of a longer word: the rest of the word is the name
of the class. Main statement: `wholeWords_of_tokenize`.
-/

namespace ClassLang

open Terminal

/-! ### Where a class may begin -/

namespace Point

variable {p q : Point} {t : Token}

/-- The word `class` is looked for beside names, except where a class may begin. -/
theorem identifier_mem_of_kwClass (h : kwClass ∈ p.accepts) :
    identifier ∈ p.accepts ∨ (∃ before, p = unit before) ∨ p = loneClass := by
  cases p with
  | unit before => exact Or.inr (Or.inl ⟨before, rfl⟩)
  | loneClass => exact Or.inr (Or.inr rfl)
  | body ps c =>
    cases c <;> simp [accepts, declarationStarts, memberStarts, spellingStarts, typeStarts]
  | typeName ps c => cases c <;> simp [accepts, typeSuffixes, typeEnds] at h
  | suffix inner c => cases c <;> simp [accepts, typeSuffixes, typeEnds] at h
  | memberName ps c =>
    cases c <;> simp [accepts, MemberContext.allowsField, MemberContext.allowsMethod] at h
  | propertyHead ps c => cases c <;> simp [accepts] at h
  | _ =>
    simp [accepts, listFollowers, declarationStarts, memberStarts, spellingStarts, typeStarts,
      literals] at h ⊢

/-- Behind a property list, or a bracket of an array, no class may begin. -/
theorem ne_of_rightBracket (ht : t.terminal = rightBracket) (h : p.step t = some q) :
    (∀ before, q ≠ unit before) ∧ q ≠ loneClass := by
  obtain ⟨tree, bracket, context, rfl, rfl⟩ | ⟨pieces, context, rfl⟩ :=
    (transition_of_step h).of_rightBracket ht
  · exact ⟨nofun, nofun⟩
  · cases context <;> exact ⟨nofun, nofun⟩

theorem exists_step_of_last {ts : List Token} (h : p.run ts = some q) (ht : t ∈ ts.getLast?) :
    ∃ p', Point.step p' t = some q := by
  obtain ⟨us, rfl⟩ := List.getLast?_eq_some_iff.1 ht
  rw [run_append] at h
  obtain ⟨p', -, hlast⟩ := Option.bind_eq_some_iff.1 h
  rw [run_cons] at hlast
  obtain ⟨q', hstep, hend⟩ := Option.bind_eq_some_iff.1 hlast
  obtain rfl := Option.some.inj hend
  exact ⟨p', hstep⟩

end Point

/-! ### What follows a reserved word -/

/-- Whether the words of a terminal are spelled like names but are none. -/
def Terminal.isReserved (t : Terminal) : Bool := t.isKeyword || t = bool

/-- Whether a token is followed in its text by a letter, a digit or an underscore. -/
def Token.RunsOn (text : List Char) (t : Token) : Prop :=
  startsWith Ascii.isNameChar (text.drop t.range.stop.offset) = true

/-- How a reserved word stands between the other tokens of a text. It is a whole word, unless it is
the word `class` that is not behind a property list and has the name of the class right behind
it. -/
structure Token.WholeWord (text : List Char) (front : List Token) (t : Token)
    (back : List Token) : Prop where
  other : t.terminal ≠ kwClass → ¬t.RunsOn text
  listed : (∃ s ∈ front.getLast?, s.terminal = rightBracket) → ¬t.RunsOn text
  named : t.terminal = kwClass → ∃ name rest, back = name :: rest ∧ name.terminal = identifier ∧
    (t.RunsOn text ↔ name.range.start = t.range.stop)

namespace Trail

variable {p q s : Point} {place : Position} {x : Piece} {xs ys : List Piece} {tail : List Char}

theorem startsWith_of_identifier_mem (hi : identifier ∈ p.accepts)
    (hk : x.terminal.isKeyword = true)
    (hc : startsWith (x.terminal.carriesOn p.accepts) (weave xs tail) = false) :
    startsWith Ascii.isNameChar (weave xs tail) = false := by
  rwa [carriesOn_word hi (Or.inr hk)] at hc

theorem startsWith_of_isReserved (hr : x.terminal.isReserved = true) (hk : x.terminal ≠ kwClass)
    (hs : p.step (x.token place) = some s)
    (hc : startsWith (x.terminal.carriesOn p.accepts) (weave xs tail) = false)
    (h : Trail s (x.token place).range.stop xs tail q) :
    startsWith Ascii.isNameChar (weave xs tail) = false := by
  have hends := endsBefore hs hc hk h
  obtain ⟨gap, k, word⟩ := x
  cases k <;> first | exact hends.1 | exact hends | cases hr

/-- Behind the word `class` there is a name, which is right behind it if the word runs on. -/
theorem exists_name {pieces : List Tree} {context : ClassContext} {tree : Tree}
    (h : Trail (.className pieces context) place xs tail q) (hf : q.finish? = some tree) :
    ∃ y ys, xs = y :: ys ∧ y.terminal = identifier ∧
      (startsWith Ascii.isNameChar (weave xs tail) = true ↔
        (y.token place).range.start = place) := by
  cases h with
  | nil => cases hf
  | @cons _ _ _ _ y ys _ hg hm _ _ hs _ =>
    have hname : y.terminal = identifier := List.mem_singleton.1 (Point.mem_accepts hs)
    refine ⟨y, ys, rfl, hname, ?_⟩
    have hstart : (y.token place).range.start = place.advance y.gap := rfl
    rw [hstart, weave]
    cases hgap : y.gap with
    | nil =>
      rw [hname] at hm
      cases hword : y.word with
      | nil => exact absurd hword (hm.ne_nil)
      | cons c cs =>
        rw [hword] at hm
        exact iff_of_true (Ascii.isNameChar_of_isNameStart hm.1) rfl
    | cons c cs =>
      rw [hgap] at hg
      have hlayout := hg.startsWith (fun _ => layout_not_nameChar) rfl
      refine iff_of_false ?_ ?_
      · rw [List.cons_append]
        exact fun htrue => Bool.false_ne_true (hlayout.symm.trans htrue)
      · intro heq
        have hoffset := congrArg Position.offset heq
        rw [Position.advance_offset, List.length_cons] at hoffset
        omega

end Trail

/-! ### Texts that are read -/

theorem drop_stop_of_weave {text tail : List Char} {xs ys : List Piece} {x : Piece}
    (h : weave (xs ++ x :: ys) tail = text) :
    text.drop (x.token (Position.start.advance (weave xs []))).range.stop.offset =
      weave ys tail := by
  rw [Piece.offset_stop_token, ← h, weave_around, ← List.append_assoc, List.drop_left]

/-- A reserved word on a trail over a whole text is a whole word, but for the word `class`. -/
theorem Trail.wholeWord {r : StartRule} {text tail : List Char} {xs ys : List Piece} {x : Piece}
    {q : Point} {tree : Tree} (h : Trail r.point .start (xs ++ x :: ys) tail q)
    (hf : q.finish? = some tree) (ht : weave (xs ++ x :: ys) tail = text)
    (hr : x.terminal.isReserved = true) :
    (x.token (Position.start.advance (weave xs []))).WholeWord text (tokensFrom .start xs)
      (tokensFrom (x.token (Position.start.advance (weave xs []))).range.stop ys) := by
  obtain ⟨s, hrun, htrail⟩ := h.of_append
  have hdrop := drop_stop_of_weave ht
  generalize Position.start.advance (weave xs []) = place at *
  cases htrail with
  | @cons _ s' _ _ _ _ _ hg hm hc hword hs htrail =>
    have hruns : ¬(x.token place).RunsOn text ↔
        startsWith Ascii.isNameChar (weave ys tail) = false := by
      rw [Token.RunsOn, hdrop, Bool.not_eq_true]
    refine ⟨?_, ?_, ?_⟩
    · intro hk
      exact hruns.2 (startsWith_of_isReserved hr hk hs hc htrail)
    · rintro ⟨u, hu, hbracket⟩
      refine hruns.2 ?_
      by_cases hk : x.terminal = kwClass
      · obtain ⟨p, hstep⟩ := Point.exists_step_of_last hrun hu
        obtain ⟨hunit, hlone⟩ := Point.ne_of_rightBracket hbracket hstep
        have hclass : kwClass ∈ s.accepts := hk ▸ Point.mem_accepts hs
        obtain hi | ⟨before, hbefore⟩ | hbefore := Point.identifier_mem_of_kwClass hclass
        · exact startsWith_of_identifier_mem hi (by rw [hk]; rfl) hc
        · exact absurd hbefore (hunit before)
        · exact absurd hbefore hlone
      · exact startsWith_of_isReserved hr hk hs hc htrail
    · intro hk
      obtain ⟨pieces, context, rfl⟩ := (Point.transition_of_step hs).of_kwClass hk
      obtain ⟨y, zs, rfl, hname, hstart⟩ := htrail.exists_name hf
      refine ⟨_, _, rfl, hname, ?_⟩
      rw [Token.RunsOn, hdrop]
      exact hstart

/-- Reserved words are whole words. A text that is read is spread from the tokens of its tree, and
no letter, digit or underscore follows a keyword or a Boolean literal among them. The exception is
the word `class` where no property list is in front of it: it may run on, and does exactly if the
name of the class is right behind it. -/
theorem wholeWords_of_tokenize {r : StartRule} {text : List Char} {tree : Tree}
    (h : tokenize r text = .ok tree) :
    ∃ d : DerivationTree r.phrase, d.pieces = [tree] ∧ Spread .start d.tokens text ∧
      ∀ front t back, d.tokens = front ++ t :: back → t.terminal.isReserved = true →
        t.WholeWord text front back := by
  obtain ⟨xs, tail, q, hweave, htrail, hfinish, d, htokens, hpieces, hspread⟩ :=
    exists_trail_of_tokenize h
  refine ⟨d, hpieces, hspread, ?_⟩
  intro front t back hcut hr
  rw [htokens] at hcut
  obtain ⟨ys, zs, rfl, rfl, hzs⟩ := tokensFrom_eq_append hcut
  cases zs with
  | nil => cases hzs
  | cons x zs =>
    obtain ⟨rfl, rfl⟩ := List.cons.inj hzs
    exact htrail.wholeWord hfinish hweave hr

/-- A class behind a property list, and one whose name is right behind the word `class`. -/
def joinedClass : List Char :=
  "[Meta = true] class A \x7b\x7d classFoo \x7b static const int x = nullptr; \x7d".toList

theorem wholeWords_of_tokenize_joinedClass :
    ∃ tree, tokenize .unit joinedClass = .ok tree ∧
      ∃ d : DerivationTree StartRule.unit.phrase, d.pieces = [tree] ∧
        Spread .start d.tokens joinedClass ∧
        ∀ front t back, d.tokens = front ++ t :: back → t.terminal.isReserved = true →
          t.WholeWord joinedClass front back := by
  have hreads : (tokenize .unit joinedClass).toOption.isSome = true := by decide +kernel
  cases h : tokenize .unit joinedClass with
  | error f =>
    rw [h] at hreads
    cases hreads
  | ok tree => exact ⟨tree, rfl, wholeWords_of_tokenize h⟩

/-- The word `class` that a unit starts with is not always a whole word. -/
theorem classFoo_runsOn :
    ∃ tree, tokenize .unit "classFoo \x7b\x7d".toList = .ok tree ∧
      ∃ d : DerivationTree StartRule.unit.phrase, d.pieces = [tree] ∧
        Spread .start d.tokens "classFoo \x7b\x7d".toList ∧
        ∃ t ∈ d.tokens, t.terminal = kwClass ∧ t.RunsOn "classFoo \x7b\x7d".toList := by
  have hreads : (StartRule.unit.read "classFoo \x7b\x7d".toList).toOption.isSome = true := by
    decide +kernel
  have hruns : ((tokensFrom .start (StartRule.unit.reading "classFoo \x7b\x7d".toList).pieces.1).any
      fun t => t.terminal = kwClass && startsWith Ascii.isNameChar
        ("classFoo \x7b\x7d".toList.drop t.range.stop.offset)) = true := by decide +kernel
  cases hread : StartRule.unit.read "classFoo \x7b\x7d".toList with
  | error cause =>
    rw [hread] at hreads
    cases hreads
  | ok tree =>
    obtain ⟨q, htrail, hfinish⟩ := trail_of_run _ hread
    obtain ⟨d, htokens, hpieces⟩ := htrail.exists_derivationTree (r := .unit) hfinish
    have hspread := htrail.spread
    rw [Reading.weave_pieces, ← htokens] at hspread
    obtain ⟨t, ht, hboth⟩ := List.any_eq_true.1 hruns
    obtain ⟨hclass, hname⟩ := Bool.and_eq_true_iff.1 hboth
    refine ⟨tree, by rw [tokenize, hread], d, hpieces, hspread, t, ?_, of_decide_eq_true hclass, ?_⟩
    · rw [htokens]
      exact ht
    · exact hname

end ClassLang
