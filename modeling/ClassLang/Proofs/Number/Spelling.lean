import ClassLang.Proofs.Number.PlainNumeral

/-!
# How integers may be spelled

An integer is spelled with blanks around it, a sign or none, and digits of any script with single
underscores between some of them. Making the characters ASCII takes blanks to blanks and digits to
digits and leaves signs and underscores to themselves, so each step of reading can be said of the
text itself. Main statement: a text is read as an integer exactly if it spells one with no more
digits than are read (`integer_eq_ok`).
-/

namespace ClassLang

/-! ### Characters -/

namespace DecimalDigit

/-- The only ASCII digits are those of the first run. -/
theorem value?_of_lt {c : Char} (h : c.toNat < 0x660) :
    value? c = if Ascii.isDigit c then some (c.toNat - 48) else none := by
  have hothers : ∀ z ∈ zeros.tail, 0x660 ≤ z := by decide
  have hzeros : zeros = 0x30 :: zeros.tail := rfl
  have hrest : zeros.tail.find? (fun z => z ≤ c.toNat && c.toNat < z + 10) = none := by
    rw [List.find?_eq_none]
    intro z hz
    have hle := hothers z hz
    simp only [Bool.and_eq_true, decide_eq_true_eq, not_and]
    omega
  have hdigit : Ascii.isDigit c = (decide (48 ≤ c.toNat) && decide (c.toNat < 48 + 10)) := by
    have h0 : ('0' : Char).toNat = 48 := rfl
    have h9 : ('9' : Char).toNat = 57 := rfl
    rw [Bool.eq_iff_iff]
    simp only [Ascii.isDigit, Bool.and_eq_true, decide_eq_true_eq, Char.le_def,
      UInt32.le_iff_toNat_le]
    change '0'.toNat ≤ c.toNat ∧ c.toNat ≤ '9'.toNat ↔ _
    omega
  rw [value?, hzeros, List.find?_cons, hrest, ← hdigit]
  cases Ascii.isDigit c <;> rfl

theorem value?_of_isWideBlank {c : Char} (h : Blank.isWideBlank c = true) : value? c = none := by
  have hrange : ∀ z ∈ zeros, z + 10 ≤ 0x2000 ∨ 0x200a < z := by decide
  simp only [Blank.isWideBlank, Bool.or_eq_true, Bool.and_eq_true, decide_eq_true_eq] at h
  rcases h with ((((((((rfl | rfl) | rfl) | hc) | rfl) | rfl) | rfl) | rfl) | rfl)
  case inl.inl.inl.inl.inl.inr =>
    have hlow : 0x2000 ≤ c.toNat := hc.1
    have hhigh : c.toNat ≤ 0x200a := hc.2
    rw [value?, Option.map_eq_none_iff, List.find?_eq_none]
    intro z hz
    have hz' := hrange z hz
    simp only [Bool.and_eq_true, decide_eq_true_eq, not_and]
    omega
  all_goals decide

end DecimalDigit

namespace Numeral

/-- What a character is in ASCII: itself, a blank, a digit, or nothing that a numeral is written
with. -/
inductive AsciiForm (c : Char) : Char → Prop
  | same (h : c.toNat < 0x7f) : AsciiForm c c
  | blank (h : 0x7f ≤ c.toNat) (hb : Blank.isWideBlank c = true) : AsciiForm c ' '
  | digit {d : Nat} (h : 0x7f ≤ c.toNat) (hb : Blank.isWideBlank c = false) (hd : d < 10)
      (hv : DecimalDigit.value? c = some d) : AsciiForm c (Nat.digitChar d)
  | other (h : 0x7f ≤ c.toNat) (hb : Blank.isWideBlank c = false)
      (hv : DecimalDigit.value? c = none) : AsciiForm c '?'

theorem asciiForm (c : Char) : AsciiForm c (toAscii c) := by
  unfold toAscii
  split
  · rename_i h
    exact .same h
  · rename_i h
    have h' : 0x7f ≤ c.toNat := Nat.le_of_not_lt h
    split
    · rename_i hb
      exact .blank h' hb
    · rename_i hb
      rw [Bool.not_eq_true] at hb
      split
      · rename_i d hv
        exact .digit h' hb (DecimalDigit.value?_lt hv) hv
      · rename_i hv
        exact .other h' hb hv

theorem isAsciiBlank_of_le {c : Char} (h : 0x7f ≤ c.toNat) : Blank.isAsciiBlank c = false := by
  have hspace : c ≠ ' ' := by
    rintro rfl
    exact absurd h (by decide)
  have hreturn : ¬c ≤ '\r' := by
    intro hle
    have hval : c.toNat ≤ 13 := hle
    omega
  simp only [Blank.isAsciiBlank, hspace, hreturn, decide_false, Bool.and_false, Bool.or_self]

theorem isWideBlank_of_lt {c : Char} (h : c.toNat < 0x7f) : Blank.isWideBlank c = false := by
  rw [← Bool.not_eq_true]
  intro hb
  simp only [Blank.isWideBlank, Bool.or_eq_true, Bool.and_eq_true, decide_eq_true_eq] at hb
  rcases hb with ((((((((rfl | rfl) | rfl) | hc) | rfl) | rfl) | rfl) | rfl) | rfl)
  case inl.inl.inl.inl.inl.inr =>
    have hlow : 0x2000 ≤ c.toNat := hc.1
    omega
  all_goals exact absurd h (by decide)

theorem isAsciiBlank_toAscii (c : Char) :
    Blank.isAsciiBlank (toAscii c) = Blank.isNumeralBlank c := by
  have hdigits : ∀ d : Fin 10, Blank.isAsciiBlank (Nat.digitChar d) = false := by decide
  have hform := asciiForm c
  generalize toAscii c = a at hform
  cases hform with
  | same h => rw [Blank.isNumeralBlank, isWideBlank_of_lt h, Bool.or_false]
  | blank h hb =>
    rw [Blank.isNumeralBlank, hb, Bool.or_true]
    rfl
  | @digit d h hb hd hv =>
    rw [Blank.isNumeralBlank, isAsciiBlank_of_le h, hb]
    exact hdigits ⟨d, hd⟩
  | other h hb hv =>
    rw [Blank.isNumeralBlank, isAsciiBlank_of_le h, hb]
    rfl

/-- A character is a digit of some script exactly if it is one in ASCII, and has its value. -/
theorem isDigit_toAscii (c : Char) :
    DecimalDigit.value? c =
      if Ascii.isDigit (toAscii c) then some ((toAscii c).toNat - 48) else none := by
  have hdigits : ∀ d : Fin 10, Ascii.isDigit (Nat.digitChar d) = true ∧
      (Nat.digitChar d).toNat - 48 = d := by decide
  have hform := asciiForm c
  generalize toAscii c = a at hform
  cases hform with
  | same h => exact DecimalDigit.value?_of_lt (Nat.lt_trans h (by decide))
  | blank h hb => exact DecimalDigit.value?_of_isWideBlank hb
  | @digit d h hb hd hv =>
    obtain ⟨hdigit, hvalue⟩ := hdigits ⟨d, hd⟩
    rw [hv, if_pos hdigit, hvalue]
  | other h hb hv => exact hv

/-- Signs and underscores, and nothing else, are signs and underscores in ASCII. -/
theorem toAscii_eq_iff {c a : Char} (ha : a ∈ ['_', '+', '-']) : toAscii c = a ↔ c = a := by
  have hsmall : a.toNat < 0x7f ∧ a ≠ ' ' ∧ a ≠ '?' ∧ ∀ d : Fin 10, Nat.digitChar d ≠ a := by
    simp only [List.mem_cons, List.not_mem_nil, or_false] at ha
    rcases ha with rfl | rfl | rfl <;> decide
  obtain ⟨hlt, hblank, hother, hdigit⟩ := hsmall
  have hne : 0x7f ≤ c.toNat → c ≠ a := by
    rintro hle rfl
    omega
  have hform := asciiForm c
  generalize toAscii c = b at hform
  cases hform with
  | same h => rfl
  | blank h hb => exact iff_of_false hblank.symm (hne h)
  | @digit d h hb hd hv => exact iff_of_false (hdigit ⟨d, hd⟩) (hne h)
  | other h hb hv => exact iff_of_false hother.symm (hne h)

/-! ### Runs of digits -/

/-- Digits with single underscores between some of them, and their values; `needed` says whether a
digit has to come next. -/
inductive Digits : Bool → List Char → List Nat → Prop
  | nil : Digits false [] []
  | digit {needed : Bool} {c : Char} {d : Nat} {cs : List Char} {ds : List Nat}
      (hv : DecimalDigit.value? c = some d) (h : Digits false cs ds) :
      Digits needed (c :: cs) (d :: ds)
  | underscore {cs : List Char} {ds : List Nat} (h : Digits true cs ds) :
      Digits false ('_' :: cs) ds

/-- Whether a run of a numeral goes on over a character. -/
def isRunChar (c : Char) : Bool := Ascii.isDigit c || c = '_'

theorem isRunChar_toAscii {c : Char} :
    isRunChar (toAscii c) = true ↔ Ascii.isDigit (toAscii c) = true ∨ c = '_' := by
  have hunderscore : toAscii c = '_' ↔ c = '_' := toAscii_eq_iff List.mem_cons_self
  rw [isRunChar, Bool.or_eq_true, decide_eq_true_eq, hunderscore]

theorem underscoresOk_cons_of_ne {previous : Bool} {c : Char} {cs : List Char} (h : c ≠ '_') :
    underscoresOk previous (c :: cs) = underscoresOk (Ascii.isDigit c) cs := by
  rw [underscoresOk]
  rintro rfl
  exact h rfl

def HasDigit (cs : List Char) : Prop := ∃ c ∈ cs.head?, Ascii.isDigit (toAscii c) = true

theorem underscoresOk_underscore {previous : Bool} {cs : List Char} :
    underscoresOk previous ('_' :: cs.map toAscii) = true ↔
      previous = true ∧ HasDigit cs ∧ underscoresOk false (cs.map toAscii) = true := by
  cases cs with
  | nil => simp [underscoresOk, HasDigit]
  | cons c cs => simp [underscoresOk, HasDigit, and_assoc]

theorem value?_underscore : DecimalDigit.value? '_' = none := by decide

theorem digits_cons {needed : Bool} {c : Char} {d : Nat} {cs : List Char} {es : List Nat}
    (hv : DecimalDigit.value? c = some d) :
    Digits needed (c :: cs) es ↔ ∃ ds, Digits false cs ds ∧ d :: ds = es := by
  constructor
  · intro h
    cases h with
    | digit hv' h =>
      rw [hv, Option.some.injEq] at hv'
      exact ⟨_, h, by rw [hv']⟩
    | underscore => cases value?_underscore.symm.trans hv
  · rintro ⟨ds, h, rfl⟩
    exact .digit hv h

theorem digits_underscore {needed : Bool} {cs : List Char} {ds : List Nat} :
    Digits needed ('_' :: cs) ds ↔ needed = false ∧ Digits true cs ds := by
  constructor
  · intro h
    cases h with
    | digit hv => cases value?_underscore.symm.trans hv
    | underscore h => exact ⟨rfl, h⟩
  · rintro ⟨rfl, h⟩
    exact .underscore h

/-- Digits are what is read as a run of a numeral in which every underscore stands between two. -/
theorem digits_iff {needed : Bool} {cs : List Char} {ds : List Nat} :
    Digits needed cs ds ↔ (∀ c ∈ cs, isRunChar (toAscii c) = true) ∧
      underscoresOk (!needed) (cs.map toAscii) = true ∧ (needed = true → HasDigit cs) ∧
      cs.filterMap DecimalDigit.value? = ds := by
  induction cs generalizing needed ds with
  | nil =>
    constructor
    · intro h
      cases h
      simp [underscoresOk]
    · rintro ⟨-, -, hdigit, rfl⟩
      cases needed with
      | false => exact .nil
      | true => simpa [HasDigit] using hdigit rfl
  | cons c cs ih =>
    -- a run starts with a digit or an underscore, and with anything else both sides fail
    have hvalue := isDigit_toAscii c
    cases hdigit : Ascii.isDigit (toAscii c) with
    | true =>
      rw [hdigit, if_pos rfl] at hvalue
      have hne : toAscii c ≠ '_' := by
        intro heq
        rw [heq] at hdigit
        cases hdigit
      have hrun : isRunChar (toAscii c) = true := isRunChar_toAscii.2 (.inl hdigit)
      have hhead : HasDigit (c :: cs) := ⟨c, rfl, hdigit⟩
      simp only [digits_cons hvalue, ih, List.forall_mem_cons, hrun, List.map_cons,
        underscoresOk_cons_of_ne hne, hdigit, hhead, List.filterMap_cons, hvalue, Bool.not_false,
        Bool.false_eq_true, false_imp_iff, true_and, implies_true]
      constructor
      · rintro ⟨ds, ⟨hall, hunder, rfl⟩, rfl⟩
        exact ⟨hall, hunder, rfl⟩
      · rintro ⟨hall, hunder, rfl⟩
        exact ⟨_, ⟨hall, hunder, rfl⟩, rfl⟩
    | false =>
      rw [hdigit, if_neg Bool.false_ne_true] at hvalue
      by_cases hc : c = '_'
      · subst hc
        have hascii : toAscii '_' = '_' := rfl
        have hhead : ¬HasDigit ('_' :: cs) := by simp [HasDigit, hdigit]
        have hrun : isRunChar '_' = true := rfl
        simp only [digits_underscore, ih, List.forall_mem_cons, hascii, hrun, List.map_cons,
          underscoresOk_underscore, hhead, List.filterMap_cons, hvalue, Bool.not_true, true_and,
          imp_false, Bool.not_eq_true', Bool.not_eq_true, forall_const]
        constructor
        · rintro ⟨hneeded, hall, hunder, hhead, hdigits⟩
          exact ⟨hall, ⟨hneeded, hhead, hunder⟩, hneeded, hdigits⟩
        · rintro ⟨hall, ⟨hneeded, hhead, hunder⟩, -, hdigits⟩
          exact ⟨hneeded, hall, hunder, hhead, hdigits⟩
      · have hrun : ¬isRunChar (toAscii c) = true := by simp [isRunChar_toAscii, hdigit, hc]
        constructor
        · intro h
          cases h with
          | digit hv => cases hvalue.symm.trans hv
          | underscore => exact absurd rfl hc
        · rintro ⟨hall, -⟩
          exact absurd (hall c List.mem_cons_self) hrun

theorem filterMap_value? (cs : List Char) :
    cs.filterMap DecimalDigit.value? =
      ((cs.map toAscii).filter Ascii.isDigit).map fun c => c.toNat - 48 := by
  induction cs with
  | nil => rfl
  | cons c cs ih =>
    have hvalue := isDigit_toAscii c
    cases hdigit : Ascii.isDigit (toAscii c) with
    | true =>
      rw [hdigit, if_pos rfl] at hvalue
      rw [List.map_cons, List.filter_cons_of_pos hdigit, List.map_cons,
        List.filterMap_cons_some hvalue, ih]
    | false =>
      rw [hdigit, if_neg Bool.false_ne_true] at hvalue
      rw [List.map_cons, List.filter_cons_of_neg (Bool.not_eq_true _ ▸ hdigit),
        List.filterMap_cons_none hvalue, ih]

def decimal (ds : List Nat) : Nat := ds.foldl (fun n d => 10 * n + d) 0

theorem valueOf_eq_decimal (cs : List Char) :
    valueOf cs = decimal (cs.map fun c => c.toNat - 48) := by
  rw [valueOf, decimal, List.foldl_map]
  rfl

/-! ### Blanks and signs -/

/-- A text without the blanks around it. -/
def core (cs : List Char) : List Char :=
  ((cs.dropWhile Blank.isNumeralBlank).reverse.dropWhile Blank.isNumeralBlank).reverse

theorem trim_map (cs : List Char) : trim (cs.map toAscii) = (core cs).map toAscii := by
  have hblank : Blank.isAsciiBlank ∘ toAscii = Blank.isNumeralBlank := funext isAsciiBlank_toAscii
  rw [trim, core, List.dropWhile_map, hblank, ← List.map_reverse, List.dropWhile_map, hblank,
    ← List.map_reverse]

theorem exists_core (cs : List Char) :
    ∃ before after, cs = before ++ (core cs ++ after) ∧
      (∀ c ∈ before, Blank.isNumeralBlank c = true) ∧
      ∀ c ∈ after, Blank.isNumeralBlank c = true := by
  let rest := cs.dropWhile Blank.isNumeralBlank
  have hall : ∀ ds : List Char, ∀ c ∈ ds.takeWhile Blank.isNumeralBlank,
      Blank.isNumeralBlank c = true := fun ds => List.all_eq_true.1 List.all_takeWhile
  refine ⟨cs.takeWhile Blank.isNumeralBlank, (rest.reverse.takeWhile Blank.isNumeralBlank).reverse,
    ?_, hall cs, ?_⟩
  · have hrest : core cs ++ (rest.reverse.takeWhile Blank.isNumeralBlank).reverse = rest := by
      rw [core, ← List.reverse_append, List.takeWhile_append_dropWhile, List.reverse_reverse]
    rw [hrest, List.takeWhile_append_dropWhile]
  · exact fun c hc => hall _ c (List.mem_reverse.1 hc)

/-- Blanks around something that neither starts nor ends with one are no part of it. -/
theorem core_append {before mid after : List Char}
    (hb : ∀ c ∈ before, Blank.isNumeralBlank c = true)
    (ha : ∀ c ∈ after, Blank.isNumeralBlank c = true)
    (hfirst : ∀ c ∈ mid.head?, Blank.isNumeralBlank c = false)
    (hlast : ∀ c ∈ mid.getLast?, Blank.isNumeralBlank c = false) (hne : mid ≠ []) :
    core (before ++ (mid ++ after)) = mid := by
  have hdrop : ∀ {ds es : List Char}, (∀ c ∈ ds.head?, Blank.isNumeralBlank c = false) →
      ds ≠ [] → (ds ++ es).dropWhile Blank.isNumeralBlank = ds ++ es := by
    intro ds es hds hne
    cases ds with
    | nil => exact absurd rfl hne
    | cons c ds =>
      rw [List.cons_append, List.dropWhile_cons_of_neg]
      rw [hds c rfl]
      exact Bool.false_ne_true
  have hlast' : ∀ c ∈ mid.reverse.head?, Blank.isNumeralBlank c = false := by
    rwa [List.head?_reverse]
  rw [core, List.dropWhile_append_of_pos hb, hdrop hfirst hne, List.reverse_append,
    List.dropWhile_append_of_pos fun c hc => ha c (List.mem_reverse.1 hc),
    ← List.append_nil mid.reverse, hdrop hlast' (List.reverse_ne_nil_iff.2 hne), List.append_nil,
    List.reverse_reverse]

theorem splitSign_map (cs : List Char) :
    splitSign (cs.map toAscii) = ((splitSign cs).1, (splitSign cs).2.map toAscii) := by
  cases cs with
  | nil => rfl
  | cons c cs =>
    by_cases hminus : c = '-'
    · subst hminus
      rfl
    · by_cases hplus : c = '+'
      · subst hplus
        rfl
      · have hminus' : toAscii c ≠ '-' := fun h => hminus ((toAscii_eq_iff (by decide)).1 h)
        have hplus' : toAscii c ≠ '+' := fun h => hplus ((toAscii_eq_iff (by decide)).1 h)
        rw [List.map_cons]
        unfold splitSign
        simp [hminus, hplus, hminus', hplus']

/-- The signs that a number may have in front. -/
def signs : Bool → List (List Char)
  | true => [['-']]
  | false => [[], ['+']]

theorem exists_sign (cs : List Char) :
    ∃ sign ∈ signs (splitSign cs).1, cs = sign ++ (splitSign cs).2 := by
  unfold splitSign
  split
  · exact ⟨['-'], List.mem_cons_self, rfl⟩
  · exact ⟨['+'], List.mem_cons_of_mem _ List.mem_cons_self, rfl⟩
  · exact ⟨[], List.mem_cons_self, rfl⟩

theorem isNumeralBlank_of_sign {negative : Bool} {sign : List Char} (h : sign ∈ signs negative) :
    ∀ c ∈ sign.head?, Blank.isNumeralBlank c = false := by
  cases negative with
  | true =>
    obtain rfl := List.mem_singleton.1 h
    rintro _ ⟨⟩
    rfl
  | false =>
    simp only [signs, List.mem_cons, List.not_mem_nil, or_false] at h
    rcases h with rfl | rfl
    · exact nofun
    · rintro _ ⟨⟩
      rfl

/-- How an integer is spelled: digits between blanks with a sign in front that may be there. -/
inductive Spells (negative : Bool) (ds : List Nat) : List Char → Prop
  | mk {before sign run after : List Char} (hb : ∀ c ∈ before, Blank.isNumeralBlank c = true)
      (hs : sign ∈ signs negative) (hr : Digits true run ds)
      (ha : ∀ c ∈ after, Blank.isNumeralBlank c = true) :
      Spells negative ds (before ++ ((sign ++ run) ++ after))

theorem isNumeralBlank_of_value? {c : Char} {d : Nat} (h : DecimalDigit.value? c = some d) :
    Blank.isNumeralBlank c = false := by
  rw [isDigit_toAscii] at h
  split at h
  · rename_i hdigit
    rw [← isAsciiBlank_toAscii]
    exact isAsciiBlank_of_isPlainChar (.inl hdigit)
  · cases h

namespace Digits

variable {needed : Bool} {cs : List Char} {ds : List Nat}

theorem getLast? (h : Digits needed cs ds) :
    ∀ c ∈ cs.getLast?, Blank.isNumeralBlank c = false := by
  induction h with
  | nil => exact nofun
  | @digit _ c d cs ds hv h ih =>
    cases cs with
    | nil =>
      rintro _ ⟨⟩
      exact isNumeralBlank_of_value? hv
    | cons b cs => rwa [List.getLast?_cons_cons]
  | @underscore cs ds h ih =>
    cases cs with
    | nil => cases h
    | cons b cs => rwa [List.getLast?_cons_cons]

theorem exists_cons (h : Digits true cs ds) :
    ∃ c d cs' ds', cs = c :: cs' ∧ ds = d :: ds' ∧ DecimalDigit.value? c = some d := by
  cases h with
  | digit hv _ => exact ⟨_, _, _, _, rfl, rfl, hv⟩

end Digits

theorem splitSign_digits {cs : List Char} {ds : List Nat} {sign : List Char} {negative : Bool}
    (hs : sign ∈ signs negative) (hr : Digits true cs ds) :
    splitSign (sign ++ cs) = (negative, cs) := by
  obtain ⟨c, d, cs', ds', rfl, rfl, hv⟩ := hr.exists_cons
  have hminus : c ≠ '-' := by
    rintro rfl
    cases hv
  have hplus : c ≠ '+' := by
    rintro rfl
    cases hv
  cases negative with
  | true =>
    obtain rfl := List.mem_singleton.1 hs
    rfl
  | false =>
    simp only [signs, List.mem_cons, List.not_mem_nil, or_false] at hs
    rcases hs with rfl | rfl
    · simp [splitSign, hminus, hplus]
    · rfl

theorem Spells.parts {negative : Bool} {ds : List Nat} {cs : List Char}
    (h : Spells negative ds cs) :
    ∃ run, splitSign (core cs) = (negative, run) ∧ Digits true run ds := by
  cases h with
  | @mk before sign run after hb hs hr ha =>
    obtain ⟨c, d, cs', ds', hrun, -, hv⟩ := hr.exists_cons
    have hne : run ≠ [] := by
      rw [hrun]
      exact List.cons_ne_nil c cs'
    have hfirst : ∀ b ∈ (sign ++ run).head?, Blank.isNumeralBlank b = false := by
      intro b hb
      rw [List.head?_append] at hb
      cases hsign : sign.head? with
      | some a =>
        rw [hsign, Option.some_or, ← hsign] at hb
        exact isNumeralBlank_of_sign hs b hb
      | none =>
        rw [hsign, Option.none_or, hrun] at hb
        obtain rfl := Option.some.inj hb
        exact isNumeralBlank_of_value? hv
    have hlast : ∀ b ∈ (sign ++ run).getLast?, Blank.isNumeralBlank b = false := by
      intro b hb
      rw [List.getLast?_append, List.getLast?_eq_some_getLast hne, Option.some_or,
        ← List.getLast?_eq_some_getLast hne] at hb
      exact hr.getLast? b hb
    refine ⟨run, ?_, hr⟩
    rw [core_append hb ha hfirst hlast (List.append_ne_nil_of_right_ne_nil _ hne),
      splitSign_digits hs hr]

theorem spells_of_parts {negative : Bool} {ds : List Nat} {run cs : List Char}
    (hs : splitSign (core cs) = (negative, run)) (hr : Digits true run ds) :
    Spells negative ds cs := by
  obtain ⟨before, after, hcs, hb, ha⟩ := exists_core cs
  obtain ⟨sign, hsign, hcore⟩ := exists_sign (core cs)
  rw [hs] at hsign hcore
  rw [hcs, hcore]
  exact .mk hb hsign hr ha

/-! ### Integers -/

def signedDecimal (negative : Bool) (ds : List Nat) : Int :=
  if negative then -(decimal ds : Int) else decimal ds

theorem integer_of_parts {s : String} {negative : Bool} {run : List Char} {ds : List Nat}
    (hs : splitSign (core s.toList) = (negative, run)) (hr : Digits true run ds) :
    integer s = if digitLimit < ds.length then .error (.digits ds.length)
      else .ok (signedDecimal negative ds) := by
  obtain ⟨hall, hunder, hhead, hvalues⟩ := digits_iff.1 hr
  obtain ⟨c, d, cs', ds', -, hcons, -⟩ := hr.exists_cons
  have htake : (run.map toAscii).takeWhile (fun c => Ascii.isDigit c || c = '_') =
      run.map toAscii := (takeWhile_of_isDigits (List.forall_mem_map.2 hall)).1
  rw [filterMap_value?] at hvalues
  have hlength : ((run.map toAscii).filter Ascii.isDigit).length = ds.length := by
    rw [← hvalues, List.length_map]
  have hvalue : valueOf ((run.map toAscii).filter Ascii.isDigit) = decimal ds := by
    rw [valueOf_eq_decimal, hvalues]
  have hne : ((run.map toAscii).filter Ascii.isDigit).isEmpty = false := by
    rw [List.isEmpty_eq_false_iff, ← List.length_pos_iff, hlength, hcons]
    exact Nat.succ_pos _
  rw [Bool.not_true] at hunder
  rw [integer, trim_map, splitSign_map, hs]
  simp only [htake, hunder, hlength, hvalue, hne, Bool.not_true, Bool.false_eq_true, if_false,
    Bool.false_or, Nat.lt_irrefl, decide_false, signedDecimal]

theorem hasDigit_of_underscoresOk {cs : List Char}
    (hall : ∀ c ∈ cs, isRunChar (toAscii c) = true)
    (hunder : underscoresOk false (cs.map toAscii) = true) (hne : cs ≠ []) : HasDigit cs := by
  cases cs with
  | nil => exact absurd rfl hne
  | cons c cs =>
    rcases isRunChar_toAscii.1 (hall c List.mem_cons_self) with hdigit | rfl
    · exact ⟨c, rfl, hdigit⟩
    · have hprevious := (underscoresOk_underscore.1 hunder).1
      cases hprevious

theorem exists_digits_of_integer {s : String} {n : Int} (h : integer s = .ok n) :
    ∃ ds, Digits true (splitSign (core s.toList)).2 ds := by
  rw [integer, trim_map, splitSign_map] at h
  simp only at h
  generalize (splitSign (core s.toList)).2 = cs at h
  split at h
  · cases h
  · rename_i hunder
    split at h
    · cases h
    · split at h
      · cases h
      · rename_i hwhole
        simp only [Bool.or_eq_true, List.isEmpty_iff, decide_eq_true_eq, not_or, Nat.not_lt]
          at hwhole
        obtain ⟨hne, hlength⟩ := hwhole
        have hrun : (cs.map toAscii).takeWhile (fun c => Ascii.isDigit c || c = '_') =
            cs.map toAscii := (List.takeWhile_prefix _).eq_of_length_le hlength
        rw [hrun] at hunder hne
        have hall : ∀ c ∈ cs, isRunChar (toAscii c) = true := by
          rw [← List.forall_mem_map (P := fun c => isRunChar c = true), ← hrun]
          exact List.all_eq_true.1 List.all_takeWhile
        have hunder' : underscoresOk false (cs.map toAscii) = true := by simpa using hunder
        have hcons : cs ≠ [] := by
          rintro rfl
          exact hne rfl
        have hhead := hasDigit_of_underscoresOk hall hunder' hcons
        exact ⟨_, digits_iff.2 ⟨hall, hunder', fun _ => hhead, rfl⟩⟩

/-- Whether a text spells an integer with no more digits than are read. -/
def Denotes (cs : List Char) (n : Int) : Prop :=
  ∃ negative ds, Spells negative ds cs ∧ ds.length ≤ digitLimit ∧ n = signedDecimal negative ds

/-- A text is read as an integer exactly if it denotes it. -/
theorem integer_eq_ok {s : String} {n : Int} : integer s = .ok n ↔ Denotes s.toList n := by
  constructor
  · intro h
    obtain ⟨ds, hdigits⟩ := exists_digits_of_integer h
    have hread := integer_of_parts rfl hdigits
    rw [h] at hread
    split at hread
    · cases hread
    · rename_i hlimit
      exact ⟨_, ds, spells_of_parts rfl hdigits, Nat.le_of_not_lt hlimit, Except.ok.inj hread⟩
  · rintro ⟨negative, ds, hspells, hlimit, rfl⟩
    obtain ⟨run, hparts, hdigits⟩ := hspells.parts
    rw [integer_of_parts hparts hdigits, if_neg (Nat.not_lt.2 hlimit)]

/-- Of ASCII digits alone any that are not too many denote an integer, the one that they write. -/
theorem denotes_of_isDigit {cs : List Char} (h : ∀ c ∈ cs, Ascii.isDigit c = true)
    (hlimit : cs.length ≤ digitLimit) {n : Int} : Denotes cs n ↔ cs ≠ [] ∧ n = valueOf cs := by
  rw [← String.toList_ofList (l := cs), ← integer_eq_ok, String.toList_ofList]
  by_cases hne : cs = []
  · subst hne
    have hempty : integer (String.ofList []) = .error (.integer (String.ofList [])) := rfl
    simp [hempty]
  · have hread : integer (String.ofList cs) = .ok (valueOf cs : Int) := by
      have hsigned : (String.ofList cs).toList = signed false cs := String.toList_ofList
      rw [integer_signed ⟨hne, h⟩ hsigned, if_neg (Nat.not_lt.2 hlimit)]
      rfl
    rw [hread]
    simp [hne, eq_comm]

end Numeral

end ClassLang
