import ClassLang.Proofs.Build.CoveredText
import ClassLang.Proofs.Build.WellFormed
import ClassLang.Proofs.Number.WrittenNumber

/-!
# Values written back

A value that was read from a text can be written as a literal again: the text of a value is read
back as the same value. The exception are numbers that are written with an exponent and the
infinities, since the language has no such literals; their texts are rejected. Main statement:
`parseRule_value_text`.
-/

namespace ClassLang

open Terminal

variable {text : List Char} {k : Terminal} {v : Value}

/-! ### Literals -/

namespace Build

theorem toList_text_char (b : UInt8) :
    (Value.text (.char b)).toList = '\x27' :: (Nat.toDigits 10 b.toNat ++ ['\x27']) := by
  have htext : Value.text (.char b) = "'" ++ toString b.toNat ++ "'" := rfl
  rw [htext, String.toList_append, String.toList_append, Nat.toString_eq_repr, Nat.toList_repr]
  rfl

theorem literal_text_char (b : UInt8) :
    char.Matches (Value.text (.char b)).toList ∧
      literal (.known .char) (Value.text (.char b)) = .ok (.char b) := by
  have hlist := toList_text_char b
  constructor
  · refine ⟨Nat.toDigits 10 b.toNat, ?_, hlist⟩
    intro c hc
    have hrange := Numeral.toNat_of_isDigit (Binary64.isDigit_of_mem_toDigits hc)
    constructor
    · rintro rfl
      exact absurd hrange (by decide)
    · rintro rfl
      exact absurd hrange (by decide)
  · have hinside : inside (Value.text (.char b)) = toString (b.toNat : Int) := by
      apply String.toList_inj.1
      rw [inside, String.toList_ofList, hlist, List.drop_one, List.tail_cons, List.dropLast_concat,
        Numeral.toList_toString]
      rfl
    have hlength : (Nat.toDigits 10 (b.toNat : Int).natAbs).length ≤ Numeral.digitLimit := by
      have hthree : (Nat.toDigits 10 b.toNat).length ≤ 3 := by
        rw [Nat.length_toDigits_le_iff (by decide) (by decide)]
        have hbyte := b.toNat_lt
        omega
      exact Nat.le_trans hthree (by decide)
    simp only [literal, hinside, Numeral.integer_toString hlength, Value.ofByte?_toNat]

/-- The text of what a literal denotes is a literal for it, unless it is a number that is written
with a letter. -/
theorem literal_text {s : String} (hm : k.Matches s.toList) (h : literal (.known k) s = .ok v)
    (hv : ∀ x, v = .float x → x.IsPositional) :
    k.Matches v.text.toList ∧ literal (.known k) v.text = .ok v := by
  cases k with
  | bool =>
    simp only [literal] at h
    split at h
    · rename_i b _
      obtain rfl := Except.ok.inj h
      cases b with
      | false => exact ⟨Or.inr rfl, rfl⟩
      | true => exact ⟨Or.inl rfl, rfl⟩
    · cases h
  | char =>
    simp only [literal] at h
    split at h
    · cases h
    · split at h
      · rename_i n _ w hw
        obtain rfl := Except.ok.inj h
        unfold Value.ofByte? at hw
        split at hw
        · obtain rfl := Option.some.inj hw
          exact literal_text_char _
        · cases hw
      · cases h
  | float =>
    obtain ⟨x, hx, -⟩ := Numeral.float_of_isFloat hm
    simp only [literal, hx, Except.ok.injEq] at h
    subst h
    obtain ⟨hfloat, hread⟩ := Binary64.float_text (hv x rfl)
    refine ⟨hfloat, ?_⟩
    simp only [Value.text, literal, hread]
  | integer =>
    simp only [literal] at h
    split at h
    · cases h
    · rename_i n hn
      obtain rfl := Except.ok.inj h
      have hlength := Numeral.length_toDigits_le hm hn
      have hlist : (Value.text (.integer n)).toList =
        Numeral.signed (decide (n < 0)) (Nat.toDigits 10 n.natAbs) := Numeral.toList_toString n
      refine ⟨?_, ?_⟩
      · show Pattern.IsInteger (Value.text (.integer n)).toList
        rw [hlist]
        exact Numeral.isInteger_signed (Binary64.isDigits_toDigits _)
      · simp only [Value.text, literal, Numeral.integer_toString hlength]
  | string =>
    obtain rfl := Except.ok.inj h
    obtain ⟨body, hbody, hs⟩ := hm
    have hinside := Tree.inside_of_isString hs
    have htext : (Value.text (.string (inside s))).toList = s.toList := by
      rw [Value.text, String.toList_append, String.toList_append, hinside, hs]
      rfl
    rw [String.toList_inj.1 htext]
    exact ⟨⟨body, hbody, hs⟩, rfl⟩
  | kwNullptr =>
    obtain rfl := Except.ok.inj h
    exact ⟨rfl, rfl⟩
  | _ => cases h

end Build

/-! ### Texts of one literal -/

theorem exists_value (hk : k.isLiteral = true) :
    ∃ f : DerivationTree (.terminal k) → DerivationTree Rule.value.phrase,
      ∀ d, (f d).tokens = d.tokens ∧ (d.Clear → (f d).Clear) ∧ (f d).kept = d.kept := by
  cases k with
  | bool => exact ⟨fun d => .left (.left (.left (.left (.left d)))), fun _ => ⟨rfl, id, rfl⟩⟩
  | char => exact ⟨fun d => .left (.left (.left (.left (.right d)))), fun _ => ⟨rfl, id, rfl⟩⟩
  | float => exact ⟨fun d => .left (.left (.left (.right d))), fun _ => ⟨rfl, id, rfl⟩⟩
  | integer => exact ⟨fun d => .left (.left (.right d)), fun _ => ⟨rfl, id, rfl⟩⟩
  | string => exact ⟨fun d => .left (.right d), fun _ => ⟨rfl, id, rfl⟩⟩
  | kwNullptr => exact ⟨.right, fun _ => ⟨rfl, id, rfl⟩⟩
  | _ => cases hk

theorem covers_literal {w : List Char} (hk : k.isLiteral = true) (hm : k.Matches w)
    (h : Build.literal (.known k) (String.ofList w) = .ok v) :
    (Phrase.rule .value).Covers w (Phrase.Single (Tree.DenotesValue · v)) := by
  obtain ⟨f, hf⟩ := exists_value hk
  have hkept : k.isPunctuation = false := by
    cases k <;> first | rfl | cases hk
  have hvalue : Rule.value.phrase.Covers w fun ts =>
      ∃ range, ts = [.token (.known k) (String.ofList w) range] := by
    refine (Phrase.covers_terminal hm).map f fun d => ⟨(hf d).1, (hf d).2.1, ?_⟩
    rw [(hf d).2.2, hkept]
    exact id
  refine (hvalue.rule rfl).imp ?_
  rintro _ ⟨range, _, rfl, range', rfl⟩
  exact ⟨_, rfl, .literal h⟩

theorem isPlain_of_matches {w : List Char} (hk : k = float ∨ k = integer) (hm : k.Matches w) :
    Numeral.IsPlain w := by
  have hinteger : ∀ {cs : List Char}, Pattern.IsInteger cs → Numeral.IsPlain cs := by
    intro cs h
    obtain ⟨negative, ds, hd, rfl⟩ := Numeral.exists_signed h
    exact Numeral.isPlain_signed negative (Numeral.isPlain_of_isDigits hd)
  rcases hk with rfl | rfl
  · obtain ⟨whole, fraction, hwhole, hfraction, rfl⟩ := hm
    exact Numeral.isPlain_append (hinteger hwhole)
      (Numeral.isPlain_cons (Or.inr (Or.inr rfl)) (Numeral.isPlain_of_isDigits hfraction))
  · exact hinteger hm

theorem eq_nil_of_isGap {closed : Bool} {gap : List Char} (h : Layout.IsGap closed gap)
    (hall : ∀ d ∈ gap, Binary64.IsTextChar d) : gap = [] := by
  have hslash : ¬Binary64.IsTextChar '/' := by
    unfold Binary64.IsTextChar Numeral.IsPlainChar
    decide
  cases h with
  | nil => rfl
  | @blank _ c cs hc _ =>
    have hmem := hall c List.mem_cons_self
    unfold Binary64.IsTextChar Numeral.IsPlainChar at hmem
    simp only [Blank.isLayout, Bool.or_eq_true, decide_eq_true_eq] at hc
    rcases hc with (((rfl | rfl) | rfl) | rfl) | rfl <;> exact absurd hmem (by decide)
  | block => exact absurd (hall '/' List.mem_cons_self) hslash
  | line => exact absurd (hall '/' List.mem_cons_self) hslash
  | lastLine => exact absurd (hall '/' List.mem_cons_self) hslash

/-- What is read as a value, and is written like a number, is one literal without layout. -/
theorem matches_of_read {w : List Char} {tree : Tree} (h : StartRule.value.read w = .ok tree)
    (hall : ∀ d ∈ w, Binary64.IsTextChar d) : ∃ k : Terminal, k.isLiteral = true ∧ k.Matches w := by
  obtain ⟨ts, hspread, hderives⟩ := derives_of_read h
  obtain ⟨d, rfl, -⟩ := hderives.exists_derivationTree
  obtain ⟨t, hk, htokens, -⟩ := DerivationTree.value_cases d
  have hone : d.tokens = [t] := htokens
  rw [hone] at hspread
  cases hspread with
  | @cons _ _ _ gap u rest hg _ _ hm hrest =>
    cases hrest with
    | nil hbehind =>
      rw [List.forall_mem_append, List.forall_mem_append] at hall
      rw [eq_nil_of_isGap hg hall.1, eq_nil_of_isGap hbehind hall.2.2, List.nil_append,
        List.append_nil]
      exact ⟨t.terminal, hk, hm⟩

/-- A text that starts like a number and has a letter in it is no value. -/
theorem read_ne_ok {c : Char} {cs : List Char} (hc : c = '-' ∨ c = 'i' ∨ Ascii.isDigit c = true)
    (hletter : ∃ d ∈ c :: cs, ¬Numeral.IsPlainChar d)
    (hall : ∀ d ∈ c :: cs, Binary64.IsTextChar d) (tree : Tree) :
    StartRule.value.read (c :: cs) ≠ .ok tree := by
  intro hread
  obtain ⟨k, hk, hm⟩ := matches_of_read hread hall
  obtain ⟨_, _, hcons, hstarts⟩ := Terminal.mem_starters hm
  obtain ⟨rfl, rfl⟩ := List.cons.inj hcons
  obtain ⟨d, hd, hplain⟩ := hletter
  have hnumber : k = float ∨ k = integer := by
    rcases hc with rfl | rfl | hdigit
    · have hmem : k ∈ [float, integer] := hstarts
      simpa only [List.mem_cons, List.not_mem_nil, or_false] using hmem
    · obtain rfl := List.mem_singleton.1 (show k ∈ [identifier] from hstarts)
      cases hk
    · rw [Terminal.starters_of_isDigit hdigit] at hstarts
      simpa only [List.mem_cons, List.not_mem_nil, or_false] using hstarts
  exact hplain (isPlain_of_matches hnumber hm d hd)

/-! ### Values -/

theorem parseRule_literal {w : List Char} (hk : k.isLiteral = true) (hm : k.Matches w)
    (h : Build.literal (.known k) (String.ofList w) = .ok v) :
    parseRule .value w = .ok (.value v) := by
  obtain ⟨tree, hread, t, htree, hdenotes⟩ := (covers_literal hk hm h).read (r := .value)
  obtain rfl := (List.cons.inj htree).1
  exact parseRule_of_build hread hdenotes.build

theorem Tree.DenotesValue.exists_literal {t : Tree} (h : DenotesValue t v) (hs : t.Sound text) :
    ∃ (k : Terminal) (s : String), k.isLiteral = true ∧ k.Matches s.toList ∧
      Build.literal (.known k) s = .ok v := by
  cases h with
  | @literal _ kind s _ _ hliteral =>
    cases hs.child _ List.mem_cons_self with
    | @token k _ _ hm =>
      refine ⟨k, s, ?_, hm, hliteral⟩
      cases k <;> first | rfl | cases hliteral

/-- A value that is read from a text can be written back: its text is read as the same value. Of
the values that are read, only the numbers that are neither zero nor between `10 ^ -4` and
`10 ^ 16` cannot; their texts are rejected. -/
theorem parseRule_value_text {p : Part} (h : parseRule .value text = .ok p) :
    ∃ v : Value, p = .value v ∧
      ((∀ x, v = .float x → x.IsPositional) →
        parseRule .value v.text.toList = .ok (.value v)) ∧
      ∀ x, v = .float x → ¬x.IsPositional →
        ∃ cause, parseRule .value v.text.toList = .error (.rejected v.text.toList cause) := by
  obtain ⟨tree, v, hread, hdenotes, rfl⟩ := denotes_of_parseRule h (builds_value text)
  obtain ⟨k, s, hk, hm, hliteral⟩ := hdenotes.exists_literal (StartRule.sound_of_read hread)
  refine ⟨v, rfl, ?_, ?_⟩
  · intro hv
    obtain ⟨hmatches, hread⟩ := Build.literal_text hm hliteral hv
    rw [← String.ofList_toList (s := v.text)] at hread
    exact parseRule_literal hk hmatches hread
  · rintro x rfl hx
    have hnumber : x.isNaN = false := Tree.wellFormed_of_literal hm hliteral
    obtain ⟨c, cs, htext, hc, hletter, hall⟩ := Binary64.text_of_not_isPositional hnumber hx
    have hlist : (Value.text (.float x)).toList = c :: cs := htext
    rw [hlist]
    cases hread : StartRule.value.read (c :: cs) with
    | error cause => exact ⟨cause, parseRule_of_error hread⟩
    | ok tree => exact absurd hread (read_ne_ok hc hletter hall tree)

/-- A number with zeros that are not written back. -/
theorem parseRule_value_text_padded :
    ∃ v : Value, parseRule .value "/* a */-0010.50".toList = .ok (.value v) ∧
      v.text = "-10.5" ∧ parseRule .value "-10.5".toList = .ok (.value v) := by
  have hok : (parseRule .value "/* a */-0010.50".toList).toOption.bind Part.value? =
      some (.float ⟨0xc025000000000000⟩) := by
    decide +kernel
  have htext : (Value.float ⟨0xc025000000000000⟩).text = "-10.5" := by decide +kernel
  obtain ⟨p, hp⟩ := exists_ok_of_isSome (e := parseRule .value "/* a */-0010.50".toList)
    (by decide +kernel)
  obtain ⟨v, rfl, hback, -⟩ := parseRule_value_text hp
  rw [hp] at hok
  obtain rfl := Option.some.inj hok
  refine ⟨_, hp, htext, ?_⟩
  rw [← htext]
  apply hback
  intro x hx
  obtain rfl := Value.float.inj hx
  decide +kernel

/-- A number that is read, while its text is not. -/
theorem parseRule_value_text_exponent :
    ∃ v : Value, (parseRule .value "10000000000000000.0".toList).toOption.bind Part.value? =
        some v ∧ v.text = "1e+16" ∧
      (parseRule .value "1e+16".toList).toOption.isSome = false := by
  refine ⟨.float ⟨0x4341c37937e08000⟩, ?_⟩
  decide +kernel

end ClassLang
