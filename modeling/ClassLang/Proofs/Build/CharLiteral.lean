import ClassLang.Proofs.Build.WrittenValue
import ClassLang.Proofs.Number.Spelling

/-!
# Char literals

Between the quotes of a char literal anything but a quote and a line feed may stand, and it is read
as an integer like any other text. Main statement: which contents denote a byte, and that all others
are reported as the whole literal (`parseRule_char`).
-/

namespace ClassLang

open Terminal

/-! ### Texts of one literal -/

/-- The range of a text as a whole. -/
def Range.whole (text : List Char) : Range := ⟨.start, .advance .start text⟩

theorem read_literal {k : Terminal} {w : List Char} (hk : k.isLiteral = true) (hm : k.Matches w) :
    StartRule.value.read w =
      .ok (Tree.close .value [.token (.known k) (String.ofList w) (.whole w)]) := by
  let t : Token := ⟨k, String.ofList w, .whole w⟩
  obtain ⟨f, hf⟩ := exists_value hk
  obtain ⟨htokens, hclear, -⟩ := hf (.terminal t rfl)
  let d : DerivationTree StartRule.value.phrase := .rule (f (.terminal t rfl))
  have hd : d.tokens = [t] := htokens
  have havoids : DerivationTree.Avoids [] d.tokens := fun u _ _ => List.not_mem_nil
  obtain ⟨u, -, hu, hpieces⟩ := DerivationTree.value_cases d
  obtain rfl : u = t := List.singleton_inj.1 (hu.symm.trans hd)
  have hlaid : Laid .start [t] w := by
    have hword : t.text.toList = w := String.toList_ofList
    have hlaid : Laid .start [t] ([] ++ (t.text.toList ++ [])) := by
      refine .cons .nil ?_ ?_ (endsBefore_nil k) (.nil .nil)
      · rw [hword]
        rfl
      · rwa [hword]
    rwa [hword, List.nil_append, List.append_nil] at hlaid
  exact StartRule.read_of_laid (r := .value) d ⟨havoids, hclear trivial⟩ hpieces (hd ▸ hlaid)

/-- A literal by itself is read as the value that it denotes, or refused as a whole. -/
theorem parseRule_value_literal {k : Terminal} {w : List Char} (hk : k.isLiteral = true)
    (hm : k.Matches w) :
    parseRule .value w = match Build.literal (.known k) (String.ofList w) with
      | .ok v => .ok (.value v)
      | .error cause => .error (.fault cause (some (.ofRange (.whole w) (String.ofList w)))) := by
  have hkept : (Tree.token (.known k) (String.ofList w) (.whole w)).isPunctuation = false := by
    cases k <;> first | rfl | cases hk
  rw [parseRule_of_read (read_literal hk hm), Tree.close, List.filter_singleton, hkept]
  change (Tree.build w (.node _ _ [_])).map Part.settle = _
  rw [Tree.build_of_parts (Tree.buildAll_cons rfl rfl), Build.node, Build.value]
  simp only [Build.first, List.head?_cons, bind, Except.bind]
  cases Build.literal (.known k) (String.ofList w) <;> rfl

/-! ### Chars -/

namespace CharLiteral

def quoted (content : List Char) : List Char := '\x27' :: (content ++ ['\x27'])

variable {content : List Char}

theorem inside_quoted : Build.inside (String.ofList (quoted content)) = String.ofList content := by
  rw [Build.inside, String.toList_ofList, quoted, List.drop_one, List.tail_cons,
    List.dropLast_concat]

theorem eq_of_ofByte? {n : Int} {v : Value} (h : Value.ofByte? n = some v) :
    ∃ b : UInt8, v = .char b ∧ n = b.toNat := by
  unfold Value.ofByte? at h
  split at h
  · rename_i hrange
    refine ⟨UInt8.ofNat n.toNat, (Option.some.inj h).symm, ?_⟩
    rw [UInt8.toNat_ofNat']
    omega
  · cases h

theorem literal_quoted {v : Value} :
    Build.literal (.known .char) (String.ofList (quoted content)) = .ok v ↔
      ∃ b : UInt8, v = .char b ∧ Numeral.Denotes content b.toNat := by
  have hread : ∀ n, Numeral.integer (String.ofList content) = .ok n ↔ Numeral.Denotes content n :=
    fun n => by rw [Numeral.integer_eq_ok, String.toList_ofList]
  simp only [Build.literal, inside_quoted]
  constructor
  · intro h
    split at h
    · cases h
    · rename_i n hn
      split at h
      · rename_i w hw
        obtain rfl := Except.ok.inj h
        obtain ⟨b, rfl, rfl⟩ := eq_of_ofByte? hw
        exact ⟨b, rfl, (hread _).1 hn⟩
      · cases h
  · rintro ⟨b, rfl, hdenotes⟩
    rw [(hread _).2 hdenotes]
    simp only [Value.ofByte?_toNat]

theorem stage_literal {cause : Fault}
    (h : Build.literal (.known .char) (String.ofList (quoted content)) = .error cause) :
    cause.stage = .value := by
  simp only [Build.literal] at h
  split at h
  · obtain rfl := Except.error.inj h
    rfl
  · split at h
    · cases h
    · obtain rfl := Except.error.inj h
      rfl

end CharLiteral

open CharLiteral

/-- A char literal is read exactly if its content denotes a byte in the way that integers are
spelled, and then it is the char of that byte; otherwise the whole literal is reported. Of contents
of ASCII digits alone, unless they are too long to be read, those denote a byte that are not empty
and write a number up to 255. -/
theorem parseRule_char {content : List Char} (h : ∀ c ∈ content, c ≠ '\x27' ∧ c ≠ '\n') :
    (∀ p, parseRule .value (quoted content) = .ok p ↔
      ∃ b : UInt8, p = .value (.char b) ∧ Numeral.Denotes content b.toNat) ∧
    ((¬∃ b : UInt8, Numeral.Denotes content b.toNat) → ∃ cause,
      cause.stage = .value ∧ parseRule .value (quoted content) = .error (.fault cause (some
        (.ofRange (.whole (quoted content)) (String.ofList (quoted content)))))) ∧
    ((∀ c ∈ content, Ascii.isDigit c = true) → content.length ≤ Numeral.digitLimit →
      ∀ b : UInt8, Numeral.Denotes content b.toNat ↔
        content ≠ [] ∧ Numeral.valueOf content = b.toNat) := by
  have hm : Terminal.char.Matches (quoted content) := ⟨content, h, rfl⟩
  have hparse := parseRule_value_literal (k := .char) rfl hm
  refine ⟨?_, ?_, ?_⟩
  · intro p
    constructor
    · intro hok
      cases hliteral : Build.literal (.known .char) (String.ofList (quoted content)) with
      | error cause =>
        rw [hparse, hliteral] at hok
        cases hok
      | ok v =>
        obtain ⟨b, rfl, hdenotes⟩ := literal_quoted.1 hliteral
        rw [hparse, hliteral] at hok
        exact ⟨b, (Except.ok.inj hok).symm, hdenotes⟩
    · rintro ⟨b, rfl, hdenotes⟩
      rw [hparse, literal_quoted.2 ⟨b, rfl, hdenotes⟩]
  · intro hnone
    cases hliteral : Build.literal (.known .char) (String.ofList (quoted content)) with
    | error cause =>
      refine ⟨cause, stage_literal hliteral, ?_⟩
      rw [hparse, hliteral]
    | ok v =>
      obtain ⟨b, -, hdenotes⟩ := literal_quoted.1 hliteral
      exact absurd ⟨b, hdenotes⟩ hnone
  · intro hdigits hlimit b
    rw [Numeral.denotes_of_isDigit hdigits hlimit, Int.natCast_inj, eq_comm (a := b.toNat)]

/-- A char with a blank, a zero of another script and an underscore in it. -/
theorem parseRule_char_spaced :
    parseRule .value "' \u0660_65'".toList = .ok (.value (.char 65)) := by
  have hread : Numeral.integer " \u0660_65" = .ok 65 := by decide +kernel
  have hdenotes := Numeral.integer_eq_ok.1 hread
  have hcontent : ∀ c ∈ " \u0660_65".toList, c ≠ '\x27' ∧ c ≠ '\n' := by simp
  exact ((parseRule_char hcontent).1 _).2 ⟨65, rfl, hdenotes⟩

/-- A char with a sign is read, though a sign is no digit. -/
theorem parseRule_signed_char :
    (parseRule .value "'+65'".toList).toOption.bind Part.value? = some (.char 65) ∧
      ¬∀ c ∈ "+65".toList, Ascii.isDigit c = true := by
  have hplus : Ascii.isDigit '+' = false := rfl
  refine ⟨by decide +kernel, fun h => ?_⟩
  rw [h '+' List.mem_cons_self] at hplus
  cases hplus

end ClassLang
