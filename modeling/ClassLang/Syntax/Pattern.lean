import ClassLang.Syntax.Lexeme

/-!
# Patterns of terminals

Which texts belong to a terminal as a whole, said without reading anything. `scan_matches` ties the
two together: what is read for a terminal belongs to it.
-/

namespace ClassLang

namespace Pattern

/-- At least one digit and nothing else. -/
def IsDigits (w : List Char) : Prop := w ≠ [] ∧ ∀ c ∈ w, Ascii.isDigit c = true

def IsName : List Char → Prop
  | [] => False
  | c :: cs => Ascii.isNameStart c = true ∧ ∀ d ∈ cs, Ascii.isNameChar d = true

def IsInteger (w : List Char) : Prop := IsDigits w ∨ ∃ ds, IsDigits ds ∧ w = '-' :: ds

def IsFloat (w : List Char) : Prop :=
  ∃ whole fraction, IsInteger whole ∧ IsDigits fraction ∧ w = whole ++ '.' :: fraction

/-- What may stand between double quotes: plain characters, and any character but a line feed
behind a backslash. -/
inductive IsStringBody : List Char → Prop
  | nil : IsStringBody []
  | plain {c : Char} {cs : List Char} (hq : c ≠ '\x22') (hb : c ≠ '\\') (hn : c ≠ '\n')
      (h : IsStringBody cs) : IsStringBody (c :: cs)
  | escaped {c : Char} {cs : List Char} (hn : c ≠ '\n') (h : IsStringBody cs) :
      IsStringBody ('\\' :: c :: cs)

def IsString (w : List Char) : Prop := ∃ body, IsStringBody body ∧ w = '\x22' :: (body ++ ['\x22'])

def IsChar (w : List Char) : Prop :=
  ∃ body, (∀ c ∈ body, c ≠ '\x27' ∧ c ≠ '\n') ∧ w = '\x27' :: (body ++ ['\x27'])

def IsMatrixOpen (w : List Char) : Prop :=
  ∃ blanks, (∀ c ∈ blanks, Blank.isMatrixBlank c = true) ∧
    w = Scan.matrixWord ++ (blanks ++ ['<'])

def IsBool (w : List Char) : Prop := w = "true".toList ∨ w = "false".toList

end Pattern

def Terminal.Matches (t : Terminal) (w : List Char) : Prop :=
  match t with
  | matrixOpen => Pattern.IsMatrixOpen w
  | bool => Pattern.IsBool w
  | identifier => Pattern.IsName w
  | char => Pattern.IsChar w
  | float => Pattern.IsFloat w
  | integer => Pattern.IsInteger w
  | string => Pattern.IsString w
  | t => t.spelling? = some (String.ofList w)

/-! ### What is read belongs to its terminal -/

namespace Scan

theorem extend_eq_some {front w rest : List Char} {cut : Option Cut}
    (h : extend front cut = some (w, rest)) : ∃ v, cut = some (v, rest) ∧ w = front ++ v := by
  obtain ⟨⟨v, r⟩, hv, he⟩ := Option.map_eq_some_iff.1 h
  simp only [Prod.mk.injEq] at he
  obtain ⟨rfl, rfl⟩ := he
  exact ⟨v, hv, rfl⟩

theorem word_eq {w cs v rest : List Char} (h : word w cs = some (v, rest)) : v = w := by
  unfold word at h
  split at h
  · simp only [Option.some.injEq, Prod.mk.injEq] at h
    exact h.1.symm
  · simp at h

theorem all_takeWhile {p : Char → Bool} {cs : List Char} :
    ∀ c ∈ cs.takeWhile p, p c = true :=
  List.all_eq_true.1 List.all_takeWhile

theorem name_matches {cs w rest : List Char} (h : name cs = some (w, rest)) :
    Pattern.IsName w := by
  unfold name at h
  split at h
  · simp at h
  · split at h
    · rename_i hc
      simp only [Option.some.injEq, Prod.mk.injEq] at h
      obtain ⟨rfl, -⟩ := h
      exact ⟨hc, all_takeWhile⟩
    · simp at h

theorem digits_matches {cs w rest : List Char} (h : digits cs = some (w, rest)) :
    Pattern.IsDigits w := by
  unfold digits at h
  split at h
  · simp at h
  · rename_i hne
    simp only [Option.some.injEq, Prod.mk.injEq] at h
    obtain ⟨rfl, -⟩ := h
    exact ⟨by simpa using hne, all_takeWhile⟩

theorem integer_matches {cs w rest : List Char} (h : integer cs = some (w, rest)) :
    Pattern.IsInteger w := by
  unfold integer at h
  split at h
  · obtain ⟨ds, hd, rfl⟩ := extend_eq_some h
    exact Or.inr ⟨ds, digits_matches hd, rfl⟩
  · exact Or.inl (digits_matches h)

theorem float_matches {cs w rest : List Char} (h : float cs = some (w, rest)) :
    Pattern.IsFloat w := by
  obtain ⟨⟨whole, tail⟩, hw, hf⟩ := Option.bind_eq_some_iff.1 h
  obtain ⟨v, hv, rfl⟩ := extend_eq_some hf
  unfold fraction at hv
  split at hv
  · obtain ⟨ds, hd, rfl⟩ := extend_eq_some hv
    exact ⟨whole, ds, integer_matches hw, digits_matches hd, rfl⟩
  · simp at hv

theorem stringBody_matches {cs w rest : List Char} (h : stringBody cs = some (w, rest)) :
    ∃ body, Pattern.IsStringBody body ∧ w = body ++ ['\x22'] := by
  fun_induction stringBody cs generalizing w rest with
  | case1 => simp at h
  | case2 => simp at h
  | case3 => simp at h
  | case4 c cs hn ih =>
    obtain ⟨v, hv, rfl⟩ := extend_eq_some h
    obtain ⟨body, hb, rfl⟩ := ih hv
    exact ⟨'\\' :: c :: body, .escaped hn hb, rfl⟩
  | case5 cs =>
    simp only [Option.some.injEq, Prod.mk.injEq] at h
    exact ⟨[], .nil, h.1.symm⟩
  | case6 => simp at h
  | case7 c cs hb hq hn ih =>
    obtain ⟨v, hv, rfl⟩ := extend_eq_some h
    obtain ⟨body, hbody, rfl⟩ := ih hv
    exact ⟨c :: body, .plain hq hb hn hbody, rfl⟩

theorem string_matches {cs w rest : List Char} (h : string cs = some (w, rest)) :
    Pattern.IsString w := by
  unfold string at h
  split at h
  · obtain ⟨v, hv, rfl⟩ := extend_eq_some h
    obtain ⟨body, hb, rfl⟩ := stringBody_matches hv
    exact ⟨body, hb, rfl⟩
  · simp at h

theorem charBody_matches {cs w rest : List Char} (h : charBody cs = some (w, rest)) :
    ∃ body, (∀ c ∈ body, c ≠ '\x27' ∧ c ≠ '\n') ∧ w = body ++ ['\x27'] := by
  fun_induction charBody cs generalizing w rest with
  | case1 => simp at h
  | case2 cs =>
    simp only [Option.some.injEq, Prod.mk.injEq] at h
    exact ⟨[], by simp, h.1.symm⟩
  | case3 => simp at h
  | case4 c cs hq hn ih =>
    obtain ⟨v, hv, rfl⟩ := extend_eq_some h
    obtain ⟨body, hb, rfl⟩ := ih hv
    refine ⟨c :: body, ?_, rfl⟩
    intro d hd
    rcases List.mem_cons.1 hd with rfl | hd
    · exact ⟨hq, hn⟩
    · exact hb d hd

theorem char_matches {cs w rest : List Char} (h : char cs = some (w, rest)) :
    Pattern.IsChar w := by
  unfold char at h
  split at h
  · obtain ⟨v, hv, rfl⟩ := extend_eq_some h
    obtain ⟨body, hb, rfl⟩ := charBody_matches hv
    exact ⟨body, hb, rfl⟩
  · simp at h

theorem matrixOpen_matches {cs w rest : List Char} (h : matrixOpen cs = some (w, rest)) :
    Pattern.IsMatrixOpen w := by
  obtain ⟨⟨front, tail⟩, hw, hf⟩ := Option.bind_eq_some_iff.1 h
  have hfront : front = matrixWord := word_eq hw
  obtain ⟨v, hv, rfl⟩ := extend_eq_some hf
  obtain ⟨u, hu, rfl⟩ := extend_eq_some hv
  rw [hfront, word_eq hu]
  exact ⟨tail.takeWhile Blank.isMatrixBlank, all_takeWhile, rfl⟩

theorem bool_matches {cs w rest : List Char} (h : bool cs = some (w, rest)) :
    Pattern.IsBool w := by
  rcases Option.or_eq_some_iff.1 h with h | ⟨-, h⟩
  · exact Or.inl (word_eq h)
  · exact Or.inr (word_eq h)

end Scan

namespace Terminal

theorem scan_matches {t : Terminal} {cs w rest : List Char} (h : t.scan cs = some (w, rest)) :
    t.Matches w := by
  have hword : ∀ s : String, Scan.word s.toList cs = some (w, rest) →
      some s = some (String.ofList w) := by
    intro s hs
    rw [Scan.word_eq hs, String.ofList_toList]
  cases t with
  | matrixOpen => exact Scan.matrixOpen_matches h
  | bool => exact Scan.bool_matches h
  | identifier => exact Scan.name_matches h
  | char => exact Scan.char_matches h
  | float => exact Scan.float_matches h
  | integer => exact Scan.integer_matches h
  | string => exact Scan.string_matches h
  | _ => exact hword _ h

end Terminal

theorem lexeme?_matches {accepted : List Terminal} {cs : List Char} {l : Lexeme}
    (h : lexeme? accepted cs = some l) : l.terminal.Matches l.text := by
  obtain ⟨t, -, hs, -, ht⟩ := lexeme?_eq_some h
  rw [ht, Terminal.resolve]
  split
  · rename_i hi
    cases hk : Terminal.keywordOf? accepted l.text with
    | none =>
      rw [Option.getD_none, ← hi]
      exact Terminal.scan_matches hs
    | some k =>
      have hf := List.find?_some hk
      simp only [Bool.and_eq_true, beq_iff_eq] at hf
      rw [Option.getD_some]
      cases k <;> simp only [Terminal.isKeyword, Bool.false_eq_true, false_and] at hf <;>
        exact hf.2
  · exact Terminal.scan_matches hs

end ClassLang
