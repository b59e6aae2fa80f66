import ClassLang.Syntax.Pattern

/-!
# Delimited lexemes

A lexeme that belongs to its terminal is read back as a whole if what stands behind it cannot carry
it on: no letter behind a name, no second star behind a star. The first character of a lexeme leaves
few terminals to choose from (`Terminal.starters`). Main statement: a delimited lexeme of an
acceptable terminal is the next lexeme, unless it is a name spelled like an acceptable keyword.
-/

namespace ClassLang

/-- Whether a text starts with a character of some kind. -/
def startsWith (p : Char → Bool) : List Char → Bool
  | [] => false
  | c :: _ => p c

/-! ### Scanners on delimited lexemes -/

namespace Scan

variable {w rest : List Char}

theorem takeWhile_delimited {p : Char → Bool} (hw : ∀ c ∈ w, p c = true)
    (hr : startsWith p rest = false) :
    (w ++ rest).takeWhile p = w ∧ (w ++ rest).dropWhile p = rest := by
  rw [List.takeWhile_append_of_pos hw, List.dropWhile_append_of_pos hw]
  cases rest with
  | nil => exact ⟨List.append_nil w, rfl⟩
  | cons c cs =>
    have hc : ¬p c = true := by
      rw [show p c = false from hr]
      exact Bool.false_ne_true
    rw [List.takeWhile_cons_of_neg hc, List.dropWhile_cons_of_neg hc]
    exact ⟨List.append_nil w, rfl⟩

theorem word_delimited : word w (w ++ rest) = some (w, rest) := by
  have hp : w.isPrefixOf (w ++ rest) = true :=
    List.isPrefixOf_iff_prefix.2 (List.prefix_append w rest)
  rw [word, if_pos hp, List.drop_left]

theorem name_delimited (hw : Pattern.IsName w) (hr : startsWith Ascii.isNameChar rest = false) :
    name (w ++ rest) = some (w, rest) := by
  cases w with
  | nil => cases hw
  | cons c cs =>
    obtain ⟨hc, hcs⟩ := hw
    obtain ⟨ht, hd⟩ := takeWhile_delimited hcs hr
    rw [List.cons_append, name, if_pos hc, ht, hd]

theorem digits_delimited (hw : Pattern.IsDigits w) (hr : startsWith Ascii.isDigit rest = false) :
    digits (w ++ rest) = some (w, rest) := by
  obtain ⟨ht, hd⟩ := takeWhile_delimited hw.2 hr
  rw [digits, ht, hd, if_neg]
  rw [List.isEmpty_iff]
  exact hw.1

theorem integer_of_digits {cs : List Char} (h : startsWith (· = '-') cs = false) :
    integer cs = digits cs := by
  unfold integer
  split
  · simp [startsWith] at h
  · rfl

theorem integer_delimited (hw : Pattern.IsInteger w)
    (hr : startsWith Ascii.isDigit rest = false) : integer (w ++ rest) = some (w, rest) := by
  rcases hw with hw | ⟨ds, hd, rfl⟩
  · rw [integer_of_digits, digits_delimited hw hr]
    cases w with
    | nil => exact absurd rfl hw.1
    | cons c cs =>
      have hc := hw.2 c List.mem_cons_self
      simp only [List.cons_append, startsWith, decide_eq_false_iff_not]
      rintro rfl
      exact absurd hc (by decide)
  · rw [List.cons_append, integer, digits_delimited hd hr]
    rfl

theorem fraction_delimited (hw : Pattern.IsDigits w)
    (hr : startsWith Ascii.isDigit rest = false) :
    fraction ('.' :: (w ++ rest)) = some ('.' :: w, rest) := by
  rw [fraction, digits_delimited hw hr]
  rfl

theorem float_delimited (hw : Pattern.IsFloat w) (hr : startsWith Ascii.isDigit rest = false) :
    float (w ++ rest) = some (w, rest) := by
  obtain ⟨whole, ds, hwhole, hd, rfl⟩ := hw
  rw [float, List.append_assoc, integer_delimited hwhole rfl, Option.bind_some, List.cons_append]
  simp only [fraction_delimited hd hr]
  rfl

/-- An integer without a point behind it is no float. -/
theorem float_of_integer (hw : Pattern.IsInteger w) (hr : startsWith Ascii.isDigit rest = false)
    (hp : startsWith (· = '.') rest = false) : float (w ++ rest) = none := by
  have hf : fraction rest = none := by
    unfold fraction
    split
    · simp [startsWith] at hp
    · rfl
  rw [float, integer_delimited hw hr, Option.bind_some]
  simp only [hf]
  rfl

theorem stringBody_delimited (hw : Pattern.IsStringBody w) :
    stringBody (w ++ '\x22' :: rest) = some (w ++ ['\x22'], rest) := by
  induction hw with
  | nil => rfl
  | plain hq hb hn _ ih =>
    rw [List.cons_append, stringBody, if_neg hq, if_neg hn, ih]
    · rfl
    · exact hb
  | escaped hn _ ih =>
    rw [List.cons_append, List.cons_append, stringBody]
    simp only [if_neg hn, ih]
    rfl

theorem string_delimited (hw : Pattern.IsString w) : string (w ++ rest) = some (w, rest) := by
  obtain ⟨body, hb, rfl⟩ := hw
  rw [List.cons_append, List.append_assoc, string, List.singleton_append, stringBody_delimited hb]
  rfl

theorem charBody_delimited (hw : ∀ c ∈ w, c ≠ '\x27' ∧ c ≠ '\n') :
    charBody (w ++ '\x27' :: rest) = some (w ++ ['\x27'], rest) := by
  induction w with
  | nil => rfl
  | cons c cs ih =>
    obtain ⟨hq, hn⟩ := hw c List.mem_cons_self
    rw [List.cons_append, charBody, if_neg hq, if_neg hn,
      ih fun d hd => hw d (List.mem_cons_of_mem c hd)]
    rfl

theorem char_delimited (hw : Pattern.IsChar w) : char (w ++ rest) = some (w, rest) := by
  obtain ⟨body, hb, rfl⟩ := hw
  rw [List.cons_append, List.append_assoc, char, List.singleton_append, charBody_delimited hb]
  rfl

theorem angle_delimited (hw : ∀ c ∈ w, Blank.isMatrixBlank c = true) :
    angle (w ++ '<' :: rest) = some (w ++ ['<'], rest) := by
  have hangle : startsWith Blank.isMatrixBlank ('<' :: rest) = false := rfl
  obtain ⟨ht, hd⟩ := takeWhile_delimited hw hangle
  rw [angle, ht, hd, show '<' :: rest = ['<'] ++ rest from rfl, word_delimited]
  rfl

theorem matrixOpen_delimited (hw : Pattern.IsMatrixOpen w) :
    matrixOpen (w ++ rest) = some (w, rest) := by
  obtain ⟨blanks, hb, rfl⟩ := hw
  rw [matrixOpen, List.append_assoc, word_delimited, Option.bind_some, List.append_assoc,
    List.singleton_append]
  simp only [angle_delimited hb]
  rfl

theorem angle_of_nameChar (h : startsWith Ascii.isNameChar rest = true) : angle rest = none := by
  cases rest with
  | nil => cases h
  | cons c cs =>
    rw [startsWith] at h
    have hb : ¬Blank.isMatrixBlank c = true := by
      intro hb
      simp only [Blank.isMatrixBlank, Bool.or_eq_true, decide_eq_true_eq] at hb
      rcases hb with ((rfl | rfl) | rfl) | rfl <;> exact absurd h (by decide)
    have ha : ¬['<'].isPrefixOf (c :: cs) = true := by
      simp only [List.isPrefixOf, Bool.and_true, beq_iff_eq]
      rintro rfl
      exact absurd h (by decide)
    rw [angle, List.takeWhile_cons_of_neg hb, List.dropWhile_cons_of_neg hb, word, if_neg ha]
    rfl

/-- A name opens no matrix unless an angle bracket follows. -/
theorem matrixOpen_of_name (hw : Pattern.IsName w) (hr : startsWith Ascii.isNameChar rest = false)
    (ha : angle rest = none) : matrixOpen (w ++ rest) = none := by
  cases hcut : word matrixWord (w ++ rest) with
  | none => rw [matrixOpen, hcut, Option.bind_none]
  | some cut =>
    obtain ⟨front, tail⟩ := cut
    have hfront : front = matrixWord := word_eq hcut
    have htail : matrixWord ++ tail = w ++ rest := hfront ▸ word_append hcut
    have hnone : angle tail = none := by
      rcases List.append_eq_append_iff.1 htail with ⟨v, rfl, rfl⟩ | ⟨v, hv, rfl⟩
      · cases v with
        | nil => exact ha
        | cons c cs => exact angle_of_nameChar (hw.2 c (by simp))
      · cases v with
        | nil => exact ha
        | cons c cs =>
          have hc : c ∈ matrixWord := hv ▸ List.mem_append_right w List.mem_cons_self
          have hname : ∀ d ∈ matrixWord, Ascii.isNameChar d = true := List.all_eq_true.1 rfl
          rw [List.cons_append, startsWith, hname c hc] at hr
          cases hr
    rw [matrixOpen, hcut, Option.bind_some]
    simp only [hnone]
    rfl

theorem bool_delimited (hw : Pattern.IsBool w) : bool (w ++ rest) = some (w, rest) := by
  obtain rfl | rfl := hw
  · rw [bool, word_delimited, Option.some_or]
  · rw [bool, word_delimited]
    rfl

end Scan

/-! ### The terminals that a character can start -/

namespace Terminal

/-- Whether a text cannot carry on a lexeme of a terminal. Behind a name no angle bracket follows
either, since it would open a matrix. -/
def EndsBefore (t : Terminal) (rest : List Char) : Prop :=
  match t with
  | kwClass | kwStatic | kwConst | kwMeta | kwNullptr | bool | identifier =>
    startsWith Ascii.isNameChar rest = false ∧ Scan.angle rest = none
  | float => startsWith Ascii.isDigit rest = false
  | integer => startsWith Ascii.isDigit rest = false ∧ startsWith (· = '.') rest = false
  | star => startsWith (· = '*') rest = false
  | colon => startsWith (· = ':') rest = false
  | _ => True

theorem scan_delimited {t : Terminal} {w rest : List Char} (hm : t.Matches w)
    (he : t.EndsBefore rest) : t.scan (w ++ rest) = some (w, rest) := by
  have hword : ∀ s : String, some s = some (String.ofList w) →
      Scan.word s.toList (w ++ rest) = some (w, rest) := by
    intro s hs
    rw [Option.some.inj hs, String.toList_ofList, Scan.word_delimited]
  cases t with
  | matrixOpen => exact Scan.matrixOpen_delimited hm
  | bool => exact Scan.bool_delimited hm
  | identifier => exact Scan.name_delimited hm he.1
  | char => exact Scan.char_delimited hm
  | float => exact Scan.float_delimited hm he
  | integer => exact Scan.integer_delimited hm he.1
  | string => exact Scan.string_delimited hm
  | _ => exact hword _ hm

/-- The terminals of which a lexeme can start with a character, in the order of `all`. -/
def starters (c : Char) : List Terminal :=
  match c with
  | 'M' => [matrixOpen, identifier]
  | 'c' => [kwClass, kwConst, identifier]
  | 's' => [kwStatic, identifier]
  | 'm' => [kwMeta, identifier]
  | 'n' => [kwNullptr, identifier]
  | 't' => [bool, identifier]
  | 'f' => [bool, identifier]
  | '-' => [float, integer]
  | '\x27' => [char]
  | '\x22' => [string]
  | ',' => [comma]
  | ':' => [doubleColon, colon]
  | ';' => [semicolon]
  | '=' => [equals]
  | '\x7b' => [leftBrace]
  | '\x7d' => [rightBrace]
  | '[' => [leftBracket]
  | ']' => [rightBracket]
  | '(' => [leftParen]
  | ')' => [rightParen]
  | '*' => [doubleStar, star]
  | '&' => [ampersand]
  | '>' => [greater]
  | c =>
    if Ascii.isNameStart c then [identifier] else if Ascii.isDigit c then [float, integer] else []

theorem starters_of_isDigit {c : Char} (h : Ascii.isDigit c = true) :
    starters c = [float, integer] := by
  unfold starters
  split <;> first | exact absurd h (by decide) | skip
  rw [Ascii.isNameStart_of_isDigit h, if_neg Bool.false_ne_true, if_pos h]

theorem starters_of_isNameStart {c : Char} (h : Ascii.isNameStart c = true) :
    ∃ ts, starters c = ts ++ [identifier] ∧
      ∀ t ∈ ts, t = matrixOpen ∨ t.isKeyword = true ∨ t = bool := by
  unfold starters
  split <;> first | exact absurd h (by decide) | skip
  · exact ⟨[matrixOpen], rfl, by decide⟩
  · exact ⟨[kwClass, kwConst], rfl, by decide⟩
  · exact ⟨[kwStatic], rfl, by decide⟩
  · exact ⟨[kwMeta], rfl, by decide⟩
  · exact ⟨[kwNullptr], rfl, by decide⟩
  · exact ⟨[bool], rfl, by decide⟩
  · exact ⟨[bool], rfl, by decide⟩
  · exact ⟨[], by rw [if_pos h]; rfl, by decide⟩

theorem filter_starters (c : Char) : all.filter (· ∈ starters c) = starters c := by
  unfold starters
  split <;> try decide
  split
  · decide
  · split <;> decide

theorem eq_spelling {t : Terminal} {s : String} {w : List Char} (h : t.Matches w)
    (hs : t.spelling? = some s) : w = s.toList := by
  have hw : t.spelling? = some (String.ofList w) := by
    cases t <;> first | exact h | cases hs
  rw [hs] at hw
  rw [Option.some.inj hw, String.toList_ofList]

theorem starters_of_isInteger {w : List Char} (h : Pattern.IsInteger w) :
    ∃ c v, w = c :: v ∧ starters c = [float, integer] := by
  rcases h with h | ⟨ds, -, rfl⟩
  · cases w with
    | nil => exact absurd rfl h.1
    | cons c v => exact ⟨c, v, rfl, starters_of_isDigit (h.2 c List.mem_cons_self)⟩
  · exact ⟨'-', ds, rfl, rfl⟩

/-- A lexeme is not empty, and its first character can start one of its terminal. -/
theorem mem_starters {t : Terminal} {w : List Char} (h : t.Matches w) :
    ∃ c v, w = c :: v ∧ t ∈ starters c := by
  cases t with
  | matrixOpen =>
    obtain ⟨blanks, -, rfl⟩ := h
    exact ⟨'M', _, rfl, by decide⟩
  | bool =>
    rcases h with rfl | rfl
    · exact ⟨'t', _, rfl, by decide⟩
    · exact ⟨'f', _, rfl, by decide⟩
  | identifier =>
    cases w with
    | nil => cases h
    | cons c v =>
      obtain ⟨ts, hts, -⟩ := starters_of_isNameStart h.1
      exact ⟨c, v, rfl, hts ▸ List.mem_append_right ts List.mem_cons_self⟩
  | char =>
    obtain ⟨body, -, rfl⟩ := h
    exact ⟨'\x27', _, rfl, by decide⟩
  | float =>
    obtain ⟨whole, ds, hw, -, rfl⟩ := h
    obtain ⟨c, v, rfl, hc⟩ := starters_of_isInteger hw
    exact ⟨c, _, rfl, hc ▸ by decide⟩
  | integer =>
    obtain ⟨c, v, rfl, hc⟩ := starters_of_isInteger h
    exact ⟨c, v, rfl, hc ▸ by decide⟩
  | string =>
    obtain ⟨body, -, rfl⟩ := h
    exact ⟨'\x22', _, rfl, by decide⟩
  | _ =>
    refine ⟨_, _, eq_spelling h rfl, ?_⟩
    decide

theorem scan_of_not_mem {t : Terminal} {c : Char} {cs : List Char} (h : t ∉ starters c) :
    t.scan (c :: cs) = none := by
  cases hs : t.scan (c :: cs) with
  | none => rfl
  | some cut =>
    obtain ⟨w, rest⟩ := cut
    obtain ⟨d, v, rfl, hd⟩ := mem_starters (scan_matches hs)
    obtain ⟨rfl, -⟩ := List.cons.inj (scan_append hs)
    exact absurd hd h

/-! ### The next lexeme -/

/-- The next lexeme if only one terminal is tried. -/
def attempt? (accepted : List Terminal) (cs : List Char) (t : Terminal) : Option Lexeme :=
  if isTried accepted t then
    match t.scan cs with
    | some (w, rest) => if w.isEmpty then none else some ⟨resolve accepted t w, w, rest⟩
    | none => none
  else none

variable {accepted : List Terminal} {t : Terminal}

theorem attempt?_of_scan {cs w rest : List Char} (ht : isTried accepted t = true)
    (hw : w ≠ []) (hs : t.scan cs = some (w, rest)) :
    attempt? accepted cs t = some ⟨resolve accepted t w, w, rest⟩ := by
  rw [attempt?, if_pos ht, hs]
  simp only [List.isEmpty_iff, if_neg hw]

theorem attempt?_of_scan_none {cs : List Char} (hs : t.scan cs = none) :
    attempt? accepted cs t = none := by
  rw [attempt?, hs]
  exact ite_self none

theorem attempt?_of_not_isTried {cs : List Char} (ht : isTried accepted t = false) :
    attempt? accepted cs t = none := by
  rw [attempt?, ht, if_neg Bool.false_ne_true]

theorem findSome?_filter {α β : Type} {p : α → Bool} {f : α → Option β} {as : List α}
    (h : ∀ a ∈ as, p a = false → f a = none) : as.findSome? f = (as.filter p).findSome? f := by
  induction as with
  | nil => rfl
  | cons a as ih =>
    have ih := ih fun b hb => h b (List.mem_cons_of_mem a hb)
    cases hp : p a with
    | true => rw [List.filter_cons_of_pos hp, List.findSome?_cons, List.findSome?_cons, ih]
    | false =>
      rw [List.filter_cons_of_neg (by rw [hp]; exact Bool.false_ne_true), List.findSome?_cons,
        h a List.mem_cons_self hp, ih]

/-- Only the terminals that the first character can start need to be tried. -/
theorem lexeme?_cons (c : Char) (cs : List Char) :
    lexeme? accepted (c :: cs) = (starters c).findSome? (attempt? accepted (c :: cs)) := by
  rw [← filter_starters c, ← findSome?_filter]
  · rfl
  · intro t _ ht
    exact attempt?_of_scan_none (scan_of_not_mem (of_decide_eq_false ht))

/-- The first attempt that succeeds gives the next lexeme. -/
theorem lexeme?_of_attempt? {c : Char} {cs : List Char} {ts us : List Terminal} {l : Lexeme}
    (hc : starters c = ts ++ t :: us) (hn : ∀ k ∈ ts, attempt? accepted (c :: cs) k = none)
    (ht : attempt? accepted (c :: cs) t = some l) : lexeme? accepted (c :: cs) = some l := by
  rw [lexeme?_cons, hc, List.findSome?_append, List.findSome?_eq_none_iff.2 hn, Option.none_or,
    List.findSome?_cons, ht]

variable {w rest : List Char}

theorem lexeme?_of_isTried {c : Char} {v : List Char} (ts : List Terminal) {us : List Terminal}
    (ht : isTried accepted t = true) (hi : t ≠ identifier) (hm : t.Matches (c :: v))
    (he : t.EndsBefore rest) (hc : starters c = ts ++ t :: us)
    (hn : ∀ k ∈ ts, k.scan (c :: v ++ rest) = none) :
    lexeme? accepted (c :: v ++ rest) = some ⟨t, c :: v, rest⟩ := by
  have hs := attempt?_of_scan ht (List.cons_ne_nil c v) (scan_delimited hm he)
  rw [resolve, if_neg hi] at hs
  exact lexeme?_of_attempt? hc (fun k hk => attempt?_of_scan_none (hn k hk)) hs

theorem isTried_of_not_isKeyword (ha : t ∈ accepted) (hk : t.isKeyword = false) :
    isTried accepted t = true := by
  simp only [isTried, List.contains_iff_mem.2 ha, hk, Bool.false_and, Bool.not_false,
    Bool.and_self]

theorem isTried_of_identifier_not_mem (ha : t ∈ accepted) (hi : identifier ∉ accepted) :
    isTried accepted t = true := by
  have hf : accepted.contains identifier = false := by simpa using hi
  simp only [isTried, List.contains_iff_mem.2 ha, hf, Bool.and_false, Bool.not_false,
    Bool.and_self]

theorem isTried_of_isKeyword (hi : identifier ∈ accepted) (hk : t.isKeyword = true) :
    isTried accepted t = false := by
  simp only [isTried, hk, List.contains_iff_mem.2 hi, Bool.and_self, Bool.not_true, Bool.and_false]

/-- Where names are acceptable a word is read as a whole, and is what it is spelled like. -/
theorem lexeme?_word (hi : identifier ∈ accepted) (hb : bool ∉ accepted)
    (hm : Pattern.IsName w) (hr : startsWith Ascii.isNameChar rest = false)
    (ha : Scan.angle rest = none) :
    lexeme? accepted (w ++ rest) = some ⟨(keywordOf? accepted w).getD identifier, w, rest⟩ := by
  cases w with
  | nil => cases hm
  | cons c v =>
    obtain ⟨ts, hts, hall⟩ := starters_of_isNameStart hm.1
    have hw := attempt?_of_scan (t := identifier) (isTried_of_not_isKeyword hi rfl)
      (List.cons_ne_nil c v) (Scan.name_delimited hm hr)
    rw [resolve, if_pos rfl] at hw
    refine lexeme?_of_attempt? hts ?_ hw
    intro k hk
    rcases hall k hk with rfl | hkey | rfl
    · exact attempt?_of_scan_none (Scan.matrixOpen_of_name hm hr ha)
    · exact attempt?_of_not_isTried (isTried_of_isKeyword hi hkey)
    · refine attempt?_of_not_isTried ?_
      rw [isTried, show accepted.contains bool = false by simpa using hb, Bool.false_and]

/-- Whether a name among acceptable terminals is read as a keyword. -/
def Mistaken (accepted : List Terminal) (w : String) : Prop :=
  ∃ k ∈ accepted, k.isKeyword = true ∧ k.spelling? = some w

theorem keywordOf?_of_not_mistaken (h : ¬Mistaken accepted (String.ofList w)) :
    keywordOf? accepted w = none := by
  rw [keywordOf?, List.find?_eq_none]
  intro k hk hw
  simp only [Bool.and_eq_true, beq_iff_eq] at hw
  exact h ⟨k, hk, hw⟩

theorem eq_of_spelling {k : Terminal} {s : String} (hk : k.isKeyword = true)
    (ht : t.isKeyword = true) (hs : k.spelling? = some s) (hs' : t.spelling? = some s) : k = t := by
  rw [← hs'] at hs
  revert hs
  revert hk ht
  cases k <;> cases t <;> decide

theorem keywordOf?_of_mem {s : String} (ha : t ∈ accepted) (hk : t.isKeyword = true)
    (hs : t.spelling? = some s) : keywordOf? accepted s.toList = some t := by
  cases hf : keywordOf? accepted s.toList with
  | none =>
    have hne := List.find?_eq_none.1 hf t ha
    simp [hk, hs, String.ofList_toList] at hne
  | some k =>
    have hw := List.find?_some hf
    simp only [Bool.and_eq_true, beq_iff_eq, String.ofList_toList] at hw
    rw [eq_of_spelling hw.1 hk hw.2 hs]

theorem isKeyword_spelling (hk : t.isKeyword = true) :
    ∃ s, t.spelling? = some s ∧ Pattern.IsName s.toList := by
  cases t with
  | kwClass => exact ⟨"class", rfl, rfl, List.all_eq_true.1 rfl⟩
  | kwStatic => exact ⟨"static", rfl, rfl, List.all_eq_true.1 rfl⟩
  | kwConst => exact ⟨"const", rfl, rfl, List.all_eq_true.1 rfl⟩
  | kwMeta => exact ⟨"meta", rfl, rfl, List.all_eq_true.1 rfl⟩
  | kwNullptr => exact ⟨"nullptr", rfl, rfl, List.all_eq_true.1 rfl⟩
  | _ => cases hk

/-- Among the keywords that start alike none is the front of another. -/
theorem isKeyword_starters {s : String} (hk : t.isKeyword = true) (hs : t.spelling? = some s)
    (rest : List Char) :
    ∃ c v ts us, s.toList = c :: v ∧ starters c = ts ++ t :: us ∧
      ∀ k ∈ ts, k.scan (c :: v ++ rest) = none := by
  cases t with
  | kwClass =>
    obtain rfl := Option.some.inj hs
    exact ⟨'c', _, [], _, rfl, rfl, nofun⟩
  | kwStatic =>
    obtain rfl := Option.some.inj hs
    exact ⟨'s', _, [], _, rfl, rfl, nofun⟩
  | kwConst =>
    obtain rfl := Option.some.inj hs
    refine ⟨'c', _, [kwClass], _, rfl, rfl, ?_⟩
    intro k hk
    obtain rfl := List.mem_singleton.1 hk
    rfl
  | kwMeta =>
    obtain rfl := Option.some.inj hs
    exact ⟨'m', _, [], _, rfl, rfl, nofun⟩
  | kwNullptr =>
    obtain rfl := Option.some.inj hs
    exact ⟨'n', _, [], _, rfl, rfl, nofun⟩
  | _ => cases hk

/-- A keyword is read as such whether names are acceptable beside it or not. -/
theorem lexeme?_of_isKeyword (ha : t ∈ accepted) (hk : t.isKeyword = true)
    (hb : identifier ∈ accepted → bool ∉ accepted) (hm : t.Matches w) (he : t.EndsBefore rest) :
    lexeme? accepted (w ++ rest) = some ⟨t, w, rest⟩ := by
  obtain ⟨s, hs, hname⟩ := isKeyword_spelling hk
  obtain rfl := eq_spelling hm hs
  by_cases hi : identifier ∈ accepted
  · have hend : startsWith Ascii.isNameChar rest = false ∧ Scan.angle rest = none := by
      cases t <;> first | exact he | cases hk
    rw [lexeme?_word hi (hb hi) hname hend.1 hend.2, keywordOf?_of_mem ha hk hs, Option.getD_some]
  · obtain ⟨c, v, ts, us, hw, hc, hn⟩ := isKeyword_starters hk hs rest
    rw [hw] at hm ⊢
    refine lexeme?_of_isTried ts (isTried_of_identifier_not_mem ha hi) ?_ hm he hc hn
    rintro rfl
    cases hk

theorem lexeme?_of_isInteger (ha : integer ∈ accepted) (hm : Pattern.IsInteger w)
    (he : integer.EndsBefore rest) : lexeme? accepted (w ++ rest) = some ⟨integer, w, rest⟩ := by
  obtain ⟨c, v, rfl, hc⟩ := starters_of_isInteger hm
  refine lexeme?_of_isTried [float] (isTried_of_not_isKeyword ha rfl) nofun hm he hc ?_
  intro k hk
  obtain rfl := List.mem_singleton.1 hk
  exact Scan.float_of_integer hm he.1 he.2

theorem lexeme?_of_isFloat (ha : float ∈ accepted) (hm : Pattern.IsFloat w)
    (he : float.EndsBefore rest) : lexeme? accepted (w ++ rest) = some ⟨float, w, rest⟩ := by
  have hf := hm
  obtain ⟨whole, ds, hw, -, rfl⟩ := hf
  obtain ⟨c, v, rfl, hc⟩ := starters_of_isInteger hw
  exact lexeme?_of_isTried [] (isTried_of_not_isKeyword ha rfl) nofun hm he hc nofun

/-- A single sign is not read as the front of its doubled form. -/
theorem word_pair_of_single {c : Char} (h : startsWith (· = c) rest = false) :
    Scan.word [c, c] ([c] ++ rest) = none := by
  rw [Scan.word, if_neg]
  cases rest with
  | nil => simp [List.isPrefixOf]
  | cons d ds =>
    have hd : c ≠ d := fun e => of_decide_eq_false h e.symm
    simp [List.isPrefixOf, hd]

/-- A delimited lexeme of an acceptable terminal is the next one, if it is no name that is mistaken
for a keyword. -/
theorem lexeme?_delimited (ha : t ∈ accepted) (hm : t.Matches w) (he : t.EndsBefore rest)
    (hb : identifier ∈ accepted → bool ∉ accepted)
    (hn : t = identifier → ¬Mistaken accepted (String.ofList w)) :
    lexeme? accepted (w ++ rest) = some ⟨t, w, rest⟩ := by
  have hsingle {c : Char} {v : List Char} {us : List Terminal} (hw : w = c :: v)
      (hk : t.isKeyword = false) (hi : t ≠ identifier) (hc : starters c = t :: us) :
      lexeme? accepted (w ++ rest) = some ⟨t, w, rest⟩ := by
    subst hw
    exact lexeme?_of_isTried [] (isTried_of_not_isKeyword ha hk) hi hm he hc nofun
  cases t with
  | matrixOpen =>
    obtain ⟨blanks, -, hw⟩ := id hm
    exact hsingle hw rfl nofun rfl
  | bool =>
    rcases id hm with hw | hw
    · exact hsingle hw rfl nofun rfl
    · exact hsingle hw rfl nofun rfl
  | identifier =>
    rw [lexeme?_word ha (hb ha) hm he.1 he.2, keywordOf?_of_not_mistaken (hn rfl)]
    rfl
  | char =>
    obtain ⟨body, -, hw⟩ := id hm
    exact hsingle hw rfl nofun rfl
  | float => exact lexeme?_of_isFloat ha hm he
  | integer => exact lexeme?_of_isInteger ha hm he
  | string =>
    obtain ⟨body, -, hw⟩ := id hm
    exact hsingle hw rfl nofun rfl
  | star =>
    obtain rfl := eq_spelling hm rfl
    refine lexeme?_of_isTried [doubleStar] (isTried_of_not_isKeyword ha rfl) nofun hm he rfl ?_
    intro k hk
    obtain rfl := List.mem_singleton.1 hk
    exact word_pair_of_single he
  | colon =>
    obtain rfl := eq_spelling hm rfl
    refine lexeme?_of_isTried [doubleColon] (isTried_of_not_isKeyword ha rfl) nofun hm he rfl ?_
    intro k hk
    obtain rfl := List.mem_singleton.1 hk
    exact word_pair_of_single he
  | kwClass => exact lexeme?_of_isKeyword ha rfl hb hm he
  | kwStatic => exact lexeme?_of_isKeyword ha rfl hb hm he
  | kwConst => exact lexeme?_of_isKeyword ha rfl hb hm he
  | kwMeta => exact lexeme?_of_isKeyword ha rfl hb hm he
  | kwNullptr => exact lexeme?_of_isKeyword ha rfl hb hm he
  | _ => exact hsingle (eq_spelling hm rfl) rfl nofun rfl

end Terminal

end ClassLang
