import ClassLang.Syntax.Terminal
import ClassLang.Text.Ascii
import ClassLang.Text.Blank

/-!
# Lexemes

How much of a text a terminal takes. `Terminal.scan` cuts a text into the lexeme of one terminal
and the rest, and nothing of the text is lost. `lexeme?` does so for the terminals that are
acceptable at one place: it tries them in the fixed order of `Terminal.all`. A keyword is read as
the front of a word where no name is acceptable. Where a name is acceptable too, the whole word is
read first and is a keyword only if it is spelled exactly like one.
-/

namespace ClassLang

namespace Scan

/-- A lexeme and the text behind it. -/
abbrev Cut := List Char × List Char

def extend (front : List Char) (cut : Option Cut) : Option Cut :=
  cut.map fun (lexeme, rest) => (front ++ lexeme, rest)

theorem extend_append {front cs lexeme rest : List Char} {cut : Option Cut}
    (hc : ∀ l r, cut = some (l, r) → l ++ r = cs) (h : extend front cut = some (lexeme, rest)) :
    lexeme ++ rest = front ++ cs := by
  obtain ⟨⟨l, r⟩, hl, he⟩ := Option.map_eq_some_iff.1 h
  simp only [Prod.mk.injEq] at he
  obtain ⟨rfl, rfl⟩ := he
  rw [List.append_assoc, hc l r hl]

def word (w cs : List Char) : Option Cut :=
  if w.isPrefixOf cs then some (w, cs.drop w.length) else none

theorem word_append {w cs lexeme rest : List Char} (h : word w cs = some (lexeme, rest)) :
    lexeme ++ rest = cs := by
  unfold word at h
  split at h
  · rename_i hp
    simp only [Option.some.injEq, Prod.mk.injEq] at h
    obtain ⟨rfl, rfl⟩ := h
    obtain ⟨t, rfl⟩ := List.isPrefixOf_iff_prefix.1 hp
    rw [List.drop_left]
  · simp at h

/-- A letter or underscore with all letters, digits and underscores that follow. -/
def name : List Char → Option Cut
  | [] => none
  | c :: cs =>
    if Ascii.isNameStart c then
      some (c :: cs.takeWhile Ascii.isNameChar, cs.dropWhile Ascii.isNameChar)
    else none

theorem name_append {cs lexeme rest : List Char} (h : name cs = some (lexeme, rest)) :
    lexeme ++ rest = cs := by
  unfold name at h
  split at h
  · simp at h
  · split at h
    · simp only [Option.some.injEq, Prod.mk.injEq] at h
      obtain ⟨rfl, rfl⟩ := h
      simp only [List.cons_append, List.takeWhile_append_dropWhile]
    · simp at h

/-- All digits at the front, at least one. -/
def digits (cs : List Char) : Option Cut :=
  if (cs.takeWhile Ascii.isDigit).isEmpty then none
  else some (cs.takeWhile Ascii.isDigit, cs.dropWhile Ascii.isDigit)

theorem digits_append {cs lexeme rest : List Char} (h : digits cs = some (lexeme, rest)) :
    lexeme ++ rest = cs := by
  unfold digits at h
  split at h
  · simp at h
  · simp only [Option.some.injEq, Prod.mk.injEq] at h
    obtain ⟨rfl, rfl⟩ := h
    exact List.takeWhile_append_dropWhile

def integer : List Char → Option Cut
  | '-' :: cs => extend ['-'] (digits cs)
  | cs => digits cs

theorem integer_append {cs lexeme rest : List Char} (h : integer cs = some (lexeme, rest)) :
    lexeme ++ rest = cs := by
  unfold integer at h
  split at h
  · exact extend_append (fun _ _ hd => digits_append hd) h
  · exact digits_append h

def fraction : List Char → Option Cut
  | '.' :: cs => extend ['.'] (digits cs)
  | _ => none

theorem fraction_append {cs lexeme rest : List Char} (h : fraction cs = some (lexeme, rest)) :
    lexeme ++ rest = cs := by
  unfold fraction at h
  split at h
  · exact extend_append (fun _ _ hd => digits_append hd) h
  · simp at h

def float (cs : List Char) : Option Cut :=
  (integer cs).bind fun (whole, rest) => extend whole (fraction rest)

theorem float_append {cs lexeme rest : List Char} (h : float cs = some (lexeme, rest)) :
    lexeme ++ rest = cs := by
  obtain ⟨⟨whole, tail⟩, hw, hf⟩ := Option.bind_eq_some_iff.1 h
  rw [extend_append (fun _ _ hd => fraction_append hd) hf, integer_append hw]

/-- The inside of a text literal with its closing quote. A backslash takes the next character with
it, and no line feed stands inside. -/
def stringBody : List Char → Option Cut
  | [] => none
  | '\\' :: cs =>
    match cs with
    | [] => none
    | c :: cs => if c = '\n' then none else extend ['\\', c] (stringBody cs)
  | c :: cs =>
    if c = '\x22' then some ([c], cs)
    else if c = '\n' then none
    else extend [c] (stringBody cs)

theorem stringBody_append {cs lexeme rest : List Char}
    (h : stringBody cs = some (lexeme, rest)) : lexeme ++ rest = cs := by
  fun_induction stringBody cs generalizing lexeme rest with
  | case1 => simp at h
  | case2 => simp at h
  | case3 => simp at h
  | case4 c cs hc ih => exact extend_append (fun _ _ hb => ih hb) h
  | case5 cs hc =>
    simp only [Option.some.injEq, Prod.mk.injEq] at h
    obtain ⟨rfl, rfl⟩ := h
    rfl
  | case6 => simp at h
  | case7 c cs h1 h2 h3 ih => exact extend_append (fun _ _ hb => ih hb) h

def string : List Char → Option Cut
  | '\x22' :: cs => extend ['\x22'] (stringBody cs)
  | _ => none

theorem string_append {cs lexeme rest : List Char} (h : string cs = some (lexeme, rest)) :
    lexeme ++ rest = cs := by
  unfold string at h
  split at h
  · exact extend_append (fun _ _ hd => stringBody_append hd) h
  · simp at h

/-- The inside of a char literal with its closing quote; no line feed stands inside. -/
def charBody : List Char → Option Cut
  | [] => none
  | c :: cs =>
    if c = '\x27' then some ([c], cs)
    else if c = '\n' then none
    else extend [c] (charBody cs)

theorem charBody_append {cs lexeme rest : List Char} (h : charBody cs = some (lexeme, rest)) :
    lexeme ++ rest = cs := by
  fun_induction charBody cs generalizing lexeme rest with
  | case1 => simp at h
  | case2 cs =>
    simp only [Option.some.injEq, Prod.mk.injEq] at h
    obtain ⟨rfl, rfl⟩ := h
    rfl
  | case3 => simp at h
  | case4 c cs h1 h2 ih => exact extend_append (fun _ _ hb => ih hb) h

def char : List Char → Option Cut
  | '\x27' :: cs => extend ['\x27'] (charBody cs)
  | _ => none

theorem char_append {cs lexeme rest : List Char} (h : char cs = some (lexeme, rest)) :
    lexeme ++ rest = cs := by
  unfold char at h
  split at h
  · exact extend_append (fun _ _ hd => charBody_append hd) h
  · simp at h

def matrixWord : List Char := "Matrix".toList

/-- Blanks up to an opening angle bracket. -/
def angle (cs : List Char) : Option Cut :=
  extend (cs.takeWhile Blank.isMatrixBlank) (word ['<'] (cs.dropWhile Blank.isMatrixBlank))

theorem angle_append {cs lexeme rest : List Char} (h : angle cs = some (lexeme, rest)) :
    lexeme ++ rest = cs := by
  rw [extend_append (fun _ _ hd => word_append hd) h, List.takeWhile_append_dropWhile]

def matrixOpen (cs : List Char) : Option Cut :=
  (word matrixWord cs).bind fun (front, rest) => extend front (angle rest)

theorem matrixOpen_append {cs lexeme rest : List Char}
    (h : matrixOpen cs = some (lexeme, rest)) : lexeme ++ rest = cs := by
  obtain ⟨⟨front, tail⟩, hw, hf⟩ := Option.bind_eq_some_iff.1 h
  rw [extend_append (fun _ _ hd => angle_append hd) hf, word_append hw]

def bool (cs : List Char) : Option Cut :=
  (word "true".toList cs).or (word "false".toList cs)

theorem bool_append {cs lexeme rest : List Char} (h : bool cs = some (lexeme, rest)) :
    lexeme ++ rest = cs := by
  rcases Option.or_eq_some_iff.1 h with h | ⟨-, h⟩ <;> exact word_append h

end Scan

/-! ### Lexemes of terminals -/

namespace Terminal

/-- The lexeme of a terminal at the front of a text, and the rest. -/
def scan (t : Terminal) (cs : List Char) : Option Scan.Cut :=
  match t with
  | matrixOpen => Scan.matrixOpen cs
  | bool => Scan.bool cs
  | identifier => Scan.name cs
  | char => Scan.char cs
  | float => Scan.float cs
  | integer => Scan.integer cs
  | string => Scan.string cs
  | t => t.spelling?.bind fun w => Scan.word w.toList cs

theorem scan_append {t : Terminal} {cs lexeme rest : List Char}
    (h : t.scan cs = some (lexeme, rest)) : lexeme ++ rest = cs := by
  have hword : ∀ w : String, Scan.word w.toList cs = some (lexeme, rest) → lexeme ++ rest = cs :=
    fun _ hw => Scan.word_append hw
  cases t with
  | matrixOpen => exact Scan.matrixOpen_append h
  | bool => exact Scan.bool_append h
  | identifier => exact Scan.name_append h
  | char => exact Scan.char_append h
  | float => exact Scan.float_append h
  | integer => exact Scan.integer_append h
  | string => exact Scan.string_append h
  | _ => exact hword _ h

def startsAt (cs : List Char) : Bool := all.any fun t => (t.scan cs).isSome

/-- The acceptable keyword that a word is spelled like, if there is one. -/
def keywordOf? (accepted : List Terminal) (w : List Char) : Option Terminal :=
  accepted.find? fun t => t.isKeyword && t.spelling? == some (String.ofList w)

/-- Whether a terminal is tried on its own: keywords are not where names are acceptable. -/
def isTried (accepted : List Terminal) (t : Terminal) : Bool :=
  accepted.contains t && !(t.isKeyword && accepted.contains identifier)

def resolve (accepted : List Terminal) (t : Terminal) (w : List Char) : Terminal :=
  if t = identifier then (keywordOf? accepted w).getD identifier else t

end Terminal

structure Lexeme where
  terminal : Terminal
  text : List Char
  rest : List Char

/-- The next lexeme among the acceptable terminals. An empty lexeme would be none. -/
def lexeme? (accepted : List Terminal) (cs : List Char) : Option Lexeme :=
  Terminal.all.findSome? fun t =>
    if Terminal.isTried accepted t then
      match t.scan cs with
      | some (w, rest) =>
        if w.isEmpty then none else some ⟨Terminal.resolve accepted t w, w, rest⟩
      | none => none
    else none

theorem lexeme?_eq_some {accepted : List Terminal} {cs : List Char} {l : Lexeme}
    (h : lexeme? accepted cs = some l) :
    ∃ t, Terminal.isTried accepted t = true ∧ t.scan cs = some (l.text, l.rest) ∧
      l.text ≠ [] ∧ l.terminal = Terminal.resolve accepted t l.text := by
  obtain ⟨t, -, ht⟩ := List.exists_of_findSome?_eq_some h
  split at ht
  · rename_i hti
    split at ht
    · rename_i w rest hs
      split at ht
      · simp at ht
      · rename_i hw
        simp only [Option.some.injEq] at ht
        subst ht
        exact ⟨t, hti, hs, by simpa using hw, rfl⟩
    · simp at ht
  · simp at ht

theorem lexeme?_append {accepted : List Terminal} {cs : List Char} {l : Lexeme}
    (h : lexeme? accepted cs = some l) : l.text ++ l.rest = cs := by
  obtain ⟨t, -, hs, -, -⟩ := lexeme?_eq_some h
  exact Terminal.scan_append hs

theorem lexeme?_shorter {accepted : List Terminal} {cs : List Char} {l : Lexeme}
    (h : lexeme? accepted cs = some l) : l.rest.length < cs.length := by
  obtain ⟨t, -, hs, hne, -⟩ := lexeme?_eq_some h
  have hl : 0 < l.text.length := List.length_pos_iff.2 hne
  rw [← Terminal.scan_append hs, List.length_append]
  omega

end ClassLang
