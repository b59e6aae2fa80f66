import ClassLang.Text.Blank

/-!
# Layout

Blanks and comments may stand between any two tokens. A line comment runs to the end of its line
and a block comment to the first closing mark; a block comment that is never closed is no layout.
`Layout.split` cuts a text into its leading layout and the rest, and loses nothing of it.
-/

namespace ClassLang.Layout

/-- The inside of a block comment up to its closing mark, and what follows it. -/
def blockComment? : List Char → Option (List Char × List Char)
  | [] => none
  | '*' :: '/' :: cs => some (['*', '/'], cs)
  | c :: cs => (blockComment? cs).map fun (inside, rest) => (c :: inside, rest)

theorem blockComment?_append {cs inside rest : List Char}
    (h : blockComment? cs = some (inside, rest)) : inside ++ rest = cs := by
  fun_induction blockComment? cs generalizing inside rest with
  | case1 => simp at h
  | case2 cs =>
    simp only [Option.some.injEq, Prod.mk.injEq] at h
    obtain ⟨rfl, rfl⟩ := h
    rfl
  | case3 c cs hc ih =>
    obtain ⟨⟨inner, after⟩, hi, he⟩ := Option.map_eq_some_iff.1 h
    simp only [Prod.mk.injEq] at he
    obtain ⟨rfl, rfl⟩ := he
    rw [List.cons_append, ih hi]

/-- One piece of layout at the front of a text, and what follows it. -/
def piece? : List Char → Option (List Char × List Char)
  | '/' :: '/' :: cs =>
    some ('/' :: '/' :: cs.takeWhile (· ≠ '\n'), cs.dropWhile (· ≠ '\n'))
  | '/' :: '*' :: cs =>
    (blockComment? cs).map fun (inside, rest) => ('/' :: '*' :: inside, rest)
  | c :: cs => if Blank.isLayout c then some ([c], cs) else none
  | [] => none

theorem piece?_append {cs piece rest : List Char} (h : piece? cs = some (piece, rest)) :
    piece ++ rest = cs := by
  unfold piece? at h
  split at h
  · simp only [Option.some.injEq, Prod.mk.injEq] at h
    obtain ⟨rfl, rfl⟩ := h
    simp only [List.cons_append, List.takeWhile_append_dropWhile]
  · obtain ⟨⟨inner, after⟩, hi, he⟩ := Option.map_eq_some_iff.1 h
    simp only [Prod.mk.injEq] at he
    obtain ⟨rfl, rfl⟩ := he
    simp only [List.cons_append, blockComment?_append hi]
  · split at h
    · simp only [Option.some.injEq, Prod.mk.injEq] at h
      obtain ⟨rfl, rfl⟩ := h
      rfl
    · simp at h
  · simp at h

theorem piece?_ne_nil {cs piece rest : List Char} (h : piece? cs = some (piece, rest)) :
    piece ≠ [] := by
  unfold piece? at h
  split at h
  · simp only [Option.some.injEq, Prod.mk.injEq] at h
    obtain ⟨rfl, -⟩ := h
    simp
  · obtain ⟨⟨inner, after⟩, -, he⟩ := Option.map_eq_some_iff.1 h
    simp only [Prod.mk.injEq] at he
    obtain ⟨rfl, -⟩ := he
    simp
  · split at h
    · simp only [Option.some.injEq, Prod.mk.injEq] at h
      obtain ⟨rfl, -⟩ := h
      simp
    · simp at h
  · simp at h

theorem piece?_shorter {cs piece rest : List Char} (h : piece? cs = some (piece, rest)) :
    rest.length < cs.length := by
  have hl : 0 < piece.length := List.length_pos_iff.2 (piece?_ne_nil h)
  rw [← piece?_append h, List.length_append]
  omega

/-- The layout at the front of a text, and the rest. -/
def split (cs : List Char) : List Char × List Char :=
  match _hp : piece? cs with
  | none => ([], cs)
  | some (piece, rest) =>
    let (more, rest') := split rest
    (piece ++ more, rest')
  termination_by cs.length
  decreasing_by exact piece?_shorter _hp

theorem split_of_none {cs : List Char} (h : piece? cs = none) : split cs = ([], cs) := by
  rw [split]
  split
  · rfl
  · simp_all

theorem split_of_some {cs piece rest : List Char} (h : piece? cs = some (piece, rest)) :
    split cs = (piece ++ (split rest).1, (split rest).2) := by
  rw [split]
  split
  · simp_all
  · rename_i p r hp
    simp only [h, Option.some.injEq, Prod.mk.injEq] at hp
    obtain ⟨rfl, rfl⟩ := hp
    rfl

theorem split_append (cs : List Char) : (split cs).1 ++ (split cs).2 = cs := by
  cases h : piece? cs with
  | none => rw [split_of_none h, List.nil_append]
  | some pr =>
    obtain ⟨piece, rest⟩ := pr
    have := piece?_shorter h
    rw [split_of_some h, List.append_assoc, split_append rest, piece?_append h]
  termination_by cs.length

/-- What follows the layout does not start with layout. -/
theorem piece?_split (cs : List Char) : piece? (split cs).2 = none := by
  cases h : piece? cs with
  | none => rw [split_of_none h, h]
  | some pr =>
    obtain ⟨piece, rest⟩ := pr
    have := piece?_shorter h
    rw [split_of_some h]
    exact piece?_split rest
  termination_by cs.length

theorem split_length_le (cs : List Char) : (split cs).2.length ≤ cs.length := by
  have h := congrArg List.length (split_append cs)
  rw [List.length_append] at h
  omega

/-! ### Removing comments -/

/-- A text in which each comment is replaced by one space. -/
def withoutComments (cs : List Char) : List Char :=
  match cs with
  | [] => []
  | c :: rest =>
    if c = '/' then
      match _hp : piece? (c :: rest) with
      | none => c :: withoutComments rest
      | some (_, after) => ' ' :: withoutComments after
    else c :: withoutComments rest
  termination_by cs.length
  decreasing_by
    · simp only [List.length_cons]
      omega
    · exact piece?_shorter _hp
    · simp only [List.length_cons]
      omega

/-- The words of a text without its comments, joined by single spaces. -/
def collapse (cs : List Char) : List Char :=
  [' '].intercalate (Blank.words (withoutComments cs))

end ClassLang.Layout
