/-!
# Line ends

A text file may end its lines with a line feed, a carriage return or both in this order. Reading
turns each of them into one line feed, after which no carriage return is left.
-/

namespace ClassLang.Newline

def normalize : List Char → List Char
  | [] => []
  | '\r' :: '\n' :: cs => '\n' :: normalize cs
  | c :: cs => (if c = '\r' then '\n' else c) :: normalize cs

theorem normalize_of_not_mem {cs : List Char} (h : '\r' ∉ cs) : normalize cs = cs := by
  fun_induction normalize cs with
  | case1 => rfl
  | case2 cs ih => simp at h
  | case3 c cs hc ih =>
    simp only [List.mem_cons, not_or] at h
    rw [ih h.2, if_neg (fun e => h.1 e.symm)]

theorem not_mem_normalize (cs : List Char) : '\r' ∉ normalize cs := by
  fun_induction normalize cs with
  | case1 => simp
  | case2 cs ih =>
    simp only [List.mem_cons, not_or]
    exact ⟨by decide, ih⟩
  | case3 c cs hc ih =>
    simp only [List.mem_cons, not_or]
    refine ⟨?_, ih⟩
    split
    · decide
    · rename_i h
      exact fun e => h e.symm

end ClassLang.Newline
