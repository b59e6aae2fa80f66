import ClassLang.Proofs.Syntax.Laid

/-!
# Where a lexeme ends

A lexeme is read up to a character that cannot carry it on. Which characters those are depends on
the terminals that are looked for: a keyword is taken as the front of a longer word where no name
is. Main statements: the next lexeme ends at such a character (`lexeme?_parted_off`), and a lexeme
in front of one is the next lexeme (`lexeme?_of_parted`).
-/

namespace ClassLang

namespace Terminal

/-- Whether a character would carry on a lexeme among some terminals. -/
def carriesOn (accepted : List Terminal) (t : Terminal) (c : Char) : Bool :=
  match t with
  | identifier => Ascii.isNameChar c
  | kwClass | kwStatic | kwConst | kwMeta | kwNullptr =>
    accepted.contains identifier && Ascii.isNameChar c
  | float | integer => Ascii.isDigit c
  | star => accepted.contains doubleStar && c = '*'
  | colon => accepted.contains doubleColon && c = ':'
  | _ => false

/-- Whether a lexeme is a word, which could be the front of the opening of a matrix. -/
def isWord (t : Terminal) : Bool := t = identifier || t.isKeyword

/-- Whether a lexeme ends before a text. -/
structure Parted (accepted : List Terminal) (t : Terminal) (rest : List Char) : Prop where
  carries : startsWith (carriesOn accepted t) rest = false
  point : startsWith (· = '.') rest = false
  angle : t.isWord = true → Scan.angle rest = none

/-! ### The next lexeme is parted off -/

theorem startsWith_dropWhile (p : Char → Bool) (cs : List Char) :
    startsWith p (cs.dropWhile p) = false := by
  induction cs with
  | nil => rfl
  | cons c cs ih =>
    by_cases hc : p c = true
    · rw [List.dropWhile_cons_of_pos hc]
      exact ih
    · rw [List.dropWhile_cons_of_neg hc]
      exact Bool.not_eq_true _ ▸ hc

theorem startsWith_false (rest : List Char) : startsWith (fun _ => false) rest = false := by
  cases rest <;> rfl

theorem startsWith_and {p : Char → Bool} {rest : List Char} (b : Bool)
    (h : b = true → startsWith p rest = false) : startsWith (fun c => b && p c) rest = false := by
  cases b with
  | false => exact startsWith_false rest
  | true => exact h rfl

theorem name_parted_off {cs w rest : List Char} (h : Scan.name cs = some (w, rest)) :
    startsWith Ascii.isNameChar rest = false := by
  unfold Scan.name at h
  split at h
  · cases h
  · split at h
    · obtain ⟨-, rfl⟩ := Prod.mk.inj (Option.some.inj h)
      exact startsWith_dropWhile _ _
    · cases h

theorem digits_parted_off {cs w rest : List Char} (h : Scan.digits cs = some (w, rest)) :
    startsWith Ascii.isDigit rest = false := by
  unfold Scan.digits at h
  split at h
  · cases h
  · obtain ⟨-, rfl⟩ := Prod.mk.inj (Option.some.inj h)
    exact startsWith_dropWhile _ _

theorem integer_parted_off {cs w rest : List Char} (h : Scan.integer cs = some (w, rest)) :
    startsWith Ascii.isDigit rest = false := by
  unfold Scan.integer at h
  split at h
  · obtain ⟨v, hv, -⟩ := Scan.extend_eq_some h
    exact digits_parted_off hv
  · exact digits_parted_off h

theorem float_parted_off {cs w rest : List Char} (h : Scan.float cs = some (w, rest)) :
    startsWith Ascii.isDigit rest = false := by
  obtain ⟨⟨whole, tail⟩, -, hf⟩ := Option.bind_eq_some_iff.1 h
  obtain ⟨v, hv, -⟩ := Scan.extend_eq_some hf
  unfold Scan.fraction at hv
  split at hv
  · obtain ⟨u, hu, -⟩ := Scan.extend_eq_some hv
    exact digits_parted_off hu
  · cases hv

variable {accepted : List Terminal} {t : Terminal} {w rest : List Char}

theorem lexeme?_of_first {c : Char} {cs : List Char} {us : List Terminal} {l : Lexeme}
    (hc : starters c = t :: us) (ht : attempt? accepted (c :: cs) t = some l) :
    lexeme? accepted (c :: cs) = some l := by
  have hsplit : starters c = [] ++ t :: us := hc
  exact lexeme?_of_attempt? hsplit nofun ht

/-- Where the doubled form of a sign is looked for, it is read before the single one. -/
theorem sign_parted_off {c : Char} {u : Terminal} (hu : u.isKeyword = false) (hi : u ≠ identifier)
    (hs : ∀ cs, u.scan cs = Scan.word [c, c] cs) (hc : starters c = [u, t]) (hne : u ≠ t)
    {l : Lexeme} (h : lexeme? accepted (c :: rest) = some l) (hl : l.terminal = t)
    (ha : u ∈ accepted) : startsWith (· = c) rest = false := by
  cases rest with
  | nil => rfl
  | cons d ds =>
    refine decide_eq_false ?_
    rintro rfl
    have hscan : u.scan (d :: d :: ds) = some ([d, d], ds) := by
      rw [hs]
      exact Scan.word_delimited (w := [d, d])
    have hattempt :=
      attempt?_of_scan (isTried_of_not_isKeyword ha hu) (List.cons_ne_nil d [d]) hscan
    rw [lexeme?_of_first hc hattempt] at h
    obtain rfl := Option.some.inj h
    rw [resolve, if_neg hi] at hl
    exact hne hl

theorem resolve_identifier {k : Terminal} (h : resolve accepted identifier w = k) :
    k = identifier ∨ k.isKeyword = true := by
  rw [resolve, if_pos rfl] at h
  cases hk : keywordOf? accepted w with
  | none =>
    rw [hk, Option.getD_none] at h
    exact Or.inl h.symm
  | some k' =>
    rw [hk, Option.getD_some] at h
    have hf := List.find?_some hk
    simp only [Bool.and_eq_true] at hf
    exact Or.inr (h ▸ hf.1)

theorem carriesOn_of_isKeyword (ht : t.isKeyword = true) :
    carriesOn accepted t = fun c => accepted.contains identifier && Ascii.isNameChar c := by
  cases t <;> first | rfl | cases ht

theorem carriesOn_word (hi : identifier ∈ accepted) (ht : t = identifier ∨ t.isKeyword = true) :
    carriesOn accepted t = Ascii.isNameChar := by
  rcases ht with rfl | ht
  · rfl
  · rw [carriesOn_of_isKeyword ht, List.contains_iff_mem.2 hi]
    simp only [Bool.true_and]

theorem carriesOn_keyword (hi : identifier ∉ accepted) (ht : t.isKeyword = true) :
    carriesOn accepted t = fun _ => false := by
  have hc : accepted.contains identifier = false := by simpa using hi
  rw [carriesOn_of_isKeyword ht, hc]
  simp only [Bool.false_and]

/-- The next lexeme ends before a character that cannot carry it on. -/
theorem lexeme?_parted_off {cs : List Char} {l : Lexeme} (h : lexeme? accepted cs = some l) :
    startsWith (carriesOn accepted l.terminal) l.rest = false := by
  obtain ⟨k, hk, hs, hne, ht⟩ := lexeme?_eq_some h
  have happend := lexeme?_append h
  have hmem : k ∈ accepted := by
    simp only [isTried, Bool.and_eq_true] at hk
    exact List.contains_iff_mem.1 hk.1
  by_cases hi : k = identifier
  · subst hi
    rw [carriesOn_word hmem (resolve_identifier ht.symm)]
    exact name_parted_off hs
  · rw [resolve, if_neg hi] at ht
    rw [ht]
    cases hkey : k.isKeyword with
    | true =>
      have hout : identifier ∉ accepted := by
        intro hin
        rw [isTried_of_isKeyword hin hkey] at hk
        cases hk
      rw [carriesOn_keyword hout hkey]
      exact startsWith_false _
    | false =>
      cases k with
      | identifier => exact absurd rfl hi
      | float => exact float_parted_off hs
      | integer => exact integer_parted_off hs
      | star =>
        refine startsWith_and _ fun ha => ?_
        have hw : l.text = ['*'] := eq_spelling (scan_matches hs) rfl
        rw [← happend, hw] at h
        exact sign_parted_off (u := doubleStar) rfl (by decide) (fun _ => rfl) rfl (by decide) h ht
          (List.contains_iff_mem.1 ha)
      | colon =>
        refine startsWith_and _ fun ha => ?_
        have hw : l.text = [':'] := eq_spelling (scan_matches hs) rfl
        rw [← happend, hw] at h
        exact sign_parted_off (u := doubleColon) rfl (by decide) (fun _ => rfl) rfl (by decide) h ht
          (List.contains_iff_mem.1 ha)
      | _ => first | exact startsWith_false _ | cases hkey

/-! ### A parted lexeme is the next one -/

theorem scan_of_isKeyword {s : String} (hk : t.isKeyword = true) (hs : t.spelling? = some s)
    (cs : List Char) : t.scan cs = Scan.word s.toList cs := by
  have hscan : ∀ u, t.spelling? = some u → t.scan cs = Scan.word u.toList cs := by
    cases t <;> first | exact fun _ h => Option.some.inj h ▸ rfl | cases hk
  exact hscan s hs

/-- A keyword is taken as the front of a longer word where no name is looked for. -/
theorem lexeme?_of_keyword_front (ha : t ∈ accepted) (hi : identifier ∉ accepted)
    (hk : t.isKeyword = true) (hm : t.Matches w) :
    lexeme? accepted (w ++ rest) = some ⟨t, w, rest⟩ := by
  obtain ⟨s, hs, -⟩ := isKeyword_spelling hk
  obtain rfl := eq_spelling hm hs
  obtain ⟨c, v, ts, us, hw, hc, hn⟩ := isKeyword_starters hk hs rest
  have hne : t ≠ identifier := by
    rintro rfl
    cases hk
  have hscan : t.scan (s.toList ++ rest) = some (s.toList, rest) := by
    rw [scan_of_isKeyword hk hs]
    exact Scan.word_delimited
  rw [hw] at hscan ⊢
  have hattempt :=
    attempt?_of_scan (isTried_of_identifier_not_mem ha hi) (List.cons_ne_nil c v) hscan
  rw [resolve, if_neg hne] at hattempt
  exact lexeme?_of_attempt? hc (fun k hk => attempt?_of_scan_none (hn k hk)) hattempt

/-- A single sign is read where its doubled form is not looked for. -/
theorem lexeme?_of_sign {c : Char} {u : Terminal} (ha : t ∈ accepted) (hu : u ∉ accepted)
    (hk : t.isKeyword = false) (hi : t ≠ identifier) (hc : starters c = [u, t])
    (hs : ∀ cs, t.scan cs = Scan.word [c] cs) :
    lexeme? accepted ([c] ++ rest) = some ⟨t, [c], rest⟩ := by
  have hscan : t.scan ([c] ++ rest) = some ([c], rest) := by
    rw [hs]
    exact Scan.word_delimited
  have htried : isTried accepted u = false := by
    rw [isTried, show accepted.contains u = false by simpa using hu, Bool.false_and]
  have hattempt := attempt?_of_scan (isTried_of_not_isKeyword ha hk) (List.cons_ne_nil c []) hscan
  rw [resolve, if_neg hi] at hattempt
  have hsplit : starters c = [u] ++ t :: [] := hc
  refine lexeme?_of_attempt? hsplit ?_ hattempt
  intro k hk
  obtain rfl := List.mem_singleton.1 hk
  exact attempt?_of_not_isTried htried

/-- A lexeme of an acceptable terminal that is parted off is the next one, if it is no name that is
mistaken for a keyword. -/
theorem lexeme?_of_parted (ha : t ∈ accepted) (hm : t.Matches w) (hp : Parted accepted t rest)
    (hb : identifier ∈ accepted → bool ∉ accepted)
    (hn : t = identifier → ¬Mistaken accepted (String.ofList w)) :
    lexeme? accepted (w ++ rest) = some ⟨t, w, rest⟩ := by
  obtain ⟨hcarries, hpoint, hangle⟩ := hp
  cases hk : t.isKeyword with
  | true =>
    by_cases hi : identifier ∈ accepted
    · rw [carriesOn_word hi (Or.inr hk)] at hcarries
      have hend : startsWith Ascii.isNameChar rest = false ∧ Scan.angle rest = none :=
        ⟨hcarries, hangle (by rw [isWord, hk, Bool.or_true])⟩
      have he : t.EndsBefore rest := by
        cases t <;> first | exact hend | cases hk
      exact lexeme?_delimited ha hm he hb hn
    · exact lexeme?_of_keyword_front ha hi hk hm
  | false =>
    cases t with
    | identifier => exact lexeme?_delimited ha hm ⟨hcarries, hangle rfl⟩ hb hn
    | bool =>
      have hscan : bool.scan (w ++ rest) = some (w, rest) := Scan.bool_delimited hm
      have htried : isTried accepted bool = true := isTried_of_not_isKeyword ha rfl
      rcases hm with rfl | rfl
      · exact lexeme?_of_first rfl (attempt?_of_scan htried nofun hscan)
      · exact lexeme?_of_first rfl (attempt?_of_scan htried nofun hscan)
    | float => exact lexeme?_delimited ha hm hcarries hb hn
    | integer => exact lexeme?_delimited ha hm ⟨hcarries, hpoint⟩ hb hn
    | star =>
      by_cases hd : doubleStar ∈ accepted
      · have he : startsWith (· = '*') rest = false := by
          change startsWith (fun c => accepted.contains doubleStar && c = '*') rest = false
            at hcarries
          simpa only [List.contains_iff_mem.2 hd, Bool.true_and] using hcarries
        exact lexeme?_delimited ha hm he hb hn
      · obtain rfl := eq_spelling hm rfl
        exact lexeme?_of_sign ha hd rfl nofun rfl fun _ => rfl
    | colon =>
      by_cases hd : doubleColon ∈ accepted
      · have he : startsWith (· = ':') rest = false := by
          change startsWith (fun c => accepted.contains doubleColon && c = ':') rest = false
            at hcarries
          simpa only [List.contains_iff_mem.2 hd, Bool.true_and] using hcarries
        exact lexeme?_delimited ha hm he hb hn
      · obtain rfl := eq_spelling hm rfl
        exact lexeme?_of_sign ha hd rfl nofun rfl fun _ => rfl
    | _ => first | exact lexeme?_delimited ha hm trivial hb hn | cases hk

end Terminal

end ClassLang
