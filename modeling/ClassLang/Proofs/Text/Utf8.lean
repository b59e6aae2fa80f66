import ClassLang.Text.Utf8

/-!
# Decoding is the inverse of encoding

Bytes are decoded exactly if they are the encoding of a text, and then to that text
(`decode_eq_ok`). A byte sequence gives a character exactly if it is the shortest one for it: the
bounds on the second byte exclude longer forms, surrogates and numbers that are too large.
-/

namespace ClassLang.Utf8

/-- The bytes of a text. -/
def encode (cs : List Char) : List UInt8 := cs.flatMap String.utf8EncodeChar

/-! ### Bytes as numbers -/

theorem isContinuation_iff {b : UInt8} :
    isContinuation b = true ↔ 128 ≤ b.toNat ∧ b.toNat < 192 := by
  simp only [isContinuation, Bool.and_eq_true, decide_eq_true_eq, UInt8.le_iff_toNat_le,
    UInt8.lt_iff_toNat_lt]
  exact Iff.rfl

theorem isSecond_iff {lead b : UInt8} :
    isSecond lead b = true ↔ (128 ≤ b.toNat ∧ b.toNat < 192) ∧
      (lead.toNat = 224 → 160 ≤ b.toNat) ∧ (lead.toNat = 237 → b.toNat < 160) ∧
      (lead.toNat = 240 → 144 ≤ b.toNat) ∧ (lead.toNat = 244 → b.toNat < 144) := by
  have hne (n : UInt8) (q : Bool) :
      (lead != n || q) = true ↔ (lead.toNat = n.toNat → q = true) := by
    rw [Bool.or_eq_true, bne_iff_ne, ne_eq, UInt8.toNat_inj, ← Decidable.imp_iff_not_or]
  simp only [isSecond, Bool.and_eq_true, isContinuation_iff, hne, decide_eq_true_eq,
    UInt8.le_iff_toNat_le, UInt8.lt_iff_toNat_lt, and_assoc]
  exact Iff.rfl

theorem toNat_char (c : Char) : c.toNat < 55296 ∨ 57343 < c.toNat ∧ c.toNat < 1114112 := c.valid

/-- The bytes of the character with a number. -/
def bytesOf (n : Nat) : List UInt8 :=
  if n ≤ 127 then [.ofNat n]
  else if n ≤ 2047 then [.ofNat (n / 64 % 32 + 192), .ofNat (n % 64 + 128)]
  else if n ≤ 65535 then
    [.ofNat (n / 4096 % 16 + 224), .ofNat (n / 64 % 64 + 128), .ofNat (n % 64 + 128)]
  else
    [.ofNat (n / 262144 % 8 + 240), .ofNat (n / 4096 % 64 + 128), .ofNat (n / 64 % 64 + 128),
      .ofNat (n % 64 + 128)]

theorem encodeChar_eq (c : Char) : String.utf8EncodeChar c = bytesOf c.toNat := rfl

/-! ### The kinds of sequences -/

/-- The lead of a sequence, the bytes behind it, and the number they stand for: one byte, or a lead
that says how many bytes follow, each with six bits. -/
inductive Sequence : UInt8 → List UInt8 → Nat → Prop
  | one {a : UInt8} (ha : a.toNat < 128) : Sequence a [] a.toNat
  | two {a b : UInt8} (ha : 194 ≤ a.toNat ∧ a.toNat < 224) (hb : isSecond a b = true) :
      Sequence a [b] (a.toNat % 32 * 64 + payload b)
  | three {a b c : UInt8} (ha : 224 ≤ a.toNat ∧ a.toNat < 240) (hb : isSecond a b = true)
      (hc : isContinuation c = true) :
      Sequence a [b, c] ((a.toNat % 16 * 64 + payload b) * 64 + payload c)
  | four {a b c d : UInt8} (ha : 240 ≤ a.toNat ∧ a.toNat < 245) (hb : isSecond a b = true)
      (hc : isContinuation c = true) (hd : isContinuation d = true) :
      Sequence a [b, c, d] (((a.toNat % 8 * 64 + payload b) * 64 + payload c) * 64 + payload d)

theorem Sequence.read {a : UInt8} {bs : List UInt8} {n : Nat} (h : Sequence a bs n)
    (rest : List UInt8) : sequence a (bs ++ rest) = .ok (Char.ofNat n, bs.length) := by
  unfold sequence
  simp only [UInt8.lt_iff_toNat_lt, UInt8.toNat_ofNat, Nat.reducePow, Nat.reduceMod]
  cases h with
  | one ha => rw [if_pos ha, List.length_nil]
  | two ha hb =>
    rw [if_neg (by omega), if_neg (by omega), if_pos (by omega)]
    simp only [List.cons_append, hb, if_true, List.length_cons, List.length_nil]
  | three ha hb hc =>
    rw [if_neg (by omega), if_neg (by omega), if_neg (by omega), if_pos (by omega)]
    simp only [List.cons_append, hb, hc, Bool.not_true, Bool.false_eq_true, if_false,
      List.length_cons, List.length_nil]
  | four ha hb hc hd =>
    rw [if_neg (by omega), if_neg (by omega), if_neg (by omega), if_neg (by omega),
      if_pos (by omega)]
    simp only [List.cons_append, hb, hc, hd, Bool.not_true, Bool.false_eq_true, if_false,
      List.length_cons, List.length_nil]

/-- A character is read from a sequence of one of the kinds. -/
theorem sequence_of_read {a : UInt8} {bs : List UInt8} {c : Char} {extra : Nat}
    (h : sequence a bs = .ok (c, extra)) :
    ∃ more rest n, bs = more ++ rest ∧ more.length = extra ∧ c = Char.ofNat n ∧
      Sequence a more n := by
  unfold sequence at h
  simp only [UInt8.lt_iff_toNat_lt, UInt8.toNat_ofNat, Nat.reducePow, Nat.reduceMod] at h
  split at h
  · cases h
    exact ⟨[], bs, _, rfl, rfl, rfl, .one ‹_›⟩
  split at h
  · cases h
  split at h
  · split at h
    · cases h
    · split at h
      · rename_i b rest hb
        cases h
        exact ⟨[b], rest, _, rfl, rfl, rfl, .two (by omega) hb⟩
      · cases h
  split at h
  · split at h
    · cases h
    · split at h <;> cases h
    · split at h
      · cases h
      rename_i b c rest hb
      split at h
      · cases h
      rename_i hc
      cases h
      simp only [Bool.not_eq_true', Bool.not_eq_false] at hb hc
      exact ⟨[b, c], rest, _, rfl, rfl, rfl, .three (by omega) hb hc⟩
  split at h
  · split at h
    · cases h
    · split at h <;> cases h
    · split at h
      · cases h
      · split at h <;> cases h
    · split at h
      · cases h
      rename_i b c d rest hb
      split at h
      · cases h
      rename_i hc
      split at h
      · cases h
      rename_i hd
      cases h
      simp only [Bool.not_eq_true', Bool.not_eq_false] at hb hc hd
      exact ⟨[b, c, d], rest, _, rfl, rfl, rfl, .four (by omega) hb hc hd⟩
  · cases h

/-! ### Characters and sequences -/

theorem toNat_ofNat {n : Nat} (h : n < 256) : (UInt8.ofNat n).toNat = n := by
  rw [UInt8.toNat_ofNat']
  omega

theorem payload_ofNat {n : Nat} (h : n < 64) : payload (.ofNat (n + 128)) = n := by
  rw [payload, toNat_ofNat (by omega)]
  omega

theorem isContinuation_ofNat {n : Nat} (h : n < 64) : isContinuation (.ofNat (n + 128)) = true := by
  rw [isContinuation_iff, toNat_ofNat (by omega)]
  omega

/-- The bytes of a character are the sequence for its number. -/
theorem sequence_encodeChar (c : Char) :
    ∃ a bs, String.utf8EncodeChar c = a :: bs ∧ Sequence a bs c.toNat := by
  have hvalid := toNat_char c
  generalize hn : c.toNat = n at hvalid
  rw [encodeChar_eq, hn, bytesOf]
  have hlow : n % 64 < 64 := by omega
  have hmid : n / 64 % 64 < 64 := by omega
  have hhigh : n / 4096 % 64 < 64 := by omega
  -- of whatever kind, the sequence must give the number back from the bits in its bytes
  split
  · have hlead : (UInt8.ofNat n).toNat = n := toNat_ofNat (by omega)
    have hone := Sequence.one (a := .ofNat n) (by omega)
    rw [hlead] at hone
    exact ⟨_, _, rfl, hone⟩
  split
  · have hlead : (UInt8.ofNat (n / 64 % 32 + 192)).toNat = n / 64 % 32 + 192 :=
      toNat_ofNat (by omega)
    have htwo := Sequence.two (a := .ofNat (n / 64 % 32 + 192)) (b := .ofNat (n % 64 + 128))
      (by omega) (by rw [isSecond_iff, hlead, toNat_ofNat (by omega)]; omega)
    rw [hlead, payload_ofNat hlow] at htwo
    have hnumber : (n / 64 % 32 + 192) % 32 * 64 + n % 64 = n := by omega
    rw [hnumber] at htwo
    exact ⟨_, _, rfl, htwo⟩
  split
  · have hlead : (UInt8.ofNat (n / 4096 % 16 + 224)).toNat = n / 4096 % 16 + 224 :=
      toNat_ofNat (by omega)
    have hthree := Sequence.three (a := .ofNat (n / 4096 % 16 + 224))
      (b := .ofNat (n / 64 % 64 + 128)) (by omega)
      (by rw [isSecond_iff, hlead, toNat_ofNat (by omega)]; omega) (isContinuation_ofNat hlow)
    rw [hlead, payload_ofNat hlow, payload_ofNat hmid] at hthree
    have hnumber : ((n / 4096 % 16 + 224) % 16 * 64 + n / 64 % 64) * 64 + n % 64 = n := by omega
    rw [hnumber] at hthree
    exact ⟨_, _, rfl, hthree⟩
  · have hlead : (UInt8.ofNat (n / 262144 % 8 + 240)).toNat = n / 262144 % 8 + 240 :=
      toNat_ofNat (by omega)
    have hfour := Sequence.four (a := .ofNat (n / 262144 % 8 + 240))
      (b := .ofNat (n / 4096 % 64 + 128)) (by omega)
      (by rw [isSecond_iff, hlead, toNat_ofNat (by omega)]; omega) (isContinuation_ofNat hmid)
      (isContinuation_ofNat hlow)
    rw [hlead, payload_ofNat hlow, payload_ofNat hmid, payload_ofNat hhigh] at hfour
    have hnumber : (((n / 262144 % 8 + 240) % 8 * 64 + n / 4096 % 64) * 64 + n / 64 % 64) * 64 +
        n % 64 = n := by omega
    rw [hnumber] at hfour
    exact ⟨_, _, rfl, hfour⟩

theorem ofNat_eq {b : UInt8} {n : Nat} (h : b.toNat = n) : UInt8.ofNat n = b := by
  rw [← h, UInt8.ofNat_toNat]

/-- A sequence has a number that a character has, and is the bytes of this character. -/
theorem bytesOf_of_sequence {a : UInt8} {bs : List UInt8} {n : Nat} (h : Sequence a bs n) :
    n.isValidChar ∧ bytesOf n = a :: bs := by
  show (n < 55296 ∨ 57343 < n ∧ n < 1114112) ∧ _
  -- the bounds on the second byte keep out surrogates and numbers that a shorter kind has
  cases h with
  | one ha =>
    refine ⟨by omega, ?_⟩
    rw [bytesOf, if_pos (by omega), UInt8.ofNat_toNat]
  | @two b ha hb =>
    rw [isSecond_iff] at hb
    rw [payload]
    refine ⟨by omega, ?_⟩
    rw [bytesOf, if_neg (by omega), if_pos (by omega), ofNat_eq (b := a) (by omega),
      ofNat_eq (b := b) (by omega)]
  | @three b c ha hb hc =>
    rw [isSecond_iff] at hb
    rw [isContinuation_iff] at hc
    rw [payload, payload]
    refine ⟨by omega, ?_⟩
    rw [bytesOf, if_neg (by omega), if_neg (by omega), if_pos (by omega),
      ofNat_eq (b := a) (by omega), ofNat_eq (b := b) (by omega), ofNat_eq (b := c) (by omega)]
  | @four b c d ha hb hc hd =>
    rw [isSecond_iff] at hb
    rw [isContinuation_iff] at hc hd
    rw [payload, payload, payload]
    refine ⟨by omega, ?_⟩
    rw [bytesOf, if_neg (by omega), if_neg (by omega), if_neg (by omega),
      ofNat_eq (b := a) (by omega), ofNat_eq (b := b) (by omega), ofNat_eq (b := c) (by omega),
      ofNat_eq (b := d) (by omega)]

/-- A sequence is the encoding of the character it is read to. -/
theorem encodeChar_of_sequence {a : UInt8} {bs : List UInt8} {n : Nat} (h : Sequence a bs n) :
    String.utf8EncodeChar (Char.ofNat n) = a :: bs := by
  obtain ⟨hvalid, hbytes⟩ := bytesOf_of_sequence h
  have hnumber : (Char.ofNat n).toNat = n := by
    rw [Char.ofNat, dif_pos hvalid]
    rfl
  rw [encodeChar_eq, hnumber, hbytes]

/-! ### Texts -/

theorem decodeFrom_encode (position : Nat) (cs : List Char) :
    decodeFrom position (encode cs) = .ok cs := by
  induction cs generalizing position with
  | nil => rw [encode, List.flatMap_nil, decodeFrom]
  | cons c cs ih =>
    obtain ⟨a, bs, hencode, hsequence⟩ := sequence_encodeChar c
    have hread := hsequence.read (encode cs)
    rw [Char.ofNat_toNat] at hread
    have hbytes : encode (c :: cs) = a :: (bs ++ encode cs) := by
      rw [encode, List.flatMap_cons, hencode]
      rfl
    rw [hbytes, decodeFrom, hread]
    simp only [List.drop_left, ih]

theorem encode_of_decodeFrom {position : Nat} {bytes : List UInt8} {cs : List Char}
    (h : decodeFrom position bytes = .ok cs) : bytes = encode cs := by
  fun_induction decodeFrom position bytes generalizing cs with
  | case1 => cases h; rfl
  | case2 => cases h
  | case3 => cases h
  | case4 position lead bs c extra hread cs' hrest ih =>
    cases h
    obtain ⟨more, rest, n, rfl, rfl, rfl, hsequence⟩ := sequence_of_read hread
    -- no byte is skipped: the sequence that was read is the only one for its character
    rw [List.drop_left] at hrest ih
    rw [encode, List.flatMap_cons, encodeChar_of_sequence hsequence, List.cons_append, ih hrest]
    rfl

/-- Bytes are decoded to a text exactly if they are its encoding. -/
theorem decode_eq_ok {bytes : List UInt8} {cs : List Char} :
    decode bytes = .ok cs ↔ bytes = encode cs := by
  constructor
  · exact encode_of_decodeFrom
  · rintro rfl
    exact decodeFrom_encode 0 cs

end ClassLang.Utf8
