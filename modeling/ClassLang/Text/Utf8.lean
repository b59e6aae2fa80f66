import ClassLang.Text.Quoted

/-!
# Reading UTF-8

`decode` turns bytes into characters or names the first fault: where it starts, how many bytes it
covers and why they are no encoded character. Overlong forms, surrogates and numbers beyond
U+10FFFF are excluded by the second byte of a sequence.
-/

namespace ClassLang.Utf8

inductive Reason where
  | startByte
  | continuationByte
  | endOfData
  deriving DecidableEq, Repr

def Reason.text : Reason → String
  | .startByte => "invalid start byte"
  | .continuationByte => "invalid continuation byte"
  | .endOfData => "unexpected end of data"

/-- The first stretch of bytes that cannot be read; `byte` is the first of them. -/
structure Fault where
  byte : UInt8
  position : Nat
  length : Nat
  reason : Reason
  deriving DecidableEq, Repr

def Fault.text (f : Fault) : String :=
  let place :=
    if f.length = 1 then
      "byte 0x" ++ String.ofList (Quoted.hex 2 f.byte.toNat) ++ s!" in position {f.position}"
    else s!"bytes in position {f.position}-{f.position + f.length - 1}"
  "'utf-8' codec can't decode " ++ place ++ ": " ++ f.reason.text

def isContinuation (b : UInt8) : Bool := 0x80 ≤ b && b < 0xc0

/-- Whether a byte may follow this leading byte. -/
def isSecond (lead b : UInt8) : Bool :=
  isContinuation b && (lead != 0xe0 || 0xa0 ≤ b) && (lead != 0xed || b < 0xa0) &&
    (lead != 0xf0 || 0x90 ≤ b) && (lead != 0xf4 || b < 0x90)

/-- The low six bits of a continuation byte. -/
def payload (b : UInt8) : Nat := b.toNat % 64

/-- The character that starts with a byte and the number of further bytes it takes, or the reason
and the length of the fault. -/
def sequence (lead : UInt8) (bs : List UInt8) : Except (Reason × Nat) (Char × Nat) :=
  if lead < 0x80 then .ok (Char.ofNat lead.toNat, 0)
  else if lead < 0xc2 then .error (.startByte, 1)
  else if lead < 0xe0 then
    match bs with
    | [] => .error (.endOfData, 1)
    | b :: _ =>
      if isSecond lead b then .ok (Char.ofNat (lead.toNat % 32 * 64 + payload b), 1)
      else .error (.continuationByte, 1)
  else if lead < 0xf0 then
    match bs with
    | [] => .error (.endOfData, 1)
    | [b] => if isSecond lead b then .error (.endOfData, 2) else .error (.continuationByte, 1)
    | b :: c :: _ =>
      if !isSecond lead b then .error (.continuationByte, 1)
      else if !isContinuation c then .error (.continuationByte, 2)
      else .ok (Char.ofNat ((lead.toNat % 16 * 64 + payload b) * 64 + payload c), 2)
  else if lead < 0xf5 then
    match bs with
    | [] => .error (.endOfData, 1)
    | [b] => if isSecond lead b then .error (.endOfData, 2) else .error (.continuationByte, 1)
    | [b, c] =>
      if !isSecond lead b then .error (.continuationByte, 1)
      else if !isContinuation c then .error (.continuationByte, 2)
      else .error (.endOfData, 3)
    | b :: c :: d :: _ =>
      if !isSecond lead b then .error (.continuationByte, 1)
      else if !isContinuation c then .error (.continuationByte, 2)
      else if !isContinuation d then .error (.continuationByte, 3)
      else
        .ok (Char.ofNat (((lead.toNat % 8 * 64 + payload b) * 64 + payload c) * 64 + payload d), 3)
  else .error (.startByte, 1)

/-- Reads bytes of which the first stands at the given position of the file. -/
def decodeFrom (position : Nat) : List UInt8 → Except Fault (List Char)
  | [] => .ok []
  | lead :: bs =>
    match sequence lead bs with
    | .error (reason, length) => .error ⟨lead, position, length, reason⟩
    | .ok (c, extra) =>
      match decodeFrom (position + 1 + extra) (bs.drop extra) with
      | .error fault => .error fault
      | .ok cs => .ok (c :: cs)
  termination_by bs => bs.length
  decreasing_by
    simp only [List.length_drop, List.length_cons]
    omega

def decode (bs : List UInt8) : Except Fault (List Char) := decodeFrom 0 bs

end ClassLang.Utf8
