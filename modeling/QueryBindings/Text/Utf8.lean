import QueryBindings.Decimal.Integer
/-!
Reading bytes as UTF-8.

A character takes one to four bytes; overlong forms, surrogates and codes above U+10FFFF are
refused. When the bytes are no text, the fault tells where the first byte of the bad character is
and how many bytes of it could still have started a character, or that the bytes end too early.
-/
namespace QueryBindings.Text

/-- The first place where bytes are no UTF-8; without a length the bytes end inside a character. -/
structure Utf8Fault where
  index : Nat
  length? : Option Nat
deriving DecidableEq

/-- How the first byte of a character goes on: the number of further bytes, the bits of the code
that it holds, and the range of the second byte. -/
structure LeadByte where
  more : Nat
  bits : Nat
  low : Nat
  high : Nat

def leadByte? (b : Nat) : Option LeadByte :=
  if b < 0x80 then some ⟨0, b, 0, 0⟩
  else if b < 0xC2 then none
  else if b < 0xE0 then some ⟨1, b - 0xC0, 0x80, 0xBF⟩
  else if b = 0xE0 then some ⟨2, 0, 0xA0, 0xBF⟩
  else if b = 0xED then some ⟨2, 0xD, 0x80, 0x9F⟩
  else if b < 0xF0 then some ⟨2, b - 0xE0, 0x80, 0xBF⟩
  else if b = 0xF0 then some ⟨3, 0, 0x90, 0xBF⟩
  else if b < 0xF4 then some ⟨3, b - 0xF0, 0x80, 0xBF⟩
  else if b = 0xF4 then some ⟨3, 4, 0x80, 0x8F⟩
  else none

structure PartialChar where
  start : Nat
  read : Nat
  code : Nat
  more : Nat
  low : Nat
  high : Nat

/-- Reads the bytes from a given index on; `open?` is the character that is not complete yet. -/
def decodeFrom (index : Nat) (open? : Option PartialChar) :
    List UInt8 → Except Utf8Fault (List Char)
  | [] => match open? with
    | none => .ok []
    | some p => .error ⟨p.start, none⟩
  | byte :: rest =>
    let b := byte.toNat
    match open? with
    | none => match leadByte? b with
      | none => .error ⟨index, some 1⟩
      | some lead =>
        if lead.more = 0 then do
          let cs ← decodeFrom (index + 1) none rest
          return Char.ofNat lead.bits :: cs
        else
          decodeFrom (index + 1) (some ⟨index, 1, lead.bits, lead.more, lead.low, lead.high⟩) rest
    | some p =>
      if p.low ≤ b ∧ b ≤ p.high then
        let code := 64 * p.code + (b - 0x80)
        if p.more = 1 then do
          let cs ← decodeFrom (index + 1) none rest
          return Char.ofNat code :: cs
        else decodeFrom (index + 1) (some ⟨p.start, p.read + 1, code, p.more - 1, 0x80, 0xBF⟩) rest
      else .error ⟨p.start, some p.read⟩

def decodeUtf8 (bytes : List UInt8) : Except Utf8Fault String :=
  (decodeFrom 0 none bytes).map String.ofList

def Utf8Fault.message (fault : Utf8Fault) : String :=
  match fault.length? with
  | some n =>
    "invalid utf-8 sequence of " ++ Decimal.natural n ++ " bytes from index " ++
      Decimal.natural fault.index
  | none => "incomplete utf-8 byte sequence from index " ++ Decimal.natural fault.index

end QueryBindings.Text
