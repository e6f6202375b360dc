import MediaSplit.Encoding.Utf8

/-!
Encodings in which every byte is a character: ASCII, Latin-1 and the Western code page 1252.
-/

namespace MediaSplit.Encoding

inductive EncodeReason where
  | notAscii
  | notLatin1
  | undefinedChar
  deriving DecidableEq, Repr

structure RefusedChars where
  start : Nat
  chars : List Char
  reason : EncodeReason
  deriving DecidableEq, Repr

namespace SingleByte

/-- The characters that code page 1252 has for the bytes from 0x80 to 0x9F; five of these bytes
stand for none. -/
def windowsHigh : List (Option Nat) :=
  [some 0x20AC, none, some 0x201A, some 0x192, some 0x201E, some 0x2026, some 0x2020, some 0x2021,
    some 0x2C6, some 0x2030, some 0x160, some 0x2039, some 0x152, none, some 0x17D, none,
    none, some 0x2018, some 0x2019, some 0x201C, some 0x201D, some 0x2022, some 0x2013, some 0x2014,
    some 0x2DC, some 0x2122, some 0x161, some 0x203A, some 0x153, none, some 0x17E, some 0x178]

def windowsChar? (b : UInt8) : Option Char :=
  if 0x80 ≤ b ∧ b < 0xA0 then (windowsHigh.getD (b.toNat - 0x80) none).map Char.ofNat
  else some (Char.ofNat b.toNat)

def windowsByte? (c : Char) : Option UInt8 :=
  if c.toNat < 0x80 ∨ (0xA0 ≤ c.toNat ∧ c.toNat < 0x100) then some (UInt8.ofNat c.toNat)
  else (windowsHigh.idxOf? (some c.toNat)).map fun i => UInt8.ofNat (0x80 + i)

def asciiChar? (b : UInt8) : Option Char :=
  if b < 0x80 then some (Char.ofNat b.toNat) else none

def byteBelow? (limit : Nat) (c : Char) : Option UInt8 :=
  if c.toNat < limit then some (UInt8.ofNat c.toNat) else none

def decode (char? : UInt8 → Option Char) (reason : DecodeReason) (start : Nat) :
    List UInt8 → Except RefusedBytes (List Char)
  | [] => .ok []
  | b :: bs =>
      match char? b with
      | none => .error ⟨start, 1, reason⟩
      | some c => do
          let text ← decode char? reason (start + 1) bs
          .ok (c :: text)

def encode (byte? : Char → Option UInt8) (reason : EncodeReason) (start : Nat) :
    List Char → Except RefusedChars (List UInt8)
  | [] => .ok []
  | c :: cs =>
      match byte? c with
      | none => .error ⟨start, (c :: cs).takeWhile fun d => (byte? d).isNone, reason⟩
      | some b => do
          let bytes ← encode byte? reason (start + 1) cs
          .ok (b :: bytes)

end SingleByte

end MediaSplit.Encoding
