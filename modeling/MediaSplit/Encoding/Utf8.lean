/-!
UTF-8, with the exact span of bytes that is refused.
-/

namespace MediaSplit.Encoding

inductive DecodeReason where
  | invalidStart
  | invalidContinuation
  | unexpectedEnd
  | truncatedUnit
  | loneLowSurrogate
  | unpairedSurrogate
  | notAscii
  | undefinedByte
  deriving DecidableEq, Repr

structure RefusedBytes where
  start : Nat
  count : Nat
  reason : DecodeReason
  deriving DecidableEq, Repr

namespace Utf8

def encodeChar (c : Char) : List UInt8 :=
  let n := c.toNat
  let tail (shift : Nat) : UInt8 := UInt8.ofNat (0x80 + n / shift % 0x40)
  if n < 0x80 then [UInt8.ofNat n]
  else if n < 0x800 then [UInt8.ofNat (0xC0 + n / 0x40), tail 1]
  else if n < 0x10000 then [UInt8.ofNat (0xE0 + n / 0x1000), tail 0x40, tail 1]
  else [UInt8.ofNat (0xF0 + n / 0x40000), tail 0x1000, tail 0x40, tail 1]

def encode (text : List Char) : List UInt8 :=
  text.flatMap encodeChar

/-- The characters of a text that lie within a number of bytes. One that lies there only in part
is replaced. -/
def within : Nat → List Char → List Char
  | _, [] => []
  | 0, _ => []
  | room, c :: cs =>
      let size := (encodeChar c).length
      if size ≤ room then c :: within (room - size) cs else ['\uFFFD']

/-- What a leading byte announces: its share of the code point, how many bytes follow, and the
least and the greatest value of the first of them. The bounds leave out overlong forms,
surrogates and numbers that are no code points. -/
structure Lead where
  share : Nat
  following : Nat
  least : Nat
  greatest : Nat

def lead? (b : Nat) : Option Lead :=
  if b < 0xC2 then none
  else if b < 0xE0 then some ⟨b - 0xC0, 1, 0x80, 0xBF⟩
  else if b < 0xF0 then
    some ⟨b - 0xE0, 2, if b = 0xE0 then 0xA0 else 0x80, if b = 0xED then 0x9F else 0xBF⟩
  else if b < 0xF5 then
    some ⟨b - 0xF0, 3, if b = 0xF0 then 0x90 else 0x80, if b = 0xF4 then 0x8F else 0xBF⟩
  else none

/-- Reads up to `limit` bytes that continue a character, the first of them within the given
bounds. Gives their number, the code point so far and the rest. -/
def continuation (share : Nat) (least greatest : Nat) :
    Nat → List UInt8 → Nat × Nat × List UInt8
  | 0, bs => (0, share, bs)
  | _ + 1, [] => (0, share, [])
  | limit + 1, b :: bs =>
      if least ≤ b.toNat ∧ b.toNat ≤ greatest then
        let (count, codePoint, rest) :=
          continuation (0x40 * share + (b.toNat - 0x80)) 0x80 0xBF limit bs
        (count + 1, codePoint, rest)
      else (0, share, b :: bs)

theorem continuation_length_le (share least greatest limit : Nat) (bs : List UInt8) :
    (continuation share least greatest limit bs).2.2.length ≤ bs.length := by
  induction limit generalizing share least greatest bs with
  | zero => simp [continuation]
  | succ limit ih =>
      cases bs with
      | nil => simp [continuation]
      | cons b bs =>
          have h := ih (0x40 * share + (b.toNat - 0x80)) 0x80 0xBF bs
          simp only [continuation]
          split
          · exact Nat.le_succ_of_le h
          · exact Nat.le_refl _

def decodeFrom (start : Nat) : List UInt8 → Except RefusedBytes (List Char)
  | [] => .ok []
  | b :: bs =>
      if b.toNat < 0x80 then do
        let text ← decodeFrom (start + 1) bs
        .ok (Char.ofNat b.toNat :: text)
      else
        match lead? b.toNat with
        | none => .error ⟨start, 1, .invalidStart⟩
        | some lead =>
            let read := continuation lead.share lead.least lead.greatest lead.following bs
            if read.1 = lead.following then do
              let text ← decodeFrom (start + 1 + lead.following) read.2.2
              .ok (Char.ofNat read.2.1 :: text)
            else if read.2.2.isEmpty then .error ⟨start, 1 + read.1, .unexpectedEnd⟩
            else .error ⟨start, 1 + read.1, .invalidContinuation⟩
termination_by bs => bs.length
decreasing_by
  · simp
  · have := continuation_length_le lead.share lead.least lead.greatest lead.following bs
    simp only [List.length_cons]
    omega

def decode (bytes : List UInt8) : Except RefusedBytes (List Char) :=
  decodeFrom 0 bytes

end Utf8

end MediaSplit.Encoding
