import MediaSplit.Encoding.Utf8

/-!
UTF-16 in either byte order.
-/

namespace MediaSplit.Encoding

inductive ByteOrder where
  | little
  | big
  deriving DecidableEq, Repr

namespace Utf16

def unitBytes (order : ByteOrder) (u : Nat) : List UInt8 :=
  let low := UInt8.ofNat (u % 0x100)
  let high := UInt8.ofNat (u / 0x100)
  match order with
  | .little => [low, high]
  | .big => [high, low]

def unit (order : ByteOrder) (first second : UInt8) : Nat :=
  match order with
  | .little => second.toNat * 0x100 + first.toNat
  | .big => first.toNat * 0x100 + second.toNat

def encodeChar (order : ByteOrder) (c : Char) : List UInt8 :=
  let n := c.toNat
  if n < 0x10000 then unitBytes order n
  else
    unitBytes order (0xD800 + (n - 0x10000) / 0x400) ++
      unitBytes order (0xDC00 + (n - 0x10000) % 0x400)

def encode (order : ByteOrder) (text : List Char) : List UInt8 :=
  text.flatMap (encodeChar order)

def isHighSurrogate (u : Nat) : Bool :=
  0xD800 ≤ u && u < 0xDC00

def isLowSurrogate (u : Nat) : Bool :=
  0xDC00 ≤ u && u < 0xE000

def decodeFrom (order : ByteOrder) (start : Nat) : List UInt8 → Except RefusedBytes (List Char)
  | [] => .ok []
  | [_] => .error ⟨start, 1, .truncatedUnit⟩
  | a :: b :: rest =>
      let first := unit order a b
      if isHighSurrogate first then
        match rest with
        | c :: d :: rest =>
            let second := unit order c d
            if isLowSurrogate second then do
              let text ← decodeFrom order (start + 4) rest
              .ok (Char.ofNat (0x10000 + (first - 0xD800) * 0x400 + (second - 0xDC00)) :: text)
            else .error ⟨start, 2, .unpairedSurrogate⟩
        | rest => .error ⟨start, 2 + rest.length, .unexpectedEnd⟩
      else if isLowSurrogate first then .error ⟨start, 2, .loneLowSurrogate⟩
      else do
        let text ← decodeFrom order (start + 2) rest
        .ok (Char.ofNat first :: text)

end Utf16

end MediaSplit.Encoding
