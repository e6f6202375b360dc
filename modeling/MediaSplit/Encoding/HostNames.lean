import MediaSplit.Encoding

/-!
The encoding of host names, an encoding that is not built in: labels with points between them. A
label may be continued by what follows, so the last one of a text is kept back until it is told
that no more follows. Only ASCII is dealt with here.
-/

namespace MediaSplit.Encoding.HostNames

def labels (text : List Char) : List (List Char) :=
  text.splitOn '.'

def isLabel (label : List Char) : Bool :=
  0 < label.length && label.length < 64

/-- A text up to its last point. -/
def finished (text : List Char) : List Char :=
  text.take (text.length - ((labels text).getLastD []).length)

/-- The bytes of a text whose labels are sound, whatever the last one is. -/
def bytesOf (text : List Char) : Except String (List UInt8) :=
  if (labels text).dropLast.all isLabel then
    (SingleByte.encode (SingleByte.byteBelow? 0x80) .notAscii 0 text).mapError fun _ =>
      "Invalid character in IDN label"
  else .error "label empty or too long"

def encode (text : List Char) : Except String (List UInt8) :=
  if ((labels text).getLastD []).length < 64 then bytesOf text else .error "label too long"

def decode (bytes : List UInt8) : Except String (List Char) :=
  (reported "ascii" bytes (SingleByte.decode SingleByte.asciiChar? .notAscii 0 bytes)).mapError
    DecodeFault.message

instance codecs : Codecs where
  isKnown name := plainName name.toList == "idna".toList
  decode _ := decode
  encode _ := encode
  write _ text := bytesOf (finished text)

end MediaSplit.Encoding.HostNames
