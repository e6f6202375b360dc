import MediaSplit.Encoding.SingleByte
import MediaSplit.Encoding.Utf16
import MediaSplit.Text.Quoted

/-!
Text encodings: how they are named, and how texts and bytes are turned into each other. A name
may be spelled in many ways; the spelling that was given is the one that messages repeat. Those of
UTF-8 and UTF-16 are built in, and three that have one byte for each character. What others there
are, and what they do, is left open.
-/

namespace MediaSplit

/-- The encodings of text that are not built in, by their names as they are given. A refusal is
told by its message. Texts are taken to consist of characters, so that no encoding gives half of a
surrogate pair. -/
class Codecs where
  isKnown : String → Bool
  /-- What a text file makes of all its bytes. -/
  decode : String → List UInt8 → Except String (List Char)
  /-- The bytes of a text as a whole. -/
  encode : String → List Char → Except String (List UInt8)
  /-- The bytes that a text file has when a text was written to it in one piece and it is closed.
  An encoding may keep back the end of a text until it is told that no more follows, which a text
  file never tells it. -/
  write : String → List Char → Except String (List UInt8)

inductive Encoding where
  | utf8 (signature : Bool)
  | utf16 (order : Option Encoding.ByteOrder)
  | latin1
  | ascii
  | windows1252
  | other (name : String)
  deriving DecidableEq, Repr

namespace Encoding

/-- What a known name stands for. A transformation turns data into other data and is no encoding
of text. -/
inductive Named where
  | encoding (e : Encoding)
  | transformation
  deriving DecidableEq, Repr

inductive NameFault where
  | unknown (name : String)
  | notText (name : String)
  | nul
  deriving DecidableEq, Repr

/-- How many bytes of a name are shown where it is none of a text encoding. -/
def maxShownBytes : Nat := 400

def NameFault.message : NameFault → String
  | .unknown name => "unknown encoding: " ++ name
  | .notText name =>
      "'" ++ String.ofList (Utf8.within maxShownBytes name.toList) ++
        "' is not a text encoding; use codecs.open() to handle arbitrary codecs"
  | .nul => "embedded null character"

/-- The chief names, in their plain form. -/
def chiefNames : List (String × Named) :=
  [("utf_8", .encoding (.utf8 false)), ("utf_8_sig", .encoding (.utf8 true)),
    ("utf_16", .encoding (.utf16 none)), ("utf_16_le", .encoding (.utf16 (some .little))),
    ("utf_16_be", .encoding (.utf16 (some .big))), ("latin_1", .encoding .latin1),
    ("ascii", .encoding .ascii), ("cp1252", .encoding .windows1252),
    ("rot_13", .transformation), ("hex_codec", .transformation),
    ("base64_codec", .transformation), ("bz2_codec", .transformation),
    ("quopri_codec", .transformation), ("uu_codec", .transformation),
    ("zlib_codec", .transformation)]

/-- Other names, in their plain form. -/
def otherNames : List (String × Named) :=
  let utf8 := Named.encoding (.utf8 false)
  let utf16 := Named.encoding (.utf16 none)
  let little := Named.encoding (.utf16 (some .little))
  let big := Named.encoding (.utf16 (some .big))
  let latin1 := Named.encoding .latin1
  let ascii := Named.encoding .ascii
  let windows := Named.encoding .windows1252
  [("u8", utf8), ("utf", utf8), ("utf8", utf8), ("utf8_ucs2", utf8), ("utf8_ucs4", utf8),
    ("cp65001", utf8),
    ("u16", utf16), ("utf16", utf16),
    ("utf_16le", little), ("unicodelittleunmarked", little),
    ("utf_16be", big), ("unicodebigunmarked", big),
    ("8859", latin1), ("cp819", latin1), ("csisolatin1", latin1), ("ibm819", latin1),
    ("iso8859", latin1), ("iso8859_1", latin1), ("iso_8859_1", latin1),
    ("iso_8859_1_1987", latin1), ("iso_ir_100", latin1), ("l1", latin1), ("latin", latin1),
    ("latin1", latin1),
    ("646", ascii), ("ansi_x3.4_1968", ascii), ("ansi_x3_4_1968", ascii),
    ("ansi_x3.4_1986", ascii), ("cp367", ascii), ("csascii", ascii), ("ibm367", ascii),
    ("iso646_us", ascii), ("iso_646.irv_1991", ascii), ("iso_ir_6", ascii), ("us", ascii),
    ("us_ascii", ascii),
    ("1252", windows), ("windows_1252", windows),
    ("rot13", .transformation), ("hex", .transformation), ("base64", .transformation),
    ("base_64", .transformation), ("bz2", .transformation), ("quopri", .transformation),
    ("quoted_printable", .transformation), ("quotedprintable", .transformation),
    ("uu", .transformation), ("zip", .transformation), ("zlib", .transformation)]

/-- The plain form of a name: small letters, digits and points, with one low line for each run of
other characters between them. -/
def plainName (name : List Char) : List Char :=
  let isKept := fun c : Char => c.isAlphanum || c == '.'
  let rec spell (started pending : Bool) : List Char → List Char
    | [] => []
    | c :: cs =>
        if isKept c then
          (if pending && started then ['_'] else []) ++ c.toLower :: spell true false cs
        else spell started true cs
  spell false false name

/-- What a plain name stands for. Points may take the place of low lines in the names that are not
the chief ones. -/
def plainNamed? (plain : List Char) : Option Named :=
  let undotted := plain.map fun c => if c == '.' then '_' else c
  otherNames.lookup (String.ofList plain) <|> otherNames.lookup (String.ofList undotted) <|>
    chiefNames.lookup (String.ofList plain)

def named? [Codecs] (name : String) : Except NameFault Named :=
  if name.toList.contains '\x00' then .error .nul
  else
    match plainNamed? (plainName name.toList) with
    | some known => .ok known
    | none =>
        if Codecs.isKnown name then .ok (.encoding (.other name)) else .error (.unknown name)

def ofName [Codecs] (name : String) : Except NameFault Encoding :=
  match named? name with
  | .ok (.encoding e) => .ok e
  | .ok .transformation => .error (.notText name)
  | .error fault => .error fault

/-- Bytes that are no text, with the name of the encoding that refused them and the first of the
refused bytes. -/
structure Undecodable where
  encoding : String
  refused : RefusedBytes
  byte : UInt8
  deriving DecidableEq, Repr

structure Unencodable where
  encoding : String
  refused : RefusedChars
  deriving DecidableEq, Repr

def DecodeReason.text : DecodeReason → String
  | .invalidStart => "invalid start byte"
  | .invalidContinuation => "invalid continuation byte"
  | .unexpectedEnd => "unexpected end of data"
  | .truncatedUnit => "truncated data"
  | .loneLowSurrogate => "illegal encoding"
  | .unpairedSurrogate => "illegal UTF-16 surrogate"
  | .notAscii => "ordinal not in range(128)"
  | .undefinedByte => "character maps to <undefined>"

def EncodeReason.text : EncodeReason → String
  | .notAscii => "ordinal not in range(128)"
  | .notLatin1 => "ordinal not in range(256)"
  | .undefinedChar => "character maps to <undefined>"

def spanText (start count : Nat) : String :=
  if count = 1 then toString start else toString start ++ "-" ++ toString (start + count - 1)

def Undecodable.message (u : Undecodable) : String :=
  let what :=
    if u.refused.count = 1 then
      "byte 0x" ++ String.ofList (Text.hexPadded 2 u.byte.toNat) ++ " in position "
    else "bytes in position "
  "'" ++ u.encoding ++ "' codec can't decode " ++ what ++
    spanText u.refused.start u.refused.count ++ ": " ++ u.refused.reason.text

def Unencodable.message (u : Unencodable) : String :=
  let what := match u.refused.chars with
    | [c] => "character '" ++ String.ofList (Text.escapeCodePoint c.toNat) ++ "' in position "
    | _ => "characters in position "
  "'" ++ u.encoding ++ "' codec can't encode " ++ what ++
    spanText u.refused.start u.refused.chars.length ++ ": " ++ u.refused.reason.text

inductive DecodeFault where
  | undecodable (u : Undecodable)
  | noByteOrderMark
  | refused (message : String)
  deriving DecidableEq, Repr

def DecodeFault.message : DecodeFault → String
  | .undecodable u => u.message
  | .noByteOrderMark => "UTF-16 stream does not start with BOM"
  | .refused message => message

inductive EncodeFault where
  | unencodable (u : Unencodable)
  | refused (message : String)
  deriving DecidableEq, Repr

def EncodeFault.message : EncodeFault → String
  | .unencodable u => u.message
  | .refused message => message

/-- The signature of UTF-8: the mark U+FEFF. -/
def signature : List UInt8 :=
  [0xEF, 0xBB, 0xBF]

/-- Adds the name of the encoding and the first refused byte to a refusal. -/
def reported (encoding : String) (bytes : List UInt8) :
    Except RefusedBytes (List Char) → Except DecodeFault (List Char)
  | .ok text => .ok text
  | .error refused =>
      .error (.undecodable ⟨encoding, refused, (bytes.drop refused.start).headD 0⟩)

def ByteOrder.encodingName : ByteOrder → String
  | .little => "utf-16-le"
  | .big => "utf-16-be"

/-- The text of a file's bytes. With a signature, positions are counted after it, and bytes that
only begin one are no text at all. Without a byte order mark, bytes are read in little endian
order for the sake of their first fault, and then refused. -/
def decode [Codecs] (e : Encoding) (bytes : List UInt8) : Except DecodeFault (List Char) :=
  match e with
  | .utf8 false => reported "utf-8" bytes (Utf8.decode bytes)
  | .utf8 true =>
      if bytes.length < 3 && bytes.isPrefixOf signature then .ok []
      else
        let body := if signature.isPrefixOf bytes then bytes.drop 3 else bytes
        reported "utf-8" body (Utf8.decode body)
  | .utf16 (some order) => reported order.encodingName bytes (Utf16.decodeFrom order 0 bytes)
  | .utf16 none =>
      match bytes with
      | 0xFF :: 0xFE :: rest =>
          reported ByteOrder.little.encodingName bytes (Utf16.decodeFrom .little 2 rest)
      | 0xFE :: 0xFF :: rest =>
          reported ByteOrder.big.encodingName bytes (Utf16.decodeFrom .big 2 rest)
      | bytes => do
          let text ← reported ByteOrder.little.encodingName bytes
            (Utf16.decodeFrom .little 0 bytes)
          if text.isEmpty then .ok [] else .error .noByteOrderMark
  | .latin1 => .ok (bytes.map fun b => Char.ofNat b.toNat)
  | .ascii => reported "ascii" bytes (SingleByte.decode SingleByte.asciiChar? .notAscii 0 bytes)
  | .windows1252 =>
      reported "charmap" bytes (SingleByte.decode SingleByte.windowsChar? .undefinedByte 0 bytes)
  | .other name => (Codecs.decode name bytes).mapError .refused

def refusedBy (encoding : String) :
    Except RefusedChars (List UInt8) → Except EncodeFault (List UInt8)
  | .ok bytes => .ok bytes
  | .error refused => .error (.unencodable ⟨encoding, refused⟩)

/-- The bytes of a text. Signature and byte order mark belong even to an empty text. -/
def encode [Codecs] (e : Encoding) (text : List Char) : Except EncodeFault (List UInt8) :=
  match e with
  | .utf8 withSignature => .ok ((if withSignature then signature else []) ++ Utf8.encode text)
  | .utf16 (some order) => .ok (Utf16.encode order text)
  | .utf16 none => .ok (0xFF :: 0xFE :: Utf16.encode .little text)
  | .latin1 =>
      refusedBy "latin-1" (SingleByte.encode (SingleByte.byteBelow? 0x100) .notLatin1 0 text)
  | .ascii => refusedBy "ascii" (SingleByte.encode (SingleByte.byteBelow? 0x80) .notAscii 0 text)
  | .windows1252 =>
      refusedBy "charmap" (SingleByte.encode SingleByte.windowsByte? .undefinedChar 0 text)
  | .other name => (Codecs.encode name text).mapError .refused

/-- The bytes that a file has of a text when it is closed, which may not be all of them. -/
def written [Codecs] (e : Encoding) (text : List Char) : Except EncodeFault (List UInt8) :=
  match e with
  | .other name => (Codecs.write name text).mapError .refused
  | e => e.encode text

end Encoding

end MediaSplit
