import MediaSplit.Files.Text
import MediaSplit.Table

/-!
The cache of parsed style sheets. A file is read and parsed when it is first asked for; after
that the same style sheet is given back, whatever becomes of the file. Paths are compared as they
are spelled. Nothing is kept of a failed attempt.
-/

namespace MediaSplit

/-- A style sheet that is kept. The serial number tells it from every other one, even from one
that was parsed from the same text. -/
structure Parsed where
  serial : Nat
  sheet : Stylesheet

structure Cache where
  encoding : String
  entries : Table String Parsed
  parses : Nat

namespace Cache

def empty (encoding : String) : Cache :=
  ⟨encoding, [], 0⟩

def get? (c : Cache) (path : String) : Option Parsed :=
  Table.get? c.entries path

def holds (c : Cache) (path : String) : Bool :=
  (c.get? path).isSome

def size (c : Cache) : Nat :=
  c.entries.length

/-- Drops all style sheets. They still count as parsed. -/
def clear (c : Cache) : Cache :=
  { c with entries := [] }

def load [Codecs] (t : FileTree) (encoding path : String) : Except Fault Stylesheet := do
  let text ← TextFile.read t encoding path
  (Stylesheet.parse path text).mapError .parse

def store (path : String) (parsed : Parsed) (c : Cache) : Cache :=
  { c with entries := Table.set path parsed c.entries, parses := c.parses + 1 }

def get [Codecs] (t : FileTree) (path : String) (c : Cache) : Except Fault Parsed × Cache :=
  match c.get? path with
  | some parsed => (.ok parsed, c)
  | none =>
      match load t c.encoding path with
      | .error fault => (.error fault, c)
      | .ok sheet =>
          let parsed : Parsed := ⟨c.parses, sheet⟩
          (.ok parsed, c.store path parsed)

def summary (c : Cache) : String :=
  "ParseCache(entries=" ++ toString c.size ++ ", parses=" ++ toString c.parses ++ ")"

end Cache

end MediaSplit
