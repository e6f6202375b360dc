import MediaSplit.Fault

/-!
Files of text in a named encoding. The name is looked at when the file is open, so writing under
a name that no encoding has, or a text that the encoding does not have, leaves an empty file. What
is written of a text is what its encoding gives until the file is closed.
-/

namespace MediaSplit.TextFile

/-- A name with a null character is refused before anything is opened. -/
def checkName (encoding : String) : Except Fault Unit :=
  if encoding.toList.contains '\x00' then .error (.encodingName .nul) else .ok ()

/-- The name that stands for the encoding of the surroundings, in this one spelling. It is a name
only where a file is opened. -/
def surroundings : String := "locale"

/-- The encoding that a file is opened with. That of the surroundings is UTF-8. -/
def encodingOf [Codecs] (name : String) : Except Fault Encoding :=
  if name = surroundings then .ok (.utf8 false)
  else (Encoding.ofName name).mapError .encodingName

def read [Codecs] (t : FileTree) (encoding path : String) : Except Fault String := do
  checkName encoding
  let bytes ← (t.read path).mapError .path
  let e ← encodingOf encoding
  let text ← (e.decode bytes).mapError .undecodable
  return String.ofList text

def encode [Codecs] (encoding text : String) : Except Fault (List UInt8) := do
  let e ← encodingOf encoding
  (e.encode text.toList).mapError .unencodable

def written [Codecs] (encoding text : String) : Except Fault (List UInt8) := do
  let e ← encodingOf encoding
  (e.written text.toList).mapError .unencodable

def makeParents (t : FileTree) (path : String) : Except PathFault Unit × FileTree :=
  let directory := Path.directoryOf path.toList
  if directory.isEmpty then (.ok (), t) else t.makeDirectories directory

def fill [Codecs] (t : FileTree) (place : Location) (encoding text : String) :
    Except Fault Unit × FileTree :=
  match written encoding text with
  | .error fault => (.error fault, t)
  | .ok bytes => (.ok (), t.put place (.file bytes))

/-- Writes a text to a file, which is made if it is missing, with the directories above it. -/
def write [Codecs] (t : FileTree) (encoding path text : String) : Except Fault Unit × FileTree :=
  match makeParents t path with
  | (.error fault, t) => (.error (.path fault), t)
  | (.ok (), t) =>
      match checkName encoding with
      | .error fault => (.error fault, t)
      | .ok () =>
          match t.openForWriting path with
          | .error fault => (.error (.path fault), t)
          | .ok (place, opened) => fill opened place encoding text

end MediaSplit.TextFile
