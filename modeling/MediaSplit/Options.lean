import MediaSplit.Options.Key
import MediaSplit.Table
import MediaSplit.Value

/-!
Options in layers. A later layer overrides an earlier one, key by key under canonical names; a
null never overrides, and where both layers have a mapping the two are merged in the same way.
-/

namespace MediaSplit

/-- Options under canonical names, in the order in which they were entered. No name occurs
twice. -/
abbrev Options := Table String Value

inductive OptionsFault where
  | notMapping (kind : String)
  | keyNotText (kind : String)
  | keyIsBytes
  deriving DecidableEq, Repr

def OptionsFault.message : OptionsFault → String
  | .notMapping kind => "'" ++ kind ++ "' object has no attribute 'items'"
  | .keyNotText kind => "expected string or bytes-like object, got '" ++ kind ++ "'"
  | .keyIsBytes => "cannot use a string pattern on a bytes-like object"

namespace Options

def keyOf : Value → Except OptionsFault String
  | .text s => .ok (canonicalKey s)
  | .bytes _ => .error .keyIsBytes
  | v => .error (.keyNotText v.kindName)

/-- Enters the items of a mapping under canonical names. Of several spellings of one name the
last gives the value and the first the place. -/
def enterAll (made : Options) : List (Value × Value) → Except OptionsFault Options
  | [] => .ok made
  | (key, value) :: rest => do
      let name ← keyOf key
      enterAll (Table.set name value made) rest

def ofEntries (entries : List (Value × Value)) : Except OptionsFault Options :=
  enterAll [] entries

def toEntries (options : Options) : List (Value × Value) :=
  options.map fun (key, value) => (.text key, value)

mutual

/-- The number of values inside a value, itself included. -/
def weight : Value → Nat
  | .null | .bool _ | .int _ | .float _ | .text _ | .bytes _ | .decimal _ | .ellipsis => 1
  | .list items | .tuple items | .set items => 1 + weightOfItems items
  | .map entries => 1 + weightOfEntries entries

def weightOfItems : List Value → Nat
  | [] => 0
  | v :: vs => weight v + weightOfItems vs

def weightOfEntries : List (Value × Value) → Nat
  | [] => 0
  | (_, v) :: entries => weight v + weightOfEntries entries

end

def weightOf : Options → Nat
  | [] => 0
  | (_, v) :: rest => weight v + weightOf rest

theorem weight_pos (v : Value) : 0 < weight v := by
  cases v <;> simp only [weight] <;> omega

theorem weightOf_set_le (key : String) (value : Value) (options : Options) :
    weightOf (Table.set key value options) ≤ weight value + weightOf options := by
  induction options with
  | nil => simp [Table.set, weightOf]
  | cons entry rest ih =>
      obtain ⟨k, v⟩ := entry
      simp only [Table.set]
      split <;> simp only [weightOf] <;> omega

/-- Canonical names make a mapping no heavier. -/
theorem weightOf_enterAll_le {made result : Options} {entries : List (Value × Value)}
    (h : enterAll made entries = .ok result) :
    weightOf result ≤ weightOf made + weightOfEntries entries := by
  induction entries generalizing made with
  | nil =>
      simp only [enterAll, Except.ok.injEq] at h
      simp [h, weightOfEntries]
  | cons entry rest ih =>
      obtain ⟨key, value⟩ := entry
      simp only [enterAll] at h
      cases hkey : keyOf key with
      | error fault => simp [hkey, bind, Except.bind] at h
      | ok name =>
          simp only [hkey, bind, Except.bind] at h
          have hrest := ih h
          have hset := weightOf_set_le name value made
          simp only [weightOfEntries]
          omega

def overlay (base : Options) : Options → Except OptionsFault Options
  | [] => .ok base
  | (key, .null) :: rest => overlay (Table.set key ((Table.get? base key).getD .null) base) rest
  | (key, .map entries) :: rest =>
      match Table.get? base key with
      | some (.map current) =>
          match ofEntries current with
          | .error fault => .error fault
          | .ok inner =>
              match _h : ofEntries entries with
              | .error fault => .error fault
              | .ok layer =>
                  match overlay inner layer with
                  | .error fault => .error fault
                  | .ok merged => overlay (Table.set key (.map merged.toEntries) base) rest
      | _ => overlay (Table.set key (.map entries) base) rest
  | (key, value) :: rest => overlay (Table.set key value base) rest
termination_by layer => weightOf layer
decreasing_by
  · simp only [weightOf, weight]; omega
  · have := weightOf_enterAll_le _h
    simp only [weightOf, weight] at this ⊢
    omega
  · simp only [weightOf, weight]; omega
  · simp only [weightOf, weight]; omega
  · have := weight_pos value
    simp only [weightOf]
    omega

/-- Merges layers, the earliest first. A layer that holds nothing is passed over, whatever it
is. -/
def merge : Options → List Value → Except OptionsFault Options
  | merged, [] => .ok merged
  | merged, layer :: rest =>
      if !layer.isGiven then merge merged rest
      else
        match layer with
        | .map entries => do
            let options ← ofEntries entries
            merge (← overlay merged options) rest
        | v => .error (.notMapping v.kindName)

end Options

def mergeOptions (layers : List Value) : Except OptionsFault Options :=
  Options.merge [] layers

end MediaSplit
