import MediaSplit.Number.Decimal
import MediaSplit.Number.Shortest
import MediaSplit.Table
import MediaSplit.Text.Quoted

/-!
Option values. Options come from configuration files, from the command line and from callers, so
the same option may arrive as a number, a text, a list or a mapping; what each option makes of
such a value is decided where the option is read.
-/

namespace MediaSplit

/-- A value of an option. Mappings keep the order in which their keys were entered. Decimal
fractions and the ellipsis are values that no option gives a meaning to. -/
inductive Value where
  | null
  | bool (b : Bool)
  | int (n : Int)
  | float (x : Binary64)
  | text (s : String)
  | bytes (bs : List UInt8)
  | list (items : List Value)
  | tuple (items : List Value)
  | set (items : List Value)
  | map (entries : List (Value × Value))
  | decimal (d : Decimal)
  | ellipsis
  deriving Repr

namespace Value

instance : Inhabited Value :=
  ⟨.null⟩

def commaSeparated (texts : List String) : String :=
  ", ".intercalate texts

mutual

/-- The form in which a value is shown inside messages and inside other values: texts are quoted,
and a tuple of one item keeps its comma. -/
def shownInside : Value → String
  | .null => "None"
  | .bool b => if b then "True" else "False"
  | .int n => toString n
  | .float x => String.ofList x.text
  | .text s => String.ofList (Text.quoted s.toList)
  | .bytes bs => String.ofList (Text.quotedBytes bs)
  | .list items => "[" ++ commaSeparated (allShown items) ++ "]"
  | .tuple [item] => "(" ++ item.shownInside ++ ",)"
  | .tuple items => "(" ++ commaSeparated (allShown items) ++ ")"
  | .set [] => "set()"
  | .set items => "\x7b" ++ commaSeparated (allShown items) ++ "\x7d"
  | .map entries => "\x7b" ++ commaSeparated (entriesShown entries) ++ "\x7d"
  | .decimal d => "Decimal('" ++ String.ofList d.text ++ "')"
  | .ellipsis => "Ellipsis"

def allShown : List Value → List String
  | [] => []
  | v :: vs => v.shownInside :: allShown vs

def entriesShown : List (Value × Value) → List String
  | [] => []
  | (key, v) :: entries => (key.shownInside ++ ": " ++ v.shownInside) :: entriesShown entries

end

def shown : Value → String
  | .text s => s
  | .decimal d => String.ofList d.text
  | v => v.shownInside

def isNull : Value → Bool
  | .null => true
  | _ => false

/-- Whether an option with this value counts as given: zero and everything empty do not. -/
def isGiven : Value → Bool
  | .null => false
  | .bool b => b
  | .int n => n != 0
  | .float x => !x.isZero
  | .text s => !s.isEmpty
  | .bytes bs => !bs.isEmpty
  | .list items | .tuple items | .set items => !items.isEmpty
  | .map entries => !entries.isEmpty
  | .decimal d => !d.isZero
  | .ellipsis => true

def kindName : Value → String
  | .null => "NoneType"
  | .bool _ => "bool"
  | .int _ => "int"
  | .float _ => "float"
  | .text _ => "str"
  | .bytes _ => "bytes"
  | .list _ => "list"
  | .tuple _ => "tuple"
  | .set _ => "set"
  | .map _ => "dict"
  | .decimal _ => "decimal.Decimal"
  | .ellipsis => "ellipsis"

/-- The items that a value is a row of: the characters of a text, the numbers of bytes and the
keys of a mapping. A single value is no row. -/
def items? : Value → Option (List Value)
  | .text s => some (s.toList.map fun c => .text (String.singleton c))
  | .bytes bs => some (bs.map fun b => .int b.toNat)
  | .list items | .tuple items | .set items => some items
  | .map entries => some (entries.map Prod.fst)
  | _ => none

/-- The numerator and the denominator of a finite number. The truth values are one and zero. -/
def fraction? : Value → Option (Int × Nat)
  | .bool b => some (if b then 1 else 0, 1)
  | .int n => some (n, 1)
  | .float (.finite negative mantissa exponent) =>
      let numerator : Int := mantissa * twoPow exponent.toNat
      some (if negative then -numerator else numerator, twoPow (-exponent).toNat)
  | .decimal (.finite negative coefficient exponent) =>
      let numerator : Int := coefficient * tenPow exponent.toNat
      some (if negative then -numerator else numerator, tenPow (-exponent).toNat)
  | _ => none

def infinite? : Value → Option Bool
  | .float (.infinite negative) | .decimal (.infinite negative) => some negative
  | _ => none

/-- Whether two numbers are equal, of whatever kind they are. What is no number is equal to
nothing. -/
def isSameNumber (a b : Value) : Bool :=
  match a.fraction?, b.fraction? with
  | some (n, d), some (m, e) => n * e == m * d
  | _, _ => a.infinite?.isSome && a.infinite? == b.infinite?

mutual

/-- Whether two values are one as a key of a mapping or as an item of a set. Rows and mappings
that can still change are neither. -/
def isSameKey : Value → Value → Bool
  | .null, .null | .ellipsis, .ellipsis => true
  | .text a, .text b => a == b
  | .bytes a, .bytes b => a == b
  | .tuple items, .tuple others => areSameKeys items others
  | a, b => isSameNumber a b

def areSameKeys : List Value → List Value → Bool
  | [], [] => true
  | v :: vs, w :: ws => isSameKey v w && areSameKeys vs ws
  | _, _ => false

end

instance : BEq Value :=
  ⟨isSameKey⟩

def ofEntries (entries : List (Value × Value)) : Value :=
  .map (Table.ofList entries)

def ofItems (items : List Value) : Value :=
  .set (items.foldl (fun kept v => if kept.contains v then kept else kept ++ [v]) [])

end Value

end MediaSplit
