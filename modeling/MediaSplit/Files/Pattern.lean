/-!
Name patterns: a star for any characters, a question mark for one, and a set in square brackets
for one character out of several.
-/

namespace MediaSplit

inductive SetMember where
  | char (c : Char)
  | range (first last : Char)
  deriving DecidableEq, Repr

namespace SetMember

/-- A range that runs backwards holds nothing. -/
def isEmpty : SetMember → Bool
  | .char _ => false
  | .range first last => last < first

def holds (c : Char) : SetMember → Bool
  | .char d => d == c
  | .range first last => first ≤ c && c ≤ last

end SetMember

inductive PatternPart where
  | exactly (c : Char)
  | anyChar
  | anyText
  | oneOf (negated : Bool) (members : List SetMember)
  deriving DecidableEq, Repr

namespace Pattern

def isMagicChar (c : Char) : Bool :=
  c == '*' || c == '?' || c == '['

def isMagic (text : List Char) : Bool :=
  text.any isMagicChar

/-- The members of a set. A hyphen between two characters makes a range of them; one that comes
first or last, or right after a range, stands for itself. -/
def members : List Char → List SetMember
  | [] => []
  | c :: '-' :: d :: rest => .range c d :: members rest
  | c :: rest => .char c :: members rest

/-- What a set matches. An exclamation mark at its start negates it; ranges that run backwards
are left out first, so that the mark may also come from behind them. A range that starts at the
mark, be it of the mark alone, falls into its hyphen and its end. -/
def setOf (text : List Char) : PatternPart :=
  let all : List SetMember := match text with
    | '!' :: rest => .char '!' :: members rest
    | text => members text
  match all.filter fun m => !m.isEmpty with
  | .char '!' :: rest => .oneOf true rest
  | .range '!' last :: rest => .oneOf true (.char '-' :: .char last :: rest)
  | rest => .oneOf false rest

def spanChar (c : Char) (text : List Char) : List Char × List Char :=
  if text.head? = some c then ([c], text.tail) else ([], text)

theorem spanChar_length_le (c : Char) (text : List Char) :
    (spanChar c text).2.length ≤ text.length := by
  unfold spanChar
  split
  · simp
  · exact Nat.le_refl _

/-- The text of a set and what follows its closing bracket. A bracket that comes first, perhaps
after an exclamation mark, belongs to the set. -/
def splitSet? (text : List Char) : Option (List Char × List Char) :=
  let mark := spanChar '!' text
  let bracket := spanChar ']' mark.2
  match bracket.2.dropWhile (· != ']') with
  | [] => none
  | _ :: rest => some (mark.1 ++ bracket.1 ++ bracket.2.takeWhile (· != ']'), rest)

theorem splitSet?_length_lt {text set rest : List Char}
    (h : splitSet? text = some (set, rest)) : rest.length < text.length := by
  have hmark := spanChar_length_le '!' text
  have hbracket := spanChar_length_le ']' (spanChar '!' text).2
  have hdrop := (List.dropWhile_sublist
    (l := (spanChar ']' (spanChar '!' text).2).2) (· != ']')).length_le
  unfold splitSet? at h
  simp only at h
  split at h
  · simp at h
  · rename_i heq
    simp only [Option.some.injEq, Prod.mk.injEq] at h
    rw [heq, List.length_cons, h.2] at hdrop
    omega

/-- Reads a name pattern. A bracket that is not closed stands for itself. -/
def parse : List Char → List PatternPart
  | [] => []
  | c :: cs =>
      if c = '*' then .anyText :: parse cs
      else if c = '?' then .anyChar :: parse cs
      else if c = '[' then
        match _h : splitSet? cs with
        | some (set, rest) => setOf set :: parse rest
        | none => .exactly '[' :: parse cs
      else .exactly c :: parse cs
termination_by cs => cs.length
decreasing_by
  · simp
  · simp
  · have := splitSet?_length_lt _h
    simp only [List.length_cons]
    omega
  · simp
  · simp

def matchesChar : PatternPart → Char → Bool
  | .exactly d, c => d == c
  | .anyChar, _ => true
  | .oneOf negated members, c => negated != members.any (SetMember.holds c)
  | .anyText, _ => false

def ends : List Char → List (List Char)
  | [] => [[]]
  | c :: cs => (c :: cs) :: ends cs

/-- What may be left of a name after one more part, given what may be left before it, longest
first. All that may be left are ends of the longest, so a star leaves the ends of that one. -/
def leftAfter (before : List (List Char)) : PatternPart → List (List Char)
  | .anyText => (before.head?.map ends).getD []
  | part => before.filterMap fun
      | [] => none
      | c :: cs => if matchesChar part c then some cs else none

/-- Whether a whole name matches: after the last part, nothing may be left. Each part looks at
each end of the name once, however many stars there are. -/
def matchesName (pattern : List PatternPart) (name : List Char) : Bool :=
  (pattern.foldl leftAfter [name]).any List.isEmpty

end Pattern

end MediaSplit
