import MediaSplit.Text.Blank
import MediaSplit.Value

/-!
Sets of breakpoint widths. A width is the text that stands before the unit in a condition, and a
set of widths can be given in many shapes: as a text with commas, as a number, or as a list or a
mapping of these. Only the single values inside count, not how they are grouped.
-/

namespace MediaSplit

structure WidthSet where
  tokens : List String
  ascending : tokens.Pairwise (· < ·)

namespace WidthSet

/-- Puts a token in its place in an ascending list that may hold it already. -/
def insertToken (token : String) : List String → List String
  | [] => [token]
  | t :: ts =>
      if token < t then token :: t :: ts
      else if token = t then t :: ts
      else t :: insertToken token ts

theorem mem_insertToken {x token : String} {ts : List String} :
    x ∈ insertToken token ts ↔ x = token ∨ x ∈ ts := by
  induction ts with
  | nil => simp [insertToken]
  | cons t ts ih =>
      simp only [insertToken]
      split
      · simp
      · split
        · simp_all
        · simp only [List.mem_cons, ih]
          constructor
          · rintro (h | h | h) <;> simp [h]
          · rintro (h | h | h) <;> simp [h]

theorem insertToken_ascending {token : String} {ts : List String}
    (h : ts.Pairwise (· < ·)) : (insertToken token ts).Pairwise (· < ·) := by
  induction ts with
  | nil => simp [insertToken]
  | cons t ts ih =>
      have ⟨hhead, htail⟩ := List.pairwise_cons.mp h
      simp only [insertToken]
      split
      · rename_i hlt
        refine List.pairwise_cons.mpr ⟨fun x hx => ?_, h⟩
        rcases List.mem_cons.mp hx with rfl | hx
        · exact hlt
        · exact String.lt_trans hlt (hhead x hx)
      · split
        · exact h
        · rename_i hnlt hne
          refine List.pairwise_cons.mpr ⟨fun x hx => ?_, ih htail⟩
          rcases mem_insertToken.mp hx with rfl | hx
          · exact String.not_le.mp fun hle => hne (String.le_antisymm hle (String.not_lt.mp hnlt))
          · exact hhead x hx

def empty : WidthSet :=
  ⟨[], List.Pairwise.nil⟩

def insert (w : WidthSet) (token : String) : WidthSet :=
  ⟨insertToken token w.tokens, insertToken_ascending w.ascending⟩

def ofList (tokens : List String) : WidthSet :=
  tokens.foldl insert empty

def union (a b : WidthSet) : WidthSet :=
  b.tokens.foldl insert a

def isEmpty (w : WidthSet) : Bool :=
  w.tokens.isEmpty

instance : Membership String WidthSet :=
  ⟨fun w token => token ∈ w.tokens⟩

instance : DecidableEq WidthSet := fun a b =>
  if h : a.tokens = b.tokens then
    isTrue (by cases a; cases b; simp_all)
  else isFalse fun heq => h (heq ▸ rfl)

/-- The tokens of a text: what stands between its commas, without blanks around it. -/
def tokensOfText (text : String) : List String :=
  ((text.toList.splitOn ',').map Text.trim).filterMap fun token =>
    if token.isEmpty then none else some (String.ofList token)

structure Unsupported where
  value : Value

def Unsupported.message (u : Unsupported) : String :=
  "Unsupported width value: " ++ u.value.shownInside

def tokenOfFloat (x : Binary64) : String :=
  match x.integer? with
  | some n => toString n
  | none => String.ofList x.text

mutual

/-- The widths that a value gives. Lists, sets and the values of a mapping are gone through, so
that the answer is the union of what the single values give. -/
def ofValue : Value → Except Unsupported WidthSet
  | .null => .ok empty
  | .bool b => .error ⟨.bool b⟩
  | .int n => .ok (ofList [toString n])
  | .float x => .ok (ofList [tokenOfFloat x])
  | .text s => .ok (ofList (tokensOfText s))
  | .bytes bs => .ok (ofList (bs.map fun b => toString b.toNat))
  | .list items | .tuple items | .set items => ofValues items
  | .map entries => ofEntries entries
  | .decimal d => .error ⟨.decimal d⟩
  | .ellipsis => .error ⟨.ellipsis⟩

def ofValues : List Value → Except Unsupported WidthSet
  | [] => .ok empty
  | v :: vs => do
      let first ← ofValue v
      let others ← ofValues vs
      .ok (first.union others)

def ofEntries : List (Value × Value) → Except Unsupported WidthSet
  | [] => .ok empty
  | (_, v) :: entries => do
      let first ← ofValue v
      let others ← ofEntries entries
      .ok (first.union others)

end

end WidthSet

end MediaSplit
