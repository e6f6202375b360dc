import MediaSplit.Css.Written

/-!
Rules: a row of tokens cut into what stands at one level of a style sheet. The cutting never
fails; a rule that has no block by the end of the row is reported as unfinished, at the last
token that belongs to it.
-/

namespace MediaSplit.Css

inductive Rule where
  | whitespace (text : List Char)
  | comment (text : List Char)
  | qualified (prelude content : List Token)
  | atRule (keyword : List Char) (prelude : List Token) (content : Option (List Token))
  | unfinished (place : Place)
  deriving Repr

namespace Rule

/-- A rule whose block has not been reached. Its prelude is kept with the last token first, and
that of a qualified rule starts with `first`. -/
inductive Pending where
  | atRule (keyword : List Char) (prelude : List Token)
  | qualified (last : Token) (earlier : List Token)

namespace Pending

/-- What the end of the row makes of a rule that waits for its block. -/
def finish : Pending → Rule
  | .atRule keyword prelude => .atRule keyword prelude.reverse none
  | .qualified last _ => .unfinished last.start

def close (content : List Token) : Pending → Rule
  | .atRule keyword prelude => .atRule keyword prelude.reverse (some content)
  | .qualified last earlier => .qualified (last :: earlier).reverse content

def push (t : Token) : Pending → Pending
  | .atRule keyword prelude => .atRule keyword (t :: prelude)
  | .qualified last earlier => .qualified t (last :: earlier)

def isAtRule : Pending → Bool
  | .atRule _ _ => true
  | .qualified _ _ => false

end Pending

/-- Where a rule list stands. Only the outermost list of a text leaves the marks out that once
hid style sheets from old readers. -/
inductive Level where
  | top
  | nested
  deriving DecidableEq, Repr

/-- The marks that are left out at the top level. -/
def isHidingMark : Token → Bool
  | .atom _ (.literal text) => text == ['<', '!', '-', '-'] || text == ['-', '-', '>']
  | _ => false

/-- The rules of a row of tokens, of which `pending` has been read in part. -/
def split (level : Level) : Option Pending → List Token → List Rule
  | none, [] => []
  | some pending, [] => [pending.finish]
  | none, .atom p a :: ts =>
      match a with
      | .whitespace text => .whitespace text :: split level none ts
      | .comment text => .comment text :: split level none ts
      | .atKeyword keyword => split level (some (.atRule keyword [])) ts
      | a =>
          if level = .top ∧ isHidingMark (.atom p a) then split level none ts
          else split level (some (.qualified (.atom p a) [])) ts
  | none, .block p b content :: ts =>
      if b = .brace then .qualified [] content :: split level none ts
      else split level (some (.qualified (.block p b content) [])) ts
  | none, t :: ts => split level (some (.qualified t [])) ts
  | some pending, .block p b content :: ts =>
      if b = .brace then pending.close content :: split level none ts
      else split level (some (pending.push (.block p b content))) ts
  | some pending, .atom p a :: ts =>
      if pending.isAtRule ∧ a = .literal [';'] then pending.finish :: split level none ts
      else split level (some (pending.push (.atom p a))) ts
  | some pending, t :: ts => split level (some (pending.push t)) ts

def ofTokens (level : Level) (tokens : List Token) : List Rule :=
  split level none tokens

/-- Rules are of no kind that runs into another. -/
def kind : Rule → Kind
  | .whitespace _ => .whitespace
  | _ => .other

/-- The written form of a rule. A missing block is written as a semicolon; an unfinished rule
has no written form. -/
def text : Rule → List Char
  | .whitespace text => text
  | .comment text => '/' :: '*' :: text ++ ['*', '/']
  | .qualified prelude content => Token.write prelude ++ '{' :: Token.write content ++ ['}']
  | .atRule keyword prelude none => '@' :: writeIdent keyword ++ Token.write prelude ++ [';']
  | .atRule keyword prelude (some content) =>
      '@' :: writeIdent keyword ++ Token.write prelude ++ '{' :: Token.write content ++ ['}']
  | .unfinished _ => []

def write (rules : List Rule) : List Char :=
  Piece.join (rules.map fun r => ⟨r.kind, r.text⟩)

/-- The number of tokens inside the blocks of at-rules, the at-rules themselves included. -/
def weights : List Rule → Nat
  | [] => 0
  | .atRule _ _ (some content) :: rs => 1 + Token.weights content + weights rs
  | _ :: rs => weights rs

/-- Each rule takes a token of its own, so the rules of a row and the tokens inside their blocks
are together no more than the tokens of the row. -/
theorem length_split_add_weights_le (level : Level) (pending : Option Pending)
    (tokens : List Token) :
    (split level pending tokens).length + weights (split level pending tokens) ≤
      Token.weights tokens + if pending.isSome then 1 else 0 := by
  fun_induction split level pending tokens with
  | case1 => simp [weights]
  | case2 pending => cases pending <;> simp [Pending.finish, weights, Token.weights]
  | case3 p ts text ih =>
      simp only [List.length_cons, weights, Token.weights, Token.weight] at ih ⊢
      simp at ih ⊢
      omega
  | case4 p ts text ih =>
      simp only [List.length_cons, weights, Token.weights, Token.weight] at ih ⊢
      simp at ih ⊢
      omega
  | case5 p ts keyword ih => simp [Token.weights, Token.weight] at ih ⊢; omega
  | case6 p ts a _ _ _ _ ih => simp [Token.weights, Token.weight] at ih ⊢; omega
  | case7 p ts a _ _ _ _ ih => simp [Token.weights, Token.weight] at ih ⊢; omega
  | case8 p content ts ih => simp [weights, Token.weights, Token.weight] at ih ⊢; omega
  | case9 p b content ts _ ih => simp [Token.weights, Token.weight] at ih ⊢; omega
  | case10 t ts _ _ ih => cases t <;> simp [Token.weights, Token.weight] at ih ⊢ <;> omega
  | case11 pending p content ts ih =>
      cases pending <;> simp [Pending.close, weights, Token.weights, Token.weight] at ih ⊢ <;> omega
  | case12 pending p b content ts _ ih => simp [Token.weights] at ih ⊢; omega
  | case13 pending p a ts _ ih =>
      cases pending <;> simp [Pending.finish, weights, Token.weights, Token.weight] at ih ⊢ <;> omega
  | case14 pending p a ts _ ih => simp [Token.weights] at ih ⊢; omega
  | case15 pending t ts _ _ ih => simp [Token.weights] at ih ⊢; omega

end Rule

end MediaSplit.Css
