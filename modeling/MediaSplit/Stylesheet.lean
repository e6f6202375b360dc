import MediaSplit.Css.Rule
import MediaSplit.SyntaxError
import MediaSplit.Text.Blank

/-!
Style sheets as rows of nodes. A media block is a node that knows its condition and the nodes
inside it; every other rule is a node that is only carried along. Nodes keep the rules they come
from, so what was read can be written again.
-/

namespace MediaSplit

/-- One node of a style sheet. The condition of a media block is the written form of its prelude,
without blanks at its ends. -/
inductive Node where
  | rule (source : Css.Rule)
  | media (condition : String) (children : List Node) (source : Css.Rule)

namespace Node

instance : Inhabited Node :=
  ⟨.rule (.whitespace [])⟩

def source : Node → Css.Rule
  | .rule source | .media _ _ source => source

/-- Blanks and comments between rules are nodes, but no rules of their own. -/
def isTrivia : Node → Bool
  | .rule (.whitespace _) | .rule (.comment _) => true
  | _ => false

def isMedia : Node → Bool
  | .media _ _ _ => true
  | .rule _ => false

def children : Node → List Node
  | .media _ children _ => children
  | .rule _ => []

def countRules (nodes : List Node) : Nat :=
  nodes.countP fun n => !n.isTrivia

def write (nodes : List Node) : String :=
  String.ofList (Css.Rule.write (nodes.map source))

def isMediaKeyword (keyword : List Char) : Bool :=
  Css.asciiLower keyword == ['m', 'e', 'd', 'i', 'a']

def conditionOf (prelude : List Css.Token) : String :=
  String.ofList (Text.trim (Css.Token.write prelude))

/-- The nodes of a rule list, or the place of the first unfinished rule. The content of a media
block is a rule list of its own and is read before what follows the block. -/
def ofRules : List Css.Rule → Except Css.Place (List Node)
  | [] => .ok []
  | .unfinished place :: _ => .error place
  | .atRule keyword prelude none :: rest => do
      let following ← ofRules rest
      if isMediaKeyword keyword then
        .ok (.media (conditionOf prelude) [] (.atRule keyword prelude none) :: following)
      else .ok (.rule (.atRule keyword prelude none) :: following)
  | .atRule keyword prelude (some content) :: rest =>
      if isMediaKeyword keyword then do
        let children ← ofRules (Css.Rule.ofTokens .nested content)
        let following ← ofRules rest
        .ok (.media (conditionOf prelude) children (.atRule keyword prelude (some content)) ::
          following)
      else do
        let following ← ofRules rest
        .ok (.rule (.atRule keyword prelude (some content)) :: following)
  | .whitespace text :: rest => do .ok (.rule (.whitespace text) :: (← ofRules rest))
  | .comment text :: rest => do .ok (.rule (.comment text) :: (← ofRules rest))
  | .qualified prelude content :: rest => do
      .ok (.rule (.qualified prelude content) :: (← ofRules rest))
termination_by rules => rules.length + Css.Rule.weights rules
decreasing_by
  all_goals simp only [Css.Rule.weights, List.length_cons]
  case _ => omega
  case _ =>
    have := Css.Rule.length_split_add_weights_le .nested none content
    simp only [Css.Rule.ofTokens]
    simp at this
    omega
  all_goals omega

end Node

structure Stylesheet where
  nodes : List Node
  path : String

namespace Stylesheet

inductive ParseFault where
  | malformed (e : SyntaxError)
  | oversizedInteger (digits : Nat)
  deriving DecidableEq, Repr

def ParseFault.message : ParseFault → String
  | .malformed e => e.message
  | .oversizedInteger digits => oversizedMessage digits

def unfinishedRule : String :=
  "EOF reached before \x7b\x7d block for a qualified rule."

/-- The tokens of a normalised text, or the length of the first integer in it that is too long. -/
def tokensOf (text : List Char) : Except Nat (List Css.Token) :=
  let lexemes := Css.lexemes text
  match lexemes.findSome? fun l => l.2.oversizedDigits? with
  | some digits => .error digits
  | none => .ok (Css.Token.ofLexemes lexemes)

def parse (path source : String) : Except ParseFault Stylesheet :=
  let text := Css.normalize source.toList
  match tokensOf text with
  | .error digits => .error (.oversizedInteger digits)
  | .ok tokens =>
      match Node.ofRules (Css.Rule.ofTokens .top tokens) with
      | .error place =>
          let position := place.position text
          .error (.malformed ⟨unfinishedRule, some position.line, some position.column, path⟩)
      | .ok nodes => .ok ⟨nodes, path⟩

def write (s : Stylesheet) : String :=
  Node.write s.nodes

def mediaBlocks (s : Stylesheet) : List Node :=
  s.nodes.filter Node.isMedia

def ruleCount (s : Stylesheet) : Nat :=
  Node.countRules s.nodes

end Stylesheet

end MediaSplit
