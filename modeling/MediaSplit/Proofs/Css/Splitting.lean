import Mathlib.Data.Option.Basic
import MediaSplit.Proofs.Css.Rules

/-!
Cutting tokens that were read where others had been written. The rules are alike one by one, with
comments between them: of the same kinds, at-rules with the same keywords, and with the same
tokens in their blocks but for comments.
-/

namespace MediaSplit.Css

namespace Rule

inductive IsAlike : Rule → Rule → Prop
  | whitespace (text : List Char) : IsAlike (.whitespace text) (.whitespace text)
  | comment (text : List Char) : IsAlike (.comment text) (.comment text)
  | qualified (prelude prelude' content content' : List Token) :
      IsAlike (.qualified prelude content) (.qualified prelude' content')
  | ended (keyword : List Char) (prelude prelude' : List Token) :
      IsAlike (.atRule keyword prelude none) (.atRule keyword prelude' none)
  | closed (keyword : List Char) (prelude prelude' : List Token) {content content' : List Token}
      (h : Token.Settled content content') :
      IsAlike (.atRule keyword prelude (some content)) (.atRule keyword prelude' (some content'))
  | unfinished (place place' : Place) : IsAlike (.unfinished place) (.unfinished place')

inductive AreAlike : List Rule → List Rule → Prop
  | nil : AreAlike [] []
  | comment {rules rules' : List Rule} (text : List Char) (h : AreAlike rules rules') :
      AreAlike rules (.comment text :: rules')
  | cons {r r' : Rule} {rules rules' : List Rule} (hr : IsAlike r r')
      (h : AreAlike rules rules') : AreAlike (r :: rules) (r' :: rules')

namespace Pending

inductive IsAlike : Pending → Pending → Prop
  | atRule (keyword : List Char) (prelude prelude' : List Token) :
      IsAlike (.atRule keyword prelude) (.atRule keyword prelude')
  | qualified (last last' : Token) (earlier earlier' : List Token) :
      IsAlike (.qualified last earlier) (.qualified last' earlier')

variable {pending pending' : Pending}

theorem IsAlike.push (h : IsAlike pending pending') (t t' : Token) :
    IsAlike (pending.push t) (pending'.push t') := by
  cases h with
  | atRule keyword prelude prelude' => exact .atRule keyword _ _
  | qualified last last' earlier earlier' => exact .qualified _ _ _ _

theorem IsAlike.push_right (h : IsAlike pending pending') (t' : Token) :
    IsAlike pending (pending'.push t') := by
  cases h with
  | atRule keyword prelude prelude' => exact .atRule keyword _ _
  | qualified last last' earlier earlier' => exact .qualified _ _ _ _

theorem IsAlike.finish (h : IsAlike pending pending') :
    Rule.IsAlike pending.finish pending'.finish := by
  cases h with
  | atRule keyword prelude prelude' => exact .ended keyword _ _
  | qualified last last' earlier earlier' => exact .unfinished _ _

theorem IsAlike.close (h : IsAlike pending pending') {content content' : List Token}
    (hcontent : Token.Settled content content') :
    Rule.IsAlike (pending.close content) (pending'.close content') := by
  cases h with
  | atRule keyword prelude prelude' => exact .closed keyword _ _ hcontent
  | qualified last last' earlier earlier' => exact .qualified _ _ _ _

theorem IsAlike.isAtRule (h : IsAlike pending pending') : pending'.isAtRule = pending.isAtRule := by
  cases h <;> rfl

end Pending

section Settled

variable {level : Level}

/-- An atom that is read where another was written is cut like it. -/
private theorem areAlike_split_atom {a : Atom} {p p' : Place} {ts ts' : List Token}
    (ih : ∀ {pending pending' : Option Pending}, Option.Rel Pending.IsAlike pending pending' →
      AreAlike (split level pending ts) (split level pending' ts'))
    {pending pending' : Option Pending} (h : Option.Rel Pending.IsAlike pending pending') :
    AreAlike (split level pending (.atom p a :: ts))
      (split level pending' (.atom p' a.reread :: ts')) := by
  cases h with
  | some h =>
      rename_i pending pending'
      have hsemicolon : a.reread = .literal [';'] ↔ a = .literal [';'] := by
        cases a <;> simp [Atom.reread]
      simp only [split, h.isAtRule, hsemicolon]
      split
      · exact .cons h.finish (ih .none)
      · exact ih (.some (h.push _ _))
  | none =>
      have hother (t t' : Token) : AreAlike (split level (some (.qualified t [])) ts)
          (split level (some (.qualified t' [])) ts') := ih (.some (.qualified t t' [] []))
      cases a with
      | whitespace text =>
          simp only [split, Atom.reread]
          exact .cons (.whitespace text) (ih .none)
      | comment text =>
          simp only [split, Atom.reread]
          exact .cons (.comment text) (ih .none)
      | atKeyword keyword =>
          simp only [split, Atom.reread]
          exact ih (.some (.atRule keyword [] []))
      | literal text =>
          have hmark : isHidingMark (.atom p' (.literal text)) =
              isHidingMark (.atom p (.literal text)) := rfl
          simp only [split, Atom.reread, hmark]
          by_cases hleft : level = .top ∧ isHidingMark (.atom p (.literal text)) = true
          · rw [if_pos hleft, if_pos hleft]
            exact ih .none
          · rw [if_neg hleft, if_neg hleft]
            exact hother _ _
      | _ =>
          simp only [split, Atom.reread, isHidingMark, Bool.false_eq_true, and_false, if_false]
          exact hother _ _

/-- Tokens that are read where tokens were written are cut like them. -/
theorem areAlike_split {ts ts' : List Token} (hts : Token.Settled ts ts')
    {pending pending' : Option Pending} (h : Option.Rel Pending.IsAlike pending pending') :
    AreAlike (split level pending ts) (split level pending' ts') := by
  induction hts generalizing pending pending' with
  | nil =>
      cases h with
      | none => exact .nil
      | some h => exact .cons h.finish .nil
  | comment p _ ih =>
      cases h with
      | none => exact .comment [] (ih .none)
      | some h =>
          simp only [split, reduceCtorEq, and_false, if_false]
          exact ih (.some (h.push_right _))
  | atom p p' a _ ih => exact areAlike_split_atom ih h
  | function p p' name _ _ _ ih =>
      cases h with
      | none => exact ih (.some (.qualified _ _ [] []))
      | some h => exact ih (.some (h.push _ _))
  | block p p' b hcontent _ _ ih =>
      cases h with
      | none =>
          simp only [split]
          split
          · exact .cons (.qualified _ _ _ _) (ih .none)
          · exact ih (.some (.qualified _ _ [] []))
      | some h =>
          simp only [split]
          split
          · exact .cons (h.close hcontent) (ih .none)
          · exact ih (.some (h.push _ _))
  | stray p p' b _ ih =>
      cases h with
      | none => exact ih (.some (.qualified _ _ [] []))
      | some h => exact ih (.some (h.push _ _))

end Settled

end Rule

end MediaSplit.Css
