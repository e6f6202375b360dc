import MediaSplit.Css.Rule
import MediaSplit.Proofs.Css.Printing

/-!
Rules as rows of lexemes. Each rule of a text is a part of its lexemes, with the semicolon or the
brackets added that the end of the text left out. A sound at-rule that is written anywhere is read
there as one rule again, which is written in the same way.
-/

namespace MediaSplit.Css

namespace Token

/-- Whether a token that stands between two rules starts a rule with a prelude of its own. -/
def startsRule (level : Rule.Level) : Token → Bool
  | .atom p a =>
      match a with
      | .whitespace _ | .comment _ | .atKeyword _ => false
      | a => !decide (level = .top ∧ Rule.isHidingMark (.atom p a))
  | _ => true

/-- Whether a token is no block that ends a prelude. -/
def isInline : Token → Bool
  | .block _ bracket _ => bracket != .brace
  | _ => true

/-- Whether a token at the top of a prelude does not end it. -/
def isPlain : Token → Bool
  | .block _ bracket _ => bracket != .brace
  | .atom _ a => a != .literal [';']
  | _ => true

theorem isPlain_of_isInline {t : Token} (h : t.isInline = true)
    (hne : ∀ p, t ≠ .atom p (.literal [';'])) : t.isPlain = true := by
  cases t with
  | atom p a =>
      have ha : a ≠ .literal [';'] := fun heq => hne p (congrArg (Token.atom p) heq)
      simpa [isPlain] using ha
  | block p b content => exact h
  | function p name args => rfl
  | stray p b => rfl

theorem Settled.isPlain {ts ts' : List Token} (h : Settled ts ts')
    (hts : ∀ t ∈ ts, t.isPlain = true) : ∀ t ∈ ts', t.isPlain = true := by
  induction h with
  | nil => exact hts
  | comment p _ ih => exact List.forall_mem_cons.mpr ⟨rfl, ih hts⟩
  | atom p p' a _ ih =>
      rw [List.forall_mem_cons] at hts ⊢
      refine ⟨?_, ih hts.2⟩
      cases a <;> exact hts.1
  | function p p' name _ _ _ ih =>
      rw [List.forall_mem_cons] at hts ⊢
      exact ⟨rfl, ih hts.2⟩
  | block p p' bracket _ _ _ ih =>
      rw [List.forall_mem_cons] at hts ⊢
      exact ⟨hts.1, ih hts.2⟩
  | stray p p' bracket _ ih =>
      rw [List.forall_mem_cons] at hts ⊢
      exact ⟨rfl, ih hts.2⟩

end Token

namespace Rule

def ending : Option (List Token) → List Lexeme
  | none => [.atom (.literal [';'])]
  | some content => .openBlock .brace :: (Token.rows content ++ [.close .brace])

def row : Rule → List Lexeme
  | .whitespace text => [.atom (.whitespace text)]
  | .comment text => [.atom (.comment text)]
  | .qualified prelude content => Token.rows prelude ++ ending (some content)
  | .atRule keyword prelude content =>
      .atom (.atKeyword keyword) :: (Token.rows prelude ++ ending content)
  | .unfinished _ => []

/-- Whether the tokens of an at-rule are nested as those of a text are, with none in its prelude
that ends it. -/
def IsProper : Rule → Prop
  | .atRule _ prelude content =>
      (∀ t ∈ prelude, t.isPlain = true) ∧ Token.areNestedIn none prelude = true ∧
        ∀ ts ∈ content, Token.areNestedIn (some .brace) ts = true
  | _ => True

namespace Pending

def row : Option Pending → List Lexeme
  | none => []
  | some (.atRule keyword prelude) => .atom (.atKeyword keyword) :: Token.rows prelude.reverse
  | some (.qualified last earlier) => Token.rows (last :: earlier).reverse

def IsProper : Pending → Prop
  | .atRule _ prelude =>
      (∀ t ∈ prelude, t.isPlain = true) ∧ Token.areNestedIn none prelude = true
  | .qualified _ _ => True

theorem row_push (pending : Pending) (t : Token) :
    row (some (pending.push t)) = row (some pending) ++ t.row := by
  cases pending <;> simp [push, row, Token.rows_append, Token.rows]

theorem row_close (pending : Pending) (content : List Token) :
    (pending.close content).row = row (some pending) ++ ending (some content) := by
  cases pending <;> simp [close, row, Rule.row]

theorem row_qualified (t : Token) : row (some (.qualified t [])) = t.row := by
  simp [row, Token.rows]

theorem row_finish {pending : Pending} (h : pending.isAtRule = true) :
    pending.finish.row = row (some pending) ++ [.atom (.literal [';'])] := by
  cases pending with
  | atRule keyword prelude => simp [finish, row, Rule.row, ending]
  | qualified last earlier => exact absurd h (by simp [isAtRule])

theorem IsProper.finish {pending : Pending} (h : pending.IsProper) : pending.finish.IsProper := by
  cases pending with
  | atRule keyword prelude =>
      refine ⟨fun t ht => h.1 t (List.mem_reverse.mp ht), ?_, by simp⟩
      rw [Token.areNestedIn_reverse]
      exact h.2
  | qualified last earlier => trivial

theorem IsProper.close {pending : Pending} {content : List Token} (h : pending.IsProper)
    (hcontent : Token.areNestedIn (some .brace) content = true) :
    (pending.close content).IsProper := by
  cases pending with
  | atRule keyword prelude =>
      refine ⟨fun t ht => h.1 t (List.mem_reverse.mp ht), ?_, by simpa using hcontent⟩
      rw [Token.areNestedIn_reverse]
      exact h.2
  | qualified last earlier => trivial

theorem IsProper.push {pending : Pending} {t : Token} (h : pending.IsProper)
    (ht : pending.isAtRule = true → t.isPlain = true) (hnested : t.isNestedIn none = true) :
    (pending.push t).IsProper := by
  cases pending with
  | atRule keyword prelude =>
      refine ⟨List.forall_mem_cons.mpr ⟨ht rfl, h.1⟩, ?_⟩
      rw [Token.areNestedIn, hnested, h.2]
      rfl
  | qualified last earlier => trivial

end Pending

section Split

variable {level : Level} {pending : Option Pending} {tokens : List Token} {r : Rule}

theorem rows_block_brace (p : Place) (content ts : List Token) :
    Token.rows (.block p .brace content :: ts) = ending (some content) ++ Token.rows ts := by
  simp [Token.rows_block, ending]

/-- Where a rule stands in a row that starts with the rule `first`. -/
private theorem exists_row_of_mem_cons {first : Rule} {rules : List Rule} {after : List Lexeme}
    (h : r ∈ first :: rules)
    (hrules : r ∈ rules → ∃ before behind, after = before ++ (r.row ++ behind)) :
    ∃ before behind, first.row ++ after = before ++ (r.row ++ behind) := by
  rcases List.mem_cons.mp h with rfl | h
  · exact ⟨[], after, rfl⟩
  · obtain ⟨before, behind, rfl⟩ := hrules h
    exact ⟨first.row ++ before, behind, by rw [List.append_assoc]⟩

/-- Every rule that is cut out of a row of tokens is a part of its lexemes, with a semicolon behind
them. -/
theorem exists_row_of_mem_split (h : r ∈ split level pending tokens) :
    ∃ before behind, Pending.row pending ++ (Token.rows tokens ++ [.atom (.literal [';'])]) =
      before ++ (r.row ++ behind) := by
  fun_induction split level pending tokens with
  | case1 => exact absurd h List.not_mem_nil
  | case2 pending =>
      obtain rfl := List.mem_singleton.mp h
      cases pending with
      | atRule keyword prelude =>
          exact ⟨[], [], by rw [Pending.row_finish rfl]; simp [Token.rows]⟩
      | qualified last earlier => exact ⟨[], _, rfl⟩
  | case3 p ts text ih => exact exists_row_of_mem_cons h ih
  | case4 p ts text ih => exact exists_row_of_mem_cons h ih
  | case5 p ts keyword ih => exact ih h
  | case6 p ts a _ _ _ _ ih =>
      obtain ⟨before, behind, heq⟩ := ih h
      exact ⟨.atom a :: before, behind, congrArg (Lexeme.atom a :: ·) heq⟩
  | case7 p ts a _ _ _ _ ih => exact ih h
  | case8 p content ts ih =>
      rw [rows_block_brace, List.append_assoc]
      exact exists_row_of_mem_cons h ih
  | case9 p b content ts _ ih =>
      rw [Token.rows, List.append_assoc]
      rw [Pending.row_qualified] at ih
      exact ih h
  | case10 t ts _ _ ih =>
      rw [Token.rows, List.append_assoc]
      rw [Pending.row_qualified] at ih
      exact ih h
  | case11 pending p content ts ih =>
      rw [rows_block_brace, List.append_assoc, ← List.append_assoc, ← Pending.row_close]
      exact exists_row_of_mem_cons h ih
  | case12 pending p b content ts _ ih =>
      rw [Token.rows, List.append_assoc, ← List.append_assoc, ← Pending.row_push]
      exact ih h
  | case13 pending p a ts hend ih =>
      obtain ⟨hrule, rfl⟩ := hend
      have hrow : Token.rows (.atom p (.literal [';']) :: ts) =
          [.atom (.literal [';'])] ++ Token.rows ts := rfl
      rw [hrow, List.append_assoc, ← List.append_assoc, ← Pending.row_finish hrule]
      exact exists_row_of_mem_cons h ih
  | case14 pending p a ts _ ih =>
      rw [Token.rows, List.append_assoc, ← List.append_assoc, ← Pending.row_push]
      exact ih h
  | case15 pending t ts _ _ ih =>
      rw [Token.rows, List.append_assoc, ← List.append_assoc, ← Pending.row_push]
      exact ih h

/-- What the cutting of nested tokens keeps of a rule that waits for its block, and what it makes
certain of a rule that is cut out. -/
structure Invariant (level : Level) (waiting : Pending → Prop) (cut : Rule → Prop) : Prop where
  whitespace : ∀ text, cut (.whitespace text)
  comment : ∀ text, cut (.comment text)
  bare : ∀ content, Token.areNestedIn (some .brace) content = true → cut (.qualified [] content)
  keyword : ∀ keyword, waiting (.atRule keyword [])
  first : ∀ t : Token, t.startsRule level = true → t.isInline = true →
    t.isNestedIn none = true → waiting (.qualified t [])
  push : ∀ p t, waiting p → t.isInline = true → t.isNestedIn none = true →
    (p.isAtRule = true → ∀ place, t ≠ .atom place (.literal [';'])) → waiting (p.push t)
  close : ∀ p content, waiting p → Token.areNestedIn (some .brace) content = true →
    cut (p.close content)
  finish : ∀ p, waiting p → cut p.finish

/-- Every rule that is cut out of nested tokens is as the invariant says. -/
theorem Invariant.of_mem_split {waiting : Pending → Prop} {cut : Rule → Prop}
    (inv : Invariant level waiting cut) (hpending : ∀ p ∈ pending, waiting p)
    (hnested : Token.areNestedIn none tokens = true) (h : r ∈ split level pending tokens) :
    cut r := by
  have of_cons {first : Rule} {rules : List Rule} (h : r ∈ first :: rules) (hfirst : cut first)
      (hrules : r ∈ rules → cut r) : cut r := by
    rcases List.mem_cons.mp h with rfl | h
    · exact hfirst
    · exact hrules h
  have waits {q : Pending} (hq : waiting q) : ∀ p ∈ some q, waiting p := by
    intro p hp
    rw [← Option.some.inj hp]
    exact hq
  have inline_block {p : Place} {b : Bracket} {content : List Token} (hb : ¬b = .brace) :
      (Token.block p b content).isInline = true := by
    simpa [Token.isInline] using hb
  fun_induction split level pending tokens with
  | case1 => exact absurd h List.not_mem_nil
  | case2 pending =>
      obtain rfl := List.mem_singleton.mp h
      exact inv.finish pending (hpending pending rfl)
  | case3 p ts text ih =>
      exact of_cons h (inv.whitespace text) (ih (by simp) (Token.areNestedIn_cons_iff.mp hnested).2)
  | case4 p ts text ih =>
      exact of_cons h (inv.comment text) (ih (by simp) (Token.areNestedIn_cons_iff.mp hnested).2)
  | case5 p ts keyword ih =>
      obtain ⟨-, hts⟩ := Token.areNestedIn_cons_iff.mp hnested
      exact ih (waits (inv.keyword keyword)) hts h
  | case6 p ts a _ _ _ _ ih => exact ih (by simp) (Token.areNestedIn_cons_iff.mp hnested).2 h
  | case7 p ts a hblank hcomment hkeyword hmark ih =>
      obtain ⟨ht, hts⟩ := Token.areNestedIn_cons_iff.mp hnested
      have hstarts : Token.startsRule level (.atom p a) = true := by
        cases a with
        | whitespace text => exact absurd rfl (hblank text)
        | comment text => exact absurd rfl (hcomment text)
        | atKeyword keyword => exact absurd rfl (hkeyword keyword)
        | _ => exact congrArg (!·) (decide_eq_false hmark)
      exact ih (waits (inv.first _ hstarts rfl ht)) hts h
  | case8 p content ts ih =>
      obtain ⟨hcontent, hts⟩ := Token.areNestedIn_cons_iff.mp hnested
      exact of_cons h (inv.bare content hcontent) (ih (by simp) hts)
  | case9 p b content ts hb ih =>
      obtain ⟨ht, hts⟩ := Token.areNestedIn_cons_iff.mp hnested
      exact ih (waits (inv.first _ rfl (inline_block hb) ht)) hts h
  | case10 t ts hatom hblock ih =>
      obtain ⟨ht, hts⟩ := Token.areNestedIn_cons_iff.mp hnested
      have hfirst : t.startsRule level = true ∧ t.isInline = true := by
        cases t with
        | atom p a => exact absurd rfl (hatom p a)
        | block p b content => exact absurd rfl (hblock p b content)
        | function p name args => exact ⟨rfl, rfl⟩
        | stray p b => exact ⟨rfl, rfl⟩
      exact ih (waits (inv.first _ hfirst.1 hfirst.2 ht)) hts h
  | case11 pending p content ts ih =>
      obtain ⟨hcontent, hts⟩ := Token.areNestedIn_cons_iff.mp hnested
      exact of_cons h (inv.close _ _ (hpending pending rfl) hcontent) (ih (by simp) hts)
  | case12 pending p b content ts hb ih =>
      obtain ⟨ht, hts⟩ := Token.areNestedIn_cons_iff.mp hnested
      refine ih (waits (inv.push _ _ (hpending pending rfl) (inline_block hb) ht ?_)) hts h
      intro _ place hblock
      cases hblock
  | case13 pending p a ts _ ih =>
      obtain ⟨-, hts⟩ := Token.areNestedIn_cons_iff.mp hnested
      exact of_cons h (inv.finish _ (hpending pending rfl)) (ih (by simp) hts)
  | case14 pending p a ts hend ih =>
      obtain ⟨ht, hts⟩ := Token.areNestedIn_cons_iff.mp hnested
      refine ih (waits (inv.push _ _ (hpending pending rfl) rfl ht fun hrule q heq => ?_)) hts h
      exact hend ⟨hrule, (Token.atom.inj heq).2⟩
  | case15 pending t ts hblock hatom ih =>
      obtain ⟨ht, hts⟩ := Token.areNestedIn_cons_iff.mp hnested
      have hinline : t.isInline = true := by
        cases t with
        | block p b content => exact absurd rfl (hblock p b content)
        | _ => rfl
      exact ih (waits (inv.push _ _ (hpending pending rfl) hinline ht fun _ p => hatom p _)) hts h

/-- The rules of nested tokens are proper. -/
theorem properInvariant (level : Level) : Invariant level Pending.IsProper IsProper where
  whitespace _ := trivial
  comment _ := trivial
  bare _ _ := trivial
  keyword _ := ⟨by simp, rfl⟩
  first _ _ _ _ := trivial
  push _ _ h hinline hnested hne :=
    h.push (fun hrule => Token.isPlain_of_isInline hinline (hne hrule)) hnested
  close _ _ h hcontent := h.close hcontent
  finish _ h := h.finish

end Split

end Rule

end MediaSplit.Css
