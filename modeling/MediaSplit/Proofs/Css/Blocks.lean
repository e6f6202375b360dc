import MediaSplit.Proofs.Css.Recutting

/-!
The first block in braces of a row of tokens. No rule before it has a block of its own, and every
rule that waits for a block at that place takes it, so behind it the row is cut as if it began
there.
-/

namespace MediaSplit.Css

namespace Token

/-- A row has no block in braces, or it has a first one. -/
theorem exists_firstBlock (ts : List Token) :
    (∀ t ∈ ts, t.isInline = true) ∨
      ∃ before p content after, ts = before ++ .block p .brace content :: after ∧
        ∀ t ∈ before, t.isInline = true := by
  induction ts with
  | nil => exact .inl (List.forall_mem_nil _)
  | cons t ts ih =>
      cases ht : t.isInline with
      | false =>
          cases t with
          | block p b content =>
              obtain rfl : b = .brace := by simpa [isInline] using ht
              exact .inr ⟨[], p, content, ts, rfl, List.forall_mem_nil _⟩
          | _ => cases ht
      | true =>
          rcases ih with hinline | ⟨before, p, content, after, rfl, hinline⟩
          · exact .inl (List.forall_mem_cons.mpr ⟨ht, hinline⟩)
          · exact .inr ⟨t :: before, p, content, after, rfl, List.forall_mem_cons.mpr ⟨ht, hinline⟩⟩

end Token

namespace Rule

def content? : Rule → Option (List Token)
  | .qualified _ content => some content
  | .atRule _ _ content => content
  | .whitespace _ | .comment _ | .unfinished _ => none

section Split

variable {t : Token} {ts : List Token}

theorem Pending.content?_close (content : List Token) (pending : Pending) :
    (pending.close content).content? = some content := by
  cases pending <;> rfl

theorem Pending.content?_finish (pending : Pending) : pending.finish.content? = none := by
  cases pending <;> rfl

/-- A token that is no block in braces ends no rule with a block. -/
private theorem split_cons (ht : t.isInline = true) (level : Level) (pending : Option Pending) :
    ∃ before pending', (∀ r ∈ before, r.content? = none) ∧
      ∀ rest, split level pending (t :: rest) = before ++ split level pending' rest := by
  cases pending with
  | none =>
      cases hstarts : t.startsRule level with
      | true => exact ⟨[], _, List.forall_mem_nil _, split_first hstarts ht⟩
      | false =>
          cases t with
          | atom p a =>
              cases a with
              | whitespace text =>
                  exact ⟨[.whitespace text], none, by simp [content?], fun _ => by simp [split]⟩
              | comment text =>
                  exact ⟨[.comment text], none, by simp [content?], fun _ => by simp [split]⟩
              | atKeyword keyword =>
                  exact ⟨[], some (.atRule keyword []), by simp, fun _ => by simp [split]⟩
              | _ =>
                  have hmark := of_decide_eq_true (Bool.not_eq_false' _ |>.mp hstarts)
                  exact ⟨[], none, by simp, fun _ => by
                    rw [split, if_pos hmark] <;> first | rfl | (intro _ hother; cases hother)⟩
          | function | block | stray => cases hstarts
  | some pending =>
      cases pending with
      | qualified last earlier => exact ⟨[], _, List.forall_mem_nil _, split_push ht last earlier⟩
      | atRule keyword prelude =>
          cases hplain : t.isPlain with
          | true => exact ⟨[], _, List.forall_mem_nil _, split_plain hplain level prelude⟩
          | false =>
              cases t with
              | atom p a =>
                  obtain rfl : a = .literal [';'] := by simpa [Token.isPlain] using hplain
                  exact ⟨[.atRule keyword prelude.reverse none], none, by simp [content?],
                    fun _ => by simp [split, Pending.isAtRule, Pending.finish]⟩
              | block => exact absurd ht (Bool.not_eq_true _ ▸ hplain)
              | function | stray => cases hplain

/-- A row without a block in braces makes rules without blocks, and perhaps one that waits for its
block, whatever follows. -/
theorem split_append (hts : ∀ t ∈ ts, t.isInline = true) (level : Level)
    (pending : Option Pending) :
    ∃ before pending', (∀ r ∈ before, r.content? = none) ∧
      ∀ rest, split level pending (ts ++ rest) = before ++ split level pending' rest := by
  induction ts generalizing pending with
  | nil => exact ⟨[], pending, List.forall_mem_nil _, fun _ => rfl⟩
  | cons t ts ih =>
      rw [List.forall_mem_cons] at hts
      obtain ⟨first, waiting, hfirst, hsplit⟩ := split_cons hts.1 level pending
      obtain ⟨before, pending', hbefore, hrest⟩ := ih hts.2 waiting
      refine ⟨first ++ before, pending', List.forall_mem_append.mpr ⟨hfirst, hbefore⟩,
        fun rest => ?_⟩
      rw [List.cons_append, hsplit, hrest, List.append_assoc]

theorem content?_of_mem_split (hts : ∀ t ∈ ts, t.isInline = true) (level : Level)
    (pending : Option Pending) : ∀ r ∈ split level pending ts, r.content? = none := by
  obtain ⟨before, pending', hbefore, hsplit⟩ := split_append hts level pending
  have hend : ∀ r ∈ split level pending' [], r.content? = none := by
    cases pending' with
    | none => simp [split]
    | some pending' => simp [split, pending'.content?_finish]
  rw [← List.append_nil ts, hsplit, List.forall_mem_append]
  exact ⟨hbefore, hend⟩

/-- The first block ends the first rule that has one. -/
theorem exists_split_block (hts : ∀ t ∈ ts, t.isInline = true) (level : Level)
    (pending : Option Pending) (p : Place) (content after : List Token) :
    ∃ before r, (∀ q ∈ before, q.content? = none) ∧ r.content? = some content ∧
      split level pending (ts ++ .block p .brace content :: after) =
        before ++ r :: split level none after := by
  obtain ⟨before, pending', hbefore, hsplit⟩ := split_append hts level pending
  cases pending' with
  | none =>
      refine ⟨before, .qualified [] content, hbefore, rfl, ?_⟩
      rw [hsplit]
      simp [split]
  | some pending' =>
      refine ⟨before, pending'.close content, hbefore, pending'.content?_close content, ?_⟩
      rw [hsplit]
      simp [split]

end Split

end Rule

end MediaSplit.Css
