import MediaSplit.Proofs.Css.Copies

/-!
Rules that are cut out again. A sound rule, written anywhere in a rule list, is read there as one
rule of its kind: blanks and comments as they are, every other rule as a copy with the same text.
-/

namespace MediaSplit.Css

namespace Token

structure ArePrelude (level : Rule.Level) (ts : List Token) : Prop where
  starts : ∀ t ∈ ts.head?, t.startsRule level = true
  inline : ∀ t ∈ ts, t.isInline = true

theorem ArePrelude.snoc {level : Rule.Level} {ts : List Token} {t : Token}
    (h : ArePrelude level ts) (hne : ts ≠ []) (ht : t.isInline = true) :
    ArePrelude level (ts ++ [t]) := by
  constructor
  · rw [List.head?_append_of_ne_nil _ hne]
    exact h.starts
  · rw [List.forall_mem_append, List.forall_mem_singleton]
    exact ⟨h.inline, ht⟩

theorem startsRule_reread (level : Rule.Level) (p q : Place) (a : Atom) :
    startsRule level (.atom q a.reread) = startsRule level (.atom p a) := by
  cases a <;> rfl

/-- The first lexeme of a token that starts a rule is neither a blank nor a comment. -/
theorem exists_row_of_startsRule {level : Rule.Level} {t : Token}
    (h : t.startsRule level = true) :
    ∃ l ls, t.row = l :: ls ∧ l.kind ≠ .whitespace ∧ ∀ text, l ≠ .atom (.comment text) := by
  cases t with
  | atom p a =>
      refine ⟨.atom a, [], rfl, ?_, ?_⟩
      · intro hkind
        cases a with
        | whitespace text => exact nomatch h
        | _ => exact nomatch hkind
      · intro text heq
        obtain rfl := Lexeme.atom.inj heq
        exact nomatch h
  | function p name args => exact ⟨_, _, rfl, nofun, nofun⟩
  | block p b content => exact ⟨_, _, rfl, by cases b <;> exact nofun, nofun⟩
  | stray p b => exact ⟨_, _, rfl, nofun, nofun⟩

theorem Settled.isInline {ts ts' : List Token} (h : Settled ts ts')
    (hts : ∀ t ∈ ts, t.isInline = true) : ∀ t ∈ ts', t.isInline = true := by
  induction h with
  | nil => exact hts
  | comment p _ ih => exact List.forall_mem_cons.mpr ⟨rfl, ih hts⟩
  | atom p p' a _ ih | function p p' name _ _ _ ih | stray p p' bracket _ ih =>
      rw [List.forall_mem_cons] at hts ⊢
      exact ⟨rfl, ih hts.2⟩
  | block p p' bracket _ _ _ ih =>
      rw [List.forall_mem_cons] at hts ⊢
      exact ⟨hts.1, ih hts.2⟩

/-- What is read where a prelude is written starts as the prelude does. -/
theorem ArePrelude.copy {level : Rule.Level} {ts ts' : List Token} (h : ArePrelude level ts)
    (hcopy : IsCopy ts ts') : ArePrelude level ts' := by
  obtain ⟨hsettled, hrows⟩ := hcopy
  refine ⟨?_, hsettled.isInline h.inline⟩
  have hstarts := h.starts
  cases hsettled with
  | nil => exact hstarts
  | @comment p t ts ts' _ =>
      -- A comment is only added before a lexeme that runs together with the one in front of it.
      obtain ⟨l, ls, hrow, -, hne⟩ := exists_row_of_startsRule (hstarts t rfl)
      rw [rows, row, rows, hrow] at hrows
      have hfirst := (List.cons.inj hrows).1
      exact absurd (eq_of_reread_eq hfirst.symm rfl) (hne [])
  | atom p p' a _ =>
      intro t ht
      obtain rfl := Option.some.inj ht
      rw [startsRule_reread level p p' a]
      exact hstarts _ rfl
  | function p p' name _ _ | block p p' bracket _ _ | stray p p' bracket _ =>
      intro t ht
      obtain rfl := Option.some.inj ht
      rfl

end Token

namespace Rule

/-- Whether the tokens of a rule with a prelude of its own are nested as those of a text are, with
none in the prelude that would end it, and with a first one that starts such a rule. -/
def IsWhole (level : Level) : Rule → Prop
  | .qualified prelude content =>
      Token.ArePrelude level prelude ∧ Token.areNestedIn none prelude = true ∧
        Token.areNestedIn (some .brace) content = true
  | _ => True

namespace Pending

/-- What holds of the part of a prelude that has been read. -/
def IsWhole (level : Level) : Pending → Prop
  | .qualified last earlier =>
      Token.ArePrelude level (last :: earlier).reverse ∧
        Token.areNestedIn none (last :: earlier) = true
  | .atRule _ _ => True

variable {level : Level} {pending : Pending}

theorem isWhole_finish (pending : Pending) : pending.finish.IsWhole level := by
  cases pending <;> trivial

theorem IsWhole.close (h : pending.IsWhole level) {content : List Token}
    (hcontent : Token.areNestedIn (some .brace) content = true) :
    (pending.close content).IsWhole level := by
  cases pending with
  | atRule keyword prelude => trivial
  | qualified last earlier =>
      obtain ⟨hprelude, hnested⟩ := h
      refine ⟨hprelude, ?_, hcontent⟩
      rw [Token.areNestedIn_reverse]
      exact hnested

theorem IsWhole.push (h : pending.IsWhole level) {t : Token} (ht : t.isInline = true)
    (hnested : t.isNestedIn none = true) : (pending.push t).IsWhole level := by
  cases pending with
  | atRule keyword prelude => trivial
  | qualified last earlier =>
      constructor
      · rw [List.reverse_cons]
        exact h.1.snoc (by simp) ht
      · rw [Token.areNestedIn, hnested, h.2]
        rfl

theorem isWhole_first {t : Token} (hstarts : t.startsRule level = true) (ht : t.isInline = true)
    (hnested : t.isNestedIn none = true) : (Pending.qualified t []).IsWhole level := by
  refine ⟨⟨?_, ?_⟩, ?_⟩
  · intro u hu
    obtain rfl := Option.some.inj hu
    exact hstarts
  · intro u hu
    obtain rfl := List.mem_singleton.mp hu
    exact ht
  · rw [Token.areNestedIn, hnested]
    rfl

end Pending

/-- The rules of nested tokens are whole. -/
theorem wholeInvariant (level : Level) :
    Invariant level (Pending.IsWhole level) (IsWhole level) where
  whitespace _ := trivial
  comment _ := trivial
  bare _ hcontent := ⟨⟨by simp, by simp⟩, rfl, hcontent⟩
  keyword _ := trivial
  first _ hstarts hinline hnested := Pending.isWhole_first hstarts hinline hnested
  push _ _ h hinline hnested _ := h.push hinline hnested
  close _ _ h hcontent := h.close hcontent
  finish p _ := p.isWhole_finish

section Written

variable {r : Rule} {level : Level}

/-- The lexemes that are read where a rule is written. -/
def settled (r : Rule) : List Lexeme :=
  r.keywordRow ++ settle r.inside

/-- A sound rule is read back before every text, a blank before every text that does not go on
with it. -/
theorem reads_settled (hread : r.IsRead) (hsound : r.isSound = true) {tail : List Char}
    (hblank : r.kind = .whitespace → startsWith isSpace tail = false) :
    Reads (r.text ++ tail) r.settled tail := by
  obtain ⟨s, hs, hrow⟩ := hread.row
  have hwell := hrow.wellFormed hs
  cases r with
  | whitespace text =>
      obtain ⟨hne, hspace⟩ := hwell _ List.mem_cons_self
      exact .cons (readsAs_whitespace hne hspace (hblank rfl)) (.nil tail)
  | comment text =>
      exact .cons (Lexeme.readsAs_text (hwell _ List.mem_cons_self) rfl rfl rfl) (.nil tail)
  | unfinished place => exact .nil tail
  | atRule keyword prelude ends => exact reads_text hread hsound tail
  | qualified prelude content =>
      obtain ⟨hstrings, hkept⟩ := hread.writable hsound
      rw [text_eq hstrings hkept]
      exact reads_writeRow hrow hs hsound (@isClosed_body prelude (some content)) tail

/-- A rule that is no blank does not start with one where it is read. -/
theorem exists_settled (hwhole : r.IsWhole level) (hfinished : ∀ place, r ≠ .unfinished place)
    (hkind : r.kind ≠ .whitespace) : ∃ l ls, r.settled = l :: ls ∧ l.kind ≠ .whitespace := by
  cases r with
  | whitespace text => exact absurd rfl hkind
  | unfinished place => exact absurd rfl (hfinished place)
  | comment text => exact ⟨_, _, rfl, nofun⟩
  | atRule keyword prelude ends => exact ⟨_, _, rfl, nofun⟩
  | qualified prelude content =>
      cases prelude with
      | nil => exact ⟨_, _, rfl, nofun⟩
      | cons t ts =>
          obtain ⟨l, ls, hrow, hl, -⟩ := Token.exists_row_of_startsRule (hwhole.1.starts t rfl)
          rw [← l.kind_reread] at hl
          have hinside : (Rule.qualified (t :: ts) content).inside =
              l :: (ls ++ Token.rows ts ++ ending (some content)) := by
            change Token.rows (t :: ts) ++ ending (some content) = _
            rw [Token.rows, hrow]
            rfl
          rw [settled, hinside]
          exact ⟨_, _, rfl, hl⟩

theorem oversizedDigits?_of_mem_settled (hread : r.IsRead) :
    ∀ l ∈ r.settled, l.oversizedDigits? = none := by
  have hsized := hread.sized
  rw [row_eq, List.forall_mem_append] at hsized
  rw [settled, List.forall_mem_append]
  exact ⟨hsized.1, oversizedDigits?_of_mem_settle hsized.2⟩

end Written

section Recut

variable {level : Level} {prelude content : List Token}

/-- A rule that is no at-rule waits for its block, whatever else comes. -/
theorem split_push {t : Token} (h : t.isInline = true) (last : Token) (earlier ts : List Token) :
    split level (some (.qualified last earlier)) (t :: ts) =
      split level (some (.qualified t (last :: earlier))) ts := by
  cases t with
  | atom p a => simp [split, Pending.isAtRule, Pending.push]
  | block p b content =>
      have hb : b ≠ .brace := by simpa [Token.isInline] using h
      simp [split, hb, Pending.push]
  | function p name args => simp [split, Pending.push]
  | stray p b => simp [split, Pending.push]

theorem split_first {t : Token} (hstarts : t.startsRule level = true) (h : t.isInline = true)
    (ts : List Token) :
    split level none (t :: ts) = split level (some (.qualified t [])) ts := by
  cases t with
  | atom p a =>
      cases a with
      | whitespace text => cases hstarts
      | comment text => cases hstarts
      | atKeyword keyword => cases hstarts
      | _ =>
          have hmark := of_decide_eq_false (Bool.not_eq_true' _ |>.mp hstarts)
          rw [split, if_neg hmark] <;> intro _ hother <;> cases hother
  | block p b content =>
      have hb : b ≠ .brace := by simpa [Token.isInline] using h
      rw [split, if_neg hb]
  | function p name args => rfl
  | stray p b => rfl

/-- A prelude is read up to the block that ends it. -/
private theorem split_inline {ts : List Token} (h : ∀ t ∈ ts, t.isInline = true) (last : Token)
    (earlier : List Token) (q : Place) (content rest : List Token) :
    split level (some (.qualified last earlier)) (ts ++ .block q .brace content :: rest) =
      .qualified ((last :: earlier).reverse ++ ts) content :: split level none rest := by
  induction ts generalizing last earlier with
  | nil => simp [split, Pending.close]
  | cons t ts ih =>
      rw [List.forall_mem_cons] at h
      rw [List.cons_append, split_push h.1, ih h.2, List.reverse_cons, List.append_assoc,
        List.singleton_append]

theorem split_qualified (h : Token.ArePrelude level prelude) (q : Place)
    (content rest : List Token) :
    split level none (prelude ++ .block q .brace content :: rest) =
      .qualified prelude content :: split level none rest := by
  cases prelude with
  | nil => simp [split]
  | cons t ts =>
      obtain ⟨hstarts, hinline⟩ := h
      rw [List.forall_mem_cons] at hinline
      rw [List.cons_append, split_first (hstarts t rfl) hinline.1, split_inline hinline.2]
      rfl

/-- A prelude that no block ends is unfinished. -/
theorem split_unfinished (h : Token.ArePrelude level prelude) (hne : prelude ≠ []) :
    ∃ place, split level none prelude = [.unfinished place] := by
  have waits {ts : List Token} (h : ∀ t ∈ ts, t.isInline = true) (last : Token)
      (earlier : List Token) :
      ∃ place, split level (some (.qualified last earlier)) ts = [.unfinished place] := by
    induction ts generalizing last earlier with
    | nil => exact ⟨last.start, by rw [split]; rfl⟩
    | cons t ts ih =>
        rw [List.forall_mem_cons] at h
        rw [split_push h.1]
        exact ih h.2 t _
  cases prelude with
  | nil => exact absurd rfl hne
  | cons t ts =>
      obtain ⟨hstarts, hinline⟩ := h
      rw [List.forall_mem_cons] at hinline
      rw [split_first (hstarts t rfl) hinline.1]
      exact waits hinline.2 t []

/-- The rule that is read where a rule is written. -/
inductive IsRecut : Rule → Rule → Prop
  | whitespace (text : List Char) : IsRecut (.whitespace text) (.whitespace text)
  | comment (text : List Char) : IsRecut (.comment text) (.comment text)
  | qualified {prelude prelude' content content' : List Token}
      (hprelude : Token.IsCopy prelude prelude') (hcontent : Token.IsCopy content content') :
      IsRecut (.qualified prelude content) (.qualified prelude' content')
  | atRule {r r' : Rule} (h : IsCopy r r') : IsRecut r r'

/-- The rule that is read is written as the one that was written. -/
theorem text_of_isRecut {r r' : Rule} (h : IsRecut r r') (hstrings : HasClosedStrings r.inside)
    (hkept : IsKept r.inside) : r'.text = r.text := by
  cases h with
  | whitespace text => rfl
  | comment text => rfl
  | qualified hprelude hcontent =>
      obtain ⟨hclosed, hclosed'⟩ := HasClosedStrings.append_iff.mp hstrings
      have hwithin := (HasClosedStrings.append_iff.mp hclosed'.tail).1
      rw [text, text, hprelude.write_eq hclosed hkept rfl,
        hcontent.write_eq hwithin hkept.of_append.tail rfl]
  | atRule h =>
      cases h with
      | atRule hprelude hends => exact text_of_isCopy (.atRule hprelude hends) hstrings hkept

open Token (Builder) in
/-- Where a rule is read between two rules, it is cut out again. -/
theorem exists_recut {r : Rule} {taken : List (Place × Lexeme)} (hproper : r.IsProper)
    (hwhole : r.IsWhole level) (hfinished : ∀ place, r ≠ .unfinished place)
    (h : taken.map Prod.snd = r.settled) (current : List Token) :
    ∃ r' ts, IsRecut r r' ∧
      taken.foldl Builder.step ⟨[], current⟩ = ⟨[], ts.reverse ++ current⟩ ∧
      ∀ rest, split level none (ts ++ rest) = r' :: split level none rest := by
  cases r with
  | unfinished place => exact absurd rfl (hfinished place)
  | whitespace text =>
      obtain ⟨⟨p, l⟩, none, rfl, rfl, hnone⟩ := List.map_eq_cons_iff.mp h
      obtain rfl := List.map_eq_nil_iff.mp hnone
      exact ⟨_, [.atom p (.whitespace text)], .whitespace text, rfl, fun rest => rfl⟩
  | comment text =>
      obtain ⟨⟨p, l⟩, none, rfl, rfl, hnone⟩ := List.map_eq_cons_iff.mp h
      obtain rfl := List.map_eq_nil_iff.mp hnone
      exact ⟨_, [.atom p (.comment text)], .comment text, rfl, fun rest => rfl⟩
  | atRule keyword prelude ends =>
      obtain ⟨r', ts, hcopy, hfold, hsplit⟩ := exists_copy hproper h current
      exact ⟨r', ts, .atRule hcopy, hfold, hsplit level⟩
  | qualified prelude content =>
      obtain ⟨hprelude, hnested, hcontent⟩ := hwhole
      have hrow : (Rule.qualified prelude content).settled = settle (Token.rows prelude) ++
          .openBlock .brace :: (settle (Token.rows content) ++ [.close .brace]) := by
        change settle (body prelude (some content)) = _
        rw [body_some, settle_append_barrier _ _ rfl, settle_append_barrier _ _ rfl]
        rfl
      rw [hrow] at h
      obtain ⟨before, last, rfl, hbefore, hlast⟩ := List.map_eq_append_iff.mp h
      obtain ⟨⟨q, l⟩, tail, rfl, rfl, htail⟩ := List.map_eq_cons_iff.mp hlast
      obtain ⟨within, closing, rfl, hwithin, hclosing⟩ := List.map_eq_append_iff.mp htail
      obtain ⟨⟨q', l⟩, none, rfl, rfl, hnone⟩ := List.map_eq_cons_iff.mp hclosing
      obtain rfl := List.map_eq_nil_iff.mp hnone
      obtain ⟨prelude', hcopy, hfold⟩ := Builder.foldl_step_settle
        (b := ⟨[], current⟩) hbefore hnested
      obtain ⟨content', hcopy', hfold'⟩ := Builder.foldl_step_settle
        (b := Builder.openToken ⟨[], prelude'.reverse ++ current⟩ q (.block .brace)) hwithin
        hcontent
      refine ⟨.qualified prelude' content', prelude' ++ [.block q .brace content'],
        .qualified hcopy hcopy', ?_, ?_⟩
      · rw [List.foldl_append]
        refine (congrArg (List.foldl Builder.step · _) hfold).trans ?_
        rw [List.foldl_cons]
        refine (Builder.foldl_step_opened q q' hfold').trans ?_
        simp [Builder.push, Token.Opener.close]
      · intro rest
        rw [List.append_assoc]
        exact split_qualified (hprelude.copy hcopy) q content' rest

end Recut

end Rule

end MediaSplit.Css
