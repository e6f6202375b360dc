import MediaSplit.Proofs.Css.Recutting

/-!
Lists of rules that are written again. Rules are written one after the other, with nothing between
them. Blanks are the only rules that go on with their neighbours, so what is read where a list of
intact rules is written is the list itself, rule by rule, with neighbouring blanks joined.
-/

namespace MediaSplit.Css

theorem ReadsAs.startsWith_isSpace {text rest : List Char} {l : Lexeme} (h : ReadsAs text l rest)
    (hl : l.kind ≠ .whitespace) : startsWith isSpace text = false := by
  obtain ⟨c, cs, rfl, hscan⟩ := h
  cases hspace : isSpace c with
  | false => exact hspace
  | true =>
      rw [scan, if_pos hspace] at hscan
      obtain ⟨rfl, -⟩ := Prod.mk.inj hscan
      exact absurd rfl hl

namespace Rule

/-- Nothing is written between two rules. -/
theorem separator_rules_eq_nil (r q : Rule) :
    Piece.separator ⟨r.kind, r.text⟩ ⟨q.kind, q.text⟩ = [] := by
  cases r with
  | whitespace text => simp [Piece.separator, kind, Kind.runsInto, Kind.isSign, Kind.endsInName]
  | _ => exact separator_of_isFree rfl _ _

/-- Rules are written one after the other. -/
theorem write_eq_flatMap (rules : List Rule) : write rules = rules.flatMap text := by
  induction rules with
  | nil => rfl
  | cons r rules ih =>
      cases rules with
      | nil => simp [write, Piece.join]
      | cons q rules =>
          rw [List.flatMap_cons, ← ih]
          simp only [write, List.map_cons, Piece.join, separator_rules_eq_nil, List.append_nil]

/-- Puts a rule before a list. A blank is joined with the blank that the list starts with. -/
def joinTo : Rule → List Rule → List Rule
  | .whitespace blank, .whitespace more :: rules => .whitespace (blank ++ more) :: rules
  | r, rules => r :: rules

/-- Joins neighbouring blanks. -/
def joinBlanks (rules : List Rule) : List Rule :=
  rules.foldr joinTo []

/-- Rules of which no two neighbours are blanks. -/
def AreSeparate (rules : List Rule) : Prop :=
  rules.IsChain fun r q => r.kind = .whitespace → q.kind ≠ .whitespace

/-- Rules that are read back where they are written. -/
structure IsIntact (level : Level) (r : Rule) : Prop where
  read : r.IsRead
  sound : r.isSound = true
  whole : r.IsWhole level
  finished : ∀ place, r ≠ .unfinished place

section Joining

variable {level : Level} {r : Rule} {rules : List Rule}

theorem joinTo_cases (r : Rule) (rules : List Rule) :
    (∃ blank more rest, r = .whitespace blank ∧ rules = .whitespace more :: rest ∧
      joinTo r rules = .whitespace (blank ++ more) :: rest) ∨
    joinTo r rules = r :: rules ∧
      ∀ q ∈ rules.head?, r.kind = .whitespace → q.kind ≠ .whitespace := by
  unfold joinTo
  split
  · exact .inl ⟨_, _, _, rfl, rfl, rfl⟩
  · rename_i hne
    refine .inr ⟨rfl, ?_⟩
    intro q hq hr hblank
    cases rules with
    | nil => exact nomatch hq
    | cons p rest =>
        obtain rfl := Option.some.inj hq
        cases r with
        | whitespace blank =>
            cases p with
            | whitespace more => exact hne blank more rest rfl rfl
            | _ => exact nomatch hblank
        | _ => exact nomatch hr

theorem flatMap_joinBlanks (rules : List Rule) :
    (joinBlanks rules).flatMap text = rules.flatMap text := by
  induction rules with
  | nil => rfl
  | cons r rules ih =>
      rw [List.flatMap_cons, ← ih, joinBlanks, List.foldr_cons]
      rcases joinTo_cases r (rules.foldr joinTo []) with ⟨blank, more, rest, rfl, hrest, hjoin⟩ |
        ⟨hjoin, -⟩
      · rw [joinBlanks, hjoin, hrest]
        simp [text]
      · rw [hjoin, List.flatMap_cons]
        rfl

theorem areSeparate_joinBlanks (rules : List Rule) : AreSeparate (joinBlanks rules) := by
  induction rules with
  | nil => exact .nil
  | cons r rules ih =>
      rw [joinBlanks, List.foldr_cons]
      rcases joinTo_cases r (rules.foldr joinTo []) with ⟨blank, more, rest, rfl, hrest, hjoin⟩ |
        ⟨hjoin, hapart⟩
      · rw [joinBlanks, hrest, AreSeparate, List.isChain_cons] at ih
        rw [hjoin, AreSeparate, List.isChain_cons]
        exact ih
      · rw [hjoin, AreSeparate, List.isChain_cons]
        exact ⟨hapart, ih⟩

/-- A rule of the joined list is a blank or one of the rules. -/
theorem mem_of_mem_joinBlanks (h : r ∈ joinBlanks rules) : r.kind = .whitespace ∨ r ∈ rules := by
  induction rules with
  | nil => exact absurd h List.not_mem_nil
  | cons q rules ih =>
      have htail (h : r ∈ joinBlanks rules) : r.kind = .whitespace ∨ r ∈ q :: rules :=
        (ih h).imp_right (List.mem_cons_of_mem q)
      rw [joinBlanks, List.foldr_cons] at h
      rcases joinTo_cases q (rules.foldr joinTo []) with ⟨blank, more, rest, rfl, hrest, hjoin⟩ |
        ⟨hjoin, -⟩
      · rw [hjoin, List.mem_cons] at h
        rcases h with rfl | h
        · exact .inl rfl
        · apply htail
          rw [joinBlanks, hrest]
          exact List.mem_cons_of_mem _ h
      · rw [hjoin, List.mem_cons] at h
        rcases h with rfl | h
        · exact .inr List.mem_cons_self
        · exact htail h

/-- Two blanks that are joined are read back as one. -/
theorem IsIntact.join {blank more : List Char} (h : IsIntact level (.whitespace blank))
    (h' : IsIntact level (.whitespace more)) : IsIntact level (.whitespace (blank ++ more)) := by
  have hblank {text : List Char} (h : IsIntact level (.whitespace text)) :
      text ≠ [] ∧ ∀ c ∈ text, isSpace c = true := by
    obtain ⟨s, hs, hrow⟩ := h.read.row
    exact hrow.wellFormed hs _ List.mem_cons_self
  have hne : blank ++ more ≠ [] := List.append_ne_nil_of_left_ne_nil (hblank h).1 more
  have hspace : ∀ c ∈ blank ++ more, isSpace c = true :=
    List.forall_mem_append.mpr ⟨(hblank h).2, (hblank h').2⟩
  have hnormal : IsNormalized (blank ++ more) :=
    IsNormalized.append_iff.mpr ⟨h.read.isNormalized_text h.sound,
      h'.read.isNormalized_text h'.sound⟩
  have hreads : ReadsAs (blank ++ more) (.atom (.whitespace (blank ++ more))) [] := by
    have hread := @readsAs_whitespace [] (blank ++ more) hne hspace rfl
    rwa [List.append_nil] at hread
  refine ⟨⟨trivial, ⟨blank ++ more, hnormal, .cons hreads (.nil [])⟩, ?_⟩, rfl, trivial, nofun⟩
  intro l hl
  rw [List.mem_singleton.mp hl]
  rfl

theorem isIntact_joinBlanks (h : ∀ r ∈ rules, r.IsIntact level) :
    ∀ r ∈ joinBlanks rules, r.IsIntact level := by
  induction rules with
  | nil => exact h
  | cons q rules ih =>
      rw [List.forall_mem_cons] at h
      have hrules := ih h.2
      rw [joinBlanks, List.foldr_cons]
      rcases joinTo_cases q (rules.foldr joinTo []) with ⟨blank, more, rest, rfl, hrest, hjoin⟩ |
        ⟨hjoin, -⟩
      · rw [joinBlanks, hrest, List.forall_mem_cons] at hrules
        rw [hjoin, List.forall_mem_cons]
        exact ⟨h.1.join hrules.1, hrules.2⟩
      · rw [hjoin, List.forall_mem_cons]
        exact ⟨h.1, hrules⟩

end Joining

section Reading

variable {level : Level} {r : Rule} {rules : List Rule}

/-- The text of intact rules starts with a blank only if the rules do. -/
theorem startsWith_flatMap (h : ∀ q ∈ rules, q.IsIntact level)
    (hhead : ∀ q ∈ rules.head?, q.kind ≠ .whitespace) :
    startsWith isSpace (rules.flatMap text) = false := by
  cases rules with
  | nil => rfl
  | cons q rules =>
      obtain ⟨hread, hsound, hwhole, hfinished⟩ := h q List.mem_cons_self
      have hkind := hhead q rfl
      obtain ⟨l, ls, hsettled, hl⟩ := exists_settled hwhole hfinished hkind
      have hreads := @reads_settled q hread hsound (rules.flatMap text)
        fun hblank => absurd hblank hkind
      rw [hsettled] at hreads
      rw [List.flatMap_cons]
      cases hreads with
      | cons hfirst _ => exact hfirst.startsWith_isSpace hl

/-- Reading the text of rules starts with reading the first of them. -/
theorem exists_lexemes_cons (h : ∀ q ∈ r :: rules, q.IsIntact level)
    (hapart : AreSeparate (r :: rules)) :
    ∃ taken, lexemes ((r :: rules).flatMap text) = taken ++ lexemes (rules.flatMap text) ∧
      taken.map Prod.snd = r.settled := by
  rw [List.forall_mem_cons] at h
  rw [AreSeparate, List.isChain_cons] at hapart
  rw [List.flatMap_cons]
  apply Reads.exists_lexemes
  apply reads_settled h.1.read h.1.sound
  intro hblank
  exact startsWith_flatMap h.2 fun q hq => hapart.1 q hq hblank

theorem oversizedDigits?_of_mem_lexemes (h : ∀ r ∈ rules, r.IsIntact level)
    (hapart : AreSeparate rules) :
    ∀ l ∈ lexemes (rules.flatMap text), l.2.oversizedDigits? = none := by
  induction rules with
  | nil =>
      rw [List.flatMap_nil, lexemes]
      exact fun l hl => absurd hl List.not_mem_nil
  | cons r rules ih =>
      obtain ⟨taken, hlexemes, htaken⟩ := exists_lexemes_cons h hapart
      rw [List.forall_mem_cons] at h
      rw [hlexemes, List.forall_mem_append]
      constructor
      · intro l hl
        apply oversizedDigits?_of_mem_settled h.1.read
        rw [← htaken]
        exact List.mem_map_of_mem hl
      · exact ih h.2 (List.IsChain.tail hapart)

/-- Nesting and cutting the text of intact rules gives the rules again. -/
theorem exists_cut (h : ∀ r ∈ rules, r.IsIntact level) (hapart : AreSeparate rules)
    (current : List Token) :
    ∃ ts, (lexemes (rules.flatMap text)).foldl Token.Builder.step ⟨[], current⟩ =
        ⟨[], ts.reverse ++ current⟩ ∧
      List.Forall₂ IsRecut rules (split level none ts) := by
  induction rules generalizing current with
  | nil =>
      refine ⟨[], ?_, .nil⟩
      rw [List.flatMap_nil, lexemes]
      rfl
  | cons r rules ih =>
      obtain ⟨taken, hlexemes, htaken⟩ := exists_lexemes_cons h hapart
      rw [List.forall_mem_cons] at h
      obtain ⟨r', ts, hrecut, hfold, hsplit⟩ :=
        exists_recut h.1.read.proper h.1.whole h.1.finished htaken current
      obtain ⟨ts', hfold', hrules⟩ := ih h.2 (List.IsChain.tail hapart) (ts.reverse ++ current)
      refine ⟨ts ++ ts', ?_, ?_⟩
      · rw [hlexemes, List.foldl_append, hfold, hfold', List.reverse_append, List.append_assoc]
      · rw [hsplit]
        exact .cons hrecut hrules

theorem isNormalized_write (h : ∀ r ∈ rules, r.IsIntact level) : IsNormalized (write rules) := by
  rw [write_eq_flatMap]
  intro c hc
  obtain ⟨r, hr, hcr⟩ := List.mem_flatMap.mp hc
  exact (h r hr).read.isNormalized_text (h r hr).sound c hcr

/-- What is written for intact rules is read as these rules, with neighbouring blanks joined. -/
theorem recut_of_write (h : ∀ r ∈ rules, r.IsIntact level) :
    (∀ l ∈ lexemes (write rules), l.2.oversizedDigits? = none) ∧
      List.Forall₂ IsRecut (joinBlanks rules)
        (ofTokens level (Token.ofLexemes (lexemes (write rules)))) := by
  have hjoined := isIntact_joinBlanks h
  have hapart := areSeparate_joinBlanks rules
  rw [write_eq_flatMap, ← flatMap_joinBlanks]
  refine ⟨oversizedDigits?_of_mem_lexemes hjoined hapart, ?_⟩
  obtain ⟨ts, hfold, hrules⟩ := exists_cut hjoined hapart []
  have htokens : Token.ofLexemes (lexemes ((joinBlanks rules).flatMap text)) = ts := by
    rw [Token.ofLexemes, Token.Builder.empty, hfold]
    simp [Token.Builder.finish]
  rw [htokens]
  exact hrules

/-- Rules that are read where others were written are written in the same way. -/
theorem write_of_recut {rules' : List Rule} (h : ∀ r ∈ rules, r.IsIntact level)
    (hrecut : List.Forall₂ IsRecut (joinBlanks rules) rules') : write rules' = write rules := by
  rw [write_eq_flatMap, write_eq_flatMap, ← flatMap_joinBlanks rules]
  have hjoined := isIntact_joinBlanks h
  generalize joinBlanks rules = joined at hrecut hjoined ⊢
  induction hrecut with
  | nil => rfl
  | cons hr _ ih =>
      rw [List.forall_mem_cons] at hjoined
      obtain ⟨hstrings, hkept⟩ := hjoined.1.read.writable hjoined.1.sound
      rw [List.flatMap_cons, List.flatMap_cons, text_of_isRecut hr hstrings hkept, ih hjoined.2]

end Reading

end Rule

end MediaSplit.Css
