import Mathlib.Data.List.Chain
import MediaSplit.Proofs.Css.Nesting

/-!
Writing token trees. The written form of a row of tokens is that of its lexemes, as long as no
string in it is cut short and every lone backslash stands before a blank. What is read where a
row is written is written in the same way again.
-/

namespace MediaSplit.Css

/-- The text of a row of pieces behind one of the kind `k`. -/
def joinAfter : Kind → List Piece → List Char
  | _, [] => []
  | k, p :: ps => Piece.separator ⟨k, []⟩ p ++ p.text ++ joinAfter p.kind ps

/-- Kinds that nothing needs to be kept apart from. -/
def Kind.isFree (k : Kind) : Bool :=
  k == .function || k == .parentheses || k == .other || k == .literal [';']

/-- Lexemes that end what stands before them and begin something new. -/
def Lexeme.isBarrier : Lexeme → Bool
  | .openBlock .brace | .close _ => true
  | .atom (.literal text) => text == [';']
  | _ => false

/-- Rows in which a blank follows each lone backslash. -/
def IsKept (ls : List Lexeme) : Prop :=
  ls.IsChain fun l m => l = .atom (.literal ['\\']) → m.kind = .whitespace

/-- Rows in which no string is cut short. -/
def HasClosedStrings (ls : List Lexeme) : Prop :=
  ∀ value, Lexeme.atom (.string value false) ∉ ls

def Token.lastKind (k : Kind) : List Token → Kind
  | [] => k
  | t :: ts => lastKind t.kind ts

@[elab_as_elim]
theorem Token.rows_induction {motive : List Token → Prop} (nil : motive [])
    (atom : ∀ p a ts, motive ts → motive (.atom p a :: ts))
    (function : ∀ p name args ts, motive args → motive ts → motive (.function p name args :: ts))
    (block : ∀ p b content ts, motive content → motive ts → motive (.block p b content :: ts))
    (stray : ∀ p b ts, motive ts → motive (.stray p b :: ts)) : ∀ ts, motive ts
  | [] => nil
  | .atom p a :: ts => atom p a ts (rows_induction nil atom function block stray ts)
  | .function p name args :: ts =>
      function p name args ts (rows_induction nil atom function block stray args)
        (rows_induction nil atom function block stray ts)
  | .block p b content :: ts =>
      block p b content ts (rows_induction nil atom function block stray content)
        (rows_induction nil atom function block stray ts)
  | .stray p b :: ts => stray p b ts (rows_induction nil atom function block stray ts)

theorem not_runsInto_of_isFree {k : Kind} (h : k.isFree = true) (m : Kind) :
    k.runsInto m = false := by
  simp only [Kind.isFree, Bool.or_eq_true, beq_iff_eq] at h
  rcases h with ((rfl | rfl) | rfl) | rfl <;> simp [Kind.runsInto, Kind.isSign, Kind.endsInName]

theorem separator_of_isFree {k : Kind} (h : k.isFree = true) (text : List Char) (p : Piece) :
    Piece.separator ⟨k, text⟩ p = [] := by
  have hne : k ≠ .literal ['\\'] := by
    rintro rfl
    exact absurd h (by decide)
  rw [Piece.separator, if_neg (by simp [not_runsInto_of_isFree h]), if_neg (by simp [hne])]

theorem joinAfter_of_isFree {k : Kind} (h : k.isFree = true) (ps : List Piece) :
    joinAfter k ps = Piece.join ps := by
  induction ps generalizing k with
  | nil => rfl
  | cons p ps ih =>
      rw [joinAfter, separator_of_isFree h, List.nil_append]
      cases ps with
      | nil => simp [joinAfter, Piece.join]
      | cons q qs =>
          have hq : joinAfter p.kind (q :: qs) = Piece.separator p q ++ Piece.join (q :: qs) := by
            have hjoin := ih (k := .other) rfl
            rw [joinAfter, separator_of_isFree rfl, List.nil_append] at hjoin
            rw [joinAfter, ← hjoin, List.append_assoc]
            rfl
          rw [hq, Piece.join, List.append_assoc]

namespace HasClosedStrings

theorem of_subset {ls ms : List Lexeme} (h : HasClosedStrings ms) (hsub : ∀ l ∈ ls, l ∈ ms) :
    HasClosedStrings ls :=
  fun value hmem => h value (hsub _ hmem)

theorem tail {l : Lexeme} {ls : List Lexeme} (h : HasClosedStrings (l :: ls)) :
    HasClosedStrings ls :=
  h.of_subset fun _ => List.mem_cons_of_mem _

theorem append_iff {ls ms : List Lexeme} :
    HasClosedStrings (ls ++ ms) ↔ HasClosedStrings ls ∧ HasClosedStrings ms := by
  simp only [HasClosedStrings, List.mem_append, not_or]
  exact ⟨fun h => ⟨fun value => (h value).1, fun value => (h value).2⟩,
    fun h value => ⟨h.1 value, h.2 value⟩⟩

end HasClosedStrings

namespace IsKept

theorem tail {l : Lexeme} {ls : List Lexeme} (h : IsKept (l :: ls)) : IsKept ls :=
  List.IsChain.tail h

theorem of_append {ls ms : List Lexeme} (h : IsKept (ls ++ ms)) : IsKept ms :=
  List.IsChain.right_of_append h

theorem whitespace {l : Lexeme} {ls : List Lexeme} (h : IsKept (.atom (.literal ['\\']) :: l :: ls)) :
    l.kind = .whitespace :=
  List.IsChain.rel_head? h rfl rfl

end IsKept

private theorem lastEndsInOpenString_cons {t : Token} {ts : List Token}
    (ht : t.endsInOpenString = false) (hts : Token.lastEndsInOpenString ts = false) :
    Token.lastEndsInOpenString (t :: ts) = false := by
  cases ts with
  | nil => exact ht
  | cons u us => exact hts

theorem lastEndsInOpenString_eq_false {ts : List Token} (h : HasClosedStrings (Token.rows ts)) :
    Token.lastEndsInOpenString ts = false := by
  induction ts using Token.rows_induction with
  | nil => rfl
  | atom p a ts ih =>
      rw [Token.rows, HasClosedStrings.append_iff] at h
      refine lastEndsInOpenString_cons ?_ (ih h.2)
      cases a with
      | string value closed =>
          cases closed with
          | true => rfl
          | false => exact absurd (List.mem_singleton.mpr rfl) (h.1 value)
      | _ => rfl
  | function p name args ts hargs ih =>
      rw [Token.rows, HasClosedStrings.append_iff] at h
      refine lastEndsInOpenString_cons (hargs (h.1.of_subset ?_)) (ih h.2)
      intro l hl
      simp [Token.row, hl]
  | block p b content ts _ ih =>
      rw [Token.rows, HasClosedStrings.append_iff] at h
      exact lastEndsInOpenString_cons rfl (ih h.2)
  | stray p b ts ih =>
      rw [Token.rows, HasClosedStrings.append_iff] at h
      exact lastEndsInOpenString_cons rfl (ih h.2)

section Barriers

variable {l : Lexeme}

theorem Lexeme.isBarrier_cases (h : l.isBarrier = true) :
    l = .openBlock .brace ∨ (∃ b, l = .close b) ∨ l = .atom (.literal [';']) := by
  unfold Lexeme.isBarrier at h
  split at h
  · exact .inl rfl
  · exact .inr (.inl ⟨_, rfl⟩)
  · rw [beq_iff_eq.mp h]
    exact .inr (.inr rfl)
  · exact absurd h (by decide)

theorem isFree_of_isBarrier (h : l.isBarrier = true) : l.kind.isFree = true := by
  rcases Lexeme.isBarrier_cases h with rfl | ⟨b, rfl⟩ | rfl <;> rfl

theorem reread_of_isBarrier (h : l.isBarrier = true) : l.reread = l := by
  rcases Lexeme.isBarrier_cases h with rfl | ⟨b, rfl⟩ | rfl <;> rfl

/-- Nothing runs into a barrier. -/
theorem runsInto_of_isBarrier (k : Kind) (h : l.isBarrier = true) :
    k.runsInto l.kind = false := by
  have hk : l.kind = .other ∨ l.kind = .literal [';'] := by
    rcases Lexeme.isBarrier_cases h with rfl | ⟨b, rfl⟩ | rfl
    · exact .inl rfl
    · exact .inl rfl
    · exact .inr rfl
  rcases hk with hk | hk <;>
    simp [hk, Kind.runsInto, Kind.isSign, Kind.isNumeric, Kind.startsWithName]

theorem not_whitespace_of_isBarrier (h : l.isBarrier = true) : l.kind ≠ .whitespace := by
  rcases Lexeme.isBarrier_cases h with rfl | ⟨b, rfl⟩ | rfl <;> exact fun hk => nomatch hk

end Barriers

section Rows

variable {l : Lexeme} {k : Kind} {ts : List Token} {rest : List Lexeme}

/-- A token that is a lone backslash is its only lexeme. -/
private theorem row_of_backslash {t : Token} (h : t.kind = .literal ['\\']) :
    t.row = [.atom (.literal ['\\'])] := by
  cases t with
  | atom p a =>
      cases a with
      | literal text =>
          obtain rfl := Kind.literal.inj h
          rfl
      | _ => exact nomatch h
  | function p name args => exact nomatch h
  | block p b content => cases b <;> exact nomatch h
  | stray p b => exact nomatch h

/-- No backslash is the last before a barrier. -/
theorem lastKind_ne_backslash (hk : ts = [] → k ≠ .literal ['\\'])
    (hkept : IsKept (Token.rows ts ++ l :: rest)) (hl : l.isBarrier = true) :
    Token.lastKind k ts ≠ .literal ['\\'] := by
  induction ts generalizing k with
  | nil => exact hk rfl
  | cons t ts ih =>
      rw [Token.rows, List.append_assoc] at hkept
      refine ih ?_ hkept.of_append
      rintro rfl hbackslash
      rw [row_of_backslash hbackslash] at hkept
      exact not_whitespace_of_isBarrier hl hkept.whitespace

theorem joinAfter_barrier (hk : k ≠ .literal ['\\']) (hl : l.isBarrier = true)
    (ls : List Lexeme) :
    joinAfter k ((l :: ls).map Lexeme.piece) = l.text ++ writeRow ls := by
  have hseparator : Piece.separator ⟨k, []⟩ l.piece = [] := by
    rw [Piece.separator, if_neg (by simp [Lexeme.piece, runsInto_of_isBarrier k hl]),
      if_neg (by simp [hk])]
  rw [List.map_cons, joinAfter, hseparator]
  exact congrArg (l.text ++ ·) (joinAfter_of_isFree (isFree_of_isBarrier hl) _)

private theorem separator_text {k m : Kind} (hm : m.isFree = true) (text text' : List Char) :
    Piece.separator ⟨k, []⟩ ⟨m, text⟩ = Piece.separator ⟨k, []⟩ ⟨m, text'⟩ := by
  have hne : m ≠ .whitespace := by
    rintro rfl
    exact absurd hm (by decide)
  simp [Piece.separator, hne]

/-- The piece of a token with others inside is what its first lexeme, the tokens inside and the
closing bracket are written as. -/
private theorem joinAfter_opened {first : Lexeme} {inside : List Token} {b : Bracket}
    {text : List Char} (hfirst : first.kind.isFree = true)
    (hkept : IsKept (Token.rows inside ++ .close b :: (Token.rows ts ++ rest)))
    (hinside : joinAfter first.kind
        ((Token.rows inside ++ .close b :: (Token.rows ts ++ rest)).map Lexeme.piece) =
      joinAfter first.kind (Token.pieces inside) ++
        joinAfter (Token.lastKind first.kind inside)
          ((Lexeme.close b :: (Token.rows ts ++ rest)).map Lexeme.piece))
    (hts : joinAfter first.kind ((Token.rows ts ++ rest).map Lexeme.piece) =
      joinAfter first.kind (Token.pieces ts) ++
        joinAfter (Token.lastKind first.kind ts) (rest.map Lexeme.piece))
    (htext : text = first.text ++ (Token.write inside ++ [b.closing])) :
    joinAfter k ((first :: (Token.rows inside ++ .close b :: (Token.rows ts ++ rest))).map
        Lexeme.piece) =
      joinAfter k (⟨first.kind, text⟩ :: Token.pieces ts) ++
        joinAfter (Token.lastKind first.kind ts) (rest.map Lexeme.piece) := by
  have hlast : Token.lastKind first.kind inside ≠ .literal ['\\'] := by
    refine lastKind_ne_backslash (fun _ hbackslash => ?_) hkept rfl
    rw [hbackslash] at hfirst
    exact absurd hfirst (by decide)
  rw [List.map_cons, joinAfter, joinAfter]
  change _ ++ _ ++ joinAfter first.kind _ = _
  have hrow : writeRow (Token.rows ts ++ rest) = joinAfter first.kind (Token.pieces ts) ++
      joinAfter (Token.lastKind first.kind ts) (rest.map Lexeme.piece) :=
    (joinAfter_of_isFree hfirst _).symm.trans hts
  rw [hinside, joinAfter_barrier hlast rfl, joinAfter_of_isFree hfirst (Token.pieces inside), hrow,
    separator_text hfirst text first.text, htext]
  simp [Lexeme.piece, Lexeme.text, Token.write]

/-- What is written for a token is written for its lexemes. -/
theorem joinAfter_rows (hstrings : HasClosedStrings (Token.rows ts))
    (hkept : IsKept (Token.rows ts ++ rest)) :
    joinAfter k ((Token.rows ts ++ rest).map Lexeme.piece) =
      joinAfter k (Token.pieces ts) ++
        joinAfter (Token.lastKind k ts) (rest.map Lexeme.piece) := by
  induction ts using Token.rows_induction generalizing k rest with
  | nil => rfl
  | atom p a ts ih =>
      rw [Token.rows, HasClosedStrings.append_iff] at hstrings
      have hrest := ih (k := a.kind) hstrings.2 hkept.tail
      have hrow : Token.rows (.atom p a :: ts) ++ rest = .atom a :: (Token.rows ts ++ rest) := rfl
      rw [hrow, List.map_cons, joinAfter]
      change _ ++ _ ++ joinAfter a.kind _ = _
      rw [hrest, ← List.append_assoc]
      rfl
  | function p name args ts hargs ih =>
      have hrow : Token.rows (.function p name args :: ts) ++ rest =
          .openFunction name :: (Token.rows args ++ .close .paren :: (Token.rows ts ++ rest)) := by
        simp [Token.rows_function]
      rw [hrow] at hkept ⊢
      rw [Token.rows_function] at hstrings
      obtain ⟨hargs', hts'⟩ := HasClosedStrings.append_iff.mp hstrings.tail
      exact joinAfter_opened rfl hkept.tail (hargs hargs' hkept.tail)
        (ih hts'.tail (hkept.tail.of_append).tail) (by
          rw [Token.text, lastEndsInOpenString_eq_false hargs', Lexeme.text, Token.write]
          simp [Bracket.closing])
  | block p b content ts hcontent ih =>
      have hrow : Token.rows (.block p b content :: ts) ++ rest =
          .openBlock b :: (Token.rows content ++ .close b :: (Token.rows ts ++ rest)) := by
        simp [Token.rows_block]
      rw [hrow] at hkept ⊢
      rw [Token.rows_block] at hstrings
      obtain ⟨hcontent', hts'⟩ := HasClosedStrings.append_iff.mp hstrings.tail
      have hkind : (Token.block p b content).kind = (Lexeme.openBlock b).kind := by cases b <;> rfl
      have hfree : (Lexeme.openBlock b).kind.isFree = true := by cases b <;> rfl
      rw [Token.pieces, Token.lastKind, hkind]
      exact joinAfter_opened hfree hkept.tail (hcontent hcontent' hkept.tail)
        (ih hts'.tail (hkept.tail.of_append).tail) (by
          rw [Token.text, Lexeme.text, Token.write]
          simp)
  | stray p b ts ih =>
      have hrow : Token.rows (.stray p b :: ts) ++ rest = .close b :: (Token.rows ts ++ rest) := rfl
      rw [hrow] at hkept ⊢
      have hrest := ih (k := .other) hstrings.tail hkept.tail
      rw [List.map_cons, joinAfter]
      change _ ++ _ ++ joinAfter .other _ = _
      rw [hrest, ← List.append_assoc]
      rfl

/-- A row up to a barrier is written token by token. -/
theorem writeRow_append_barrier (hstrings : HasClosedStrings (Token.rows ts))
    (hkept : IsKept (Token.rows ts ++ l :: rest)) (hl : l.isBarrier = true) :
    writeRow (Token.rows ts ++ l :: rest) = Token.write ts ++ (l.text ++ writeRow rest) := by
  have hlast : Token.lastKind .other ts ≠ .literal ['\\'] :=
    lastKind_ne_backslash (fun _ h => nomatch h) hkept hl
  rw [writeRow, ← joinAfter_of_isFree (k := .other) rfl, joinAfter_rows hstrings hkept,
    joinAfter_barrier hlast hl, joinAfter_of_isFree rfl]
  rfl

end Rows

section Settling

theorem writeUnit_rereadUnit (unit : List Char) : writeUnit (rereadUnit unit) = writeUnit unit := by
  cases unit with
  | nil => rfl
  | cons c rest =>
      by_cases h : ((c == 'e' || c == 'E') && (rest.isEmpty || rest.head? == some '-')) = true
      · have hrest : (('e' == 'e' || 'e' == 'E') &&
            (rest.isEmpty || rest.head? == some '-')) = true := by
          rw [Bool.and_eq_true] at h
          simp [h.2]
        rw [rereadUnit, if_pos h, writeUnit, if_pos hrest, writeUnit, if_pos h]
      · rw [rereadUnit, if_neg h]

theorem Lexeme.piece_reread (l : Lexeme) : l.reread.piece = l.piece := by
  cases l with
  | atom a =>
      cases a with
      | dimension numeral unit =>
          change Piece.mk .dimension (numeral ++ writeUnit (rereadUnit unit)) = _
          rw [writeUnit_rereadUnit]
          rfl
      | _ => rfl
  | _ => rfl

theorem Lexeme.text_reread (l : Lexeme) : l.reread.text = l.text :=
  congrArg Piece.text l.piece_reread

theorem not_runsInto_backslash (m : Kind) : Kind.runsInto (.literal ['\\']) m = false := by
  simp [Kind.runsInto, Kind.isSign, Kind.endsInName]

/-- Nothing is written before a comment that is itself written to keep two lexemes apart. -/
private theorem separator_comment {l m : Lexeme} (h : l.kind.runsInto m.kind = true)
    (text : List Char) : Piece.separator l.piece (Lexeme.atom (.comment text)).piece = [] := by
  have hne : l.kind ≠ .literal ['\\'] := by
    intro hkind
    rw [hkind, not_runsInto_backslash] at h
    exact absurd h (by decide)
  have hother : l.kind.runsInto .other = false := runsInto_of_isBarrier (l := .close .paren) _ rfl
  rw [Piece.separator, if_neg, if_neg (by simp [Lexeme.piece, hne])]
  intro hrun
  rw [show (Lexeme.atom (.comment text)).piece.kind = .other from rfl] at hrun
  exact absurd (hother.symm.trans hrun) (by decide)

theorem settle_cons (l : Lexeme) (ls : List Lexeme) :
    settle (l :: ls) = l.reread :: (separators l ls ++ settle ls) := rfl

/-- A separator is written as a part of the row or between its lexemes. -/
theorem writeRow_settle (ls : List Lexeme) : writeRow (settle ls) = writeRow ls := by
  induction ls with
  | nil => rfl
  | cons l ls ih =>
      cases ls with
      | nil => simp [writeRow, settle, separators, Lexeme.piece_reread]
      | cons m ms =>
          rw [settle, writeRow_cons, ← ih, settle_cons]
          by_cases hrun : l.kind.runsInto m.kind = true
          · have hcomment : separators l (m :: ms) = [.atom (.comment [])] := if_pos hrun
            have hwritten : Piece.separator l.piece m.piece = ['/', '*', '*', '/'] := if_pos hrun
            have hafter : Piece.separator (Lexeme.atom (.comment [])).piece m.reread.piece = [] :=
              separator_of_isFree rfl _ _
            rw [hcomment, hwritten, List.singleton_append, writeRow_cons, writeRow_cons,
              Lexeme.piece_reread l, separator_comment hrun, hafter, Lexeme.text_reread]
            rfl
          · have hnone : separators l (m :: ms) = [] := if_neg hrun
            rw [hnone, List.nil_append, writeRow_cons, Lexeme.piece_reread, Lexeme.piece_reread,
              Lexeme.text_reread]

theorem settle_append_barrier {l : Lexeme} (xs ys : List Lexeme) (hl : l.isBarrier = true) :
    settle (xs ++ l :: ys) = settle xs ++ l :: settle ys := by
  have hafter : separators l ys = [] := by
    cases ys with
    | nil => rfl
    | cons m ms => exact if_neg (by simp [not_runsInto_of_isFree (isFree_of_isBarrier hl)])
  induction xs with
  | nil => rw [List.nil_append, settle_cons, reread_of_isBarrier hl, hafter]; rfl
  | cons x xs ih =>
      have hbefore : separators x (xs ++ l :: ys) = separators x xs := by
        cases xs with
        | nil => exact if_neg (by simp [runsInto_of_isBarrier _ hl])
        | cons y zs => rfl
      rw [List.cons_append, settle_cons, ih, hbefore, settle_cons, List.cons_append,
        List.append_assoc]

theorem isKept_settle {ls : List Lexeme} (h : IsKept ls) : IsKept (settle ls) := by
  induction ls with
  | nil => exact h
  | cons l ls ih =>
      cases ls with
      | nil => exact List.isChain_singleton _
      | cons m ms =>
          have hrest := ih h.tail
          have hbackslash (heq : l.reread = .atom (.literal ['\\'])) :
              l = .atom (.literal ['\\']) := eq_of_reread_eq heq rfl
          rw [settle_cons] at hrest
          rw [settle_cons, settle_cons]
          by_cases hrun : l.kind.runsInto m.kind = true
          · have hcomment : separators l (m :: ms) = [.atom (.comment [])] := if_pos hrun
            rw [hcomment]
            refine .cons_cons (fun heq => ?_) (.cons_cons (fun heq => nomatch heq) hrest)
            rw [hbackslash heq] at hrun
            exact absurd hrun (by simp [Lexeme.kind, Atom.kind, not_runsInto_backslash])
          · have hnone : separators l (m :: ms) = [] := if_neg hrun
            rw [hnone]
            refine .cons_cons (fun heq => ?_) hrest
            rw [hbackslash heq] at h
            rw [Lexeme.kind_reread]
            exact h.whitespace

theorem hasClosedStrings_settle {ls : List Lexeme} (h : HasClosedStrings ls) :
    HasClosedStrings (settle ls) := by
  induction ls with
  | nil => exact h
  | cons l ls ih =>
      intro value hmem
      rw [settle_cons, List.mem_cons, List.mem_append] at hmem
      rcases hmem with heq | hmem | hmem
      · exact h value (List.mem_cons.mpr (.inl (eq_of_reread_eq heq.symm rfl).symm))
      · unfold separators at hmem
        split at hmem
        · exact absurd hmem List.not_mem_nil
        · split at hmem
          · exact nomatch List.mem_singleton.mp hmem
          · exact absurd hmem List.not_mem_nil
      · exact ih h.tail value hmem

theorem isSound_of_isSoundRow {ls : List Lexeme} (h : isSoundRow ls = true) :
    ∀ l ∈ ls, l.isSound = true := by
  induction ls with
  | nil => simp
  | cons l ls ih =>
      simp only [isSoundRow, Bool.and_eq_true] at h
      intro m hm
      rcases List.mem_cons.mp hm with rfl | hm
      · exact h.1.1
      · exact ih h.2 m hm

theorem hasClosedStrings_of_isSoundRow {ls : List Lexeme} (h : isSoundRow ls = true) :
    HasClosedStrings ls :=
  fun value hmem => absurd (isSound_of_isSoundRow h _ hmem) (by simp [Lexeme.isSound, Atom.isSound])

/-- A lone backslash in a text stands at the end of a line. -/
theorem isKept_of_row {s : List Char} {ls : List Lexeme} (h : Row s ls) (hs : IsNormalized s) :
    IsKept ls := by
  induction h with
  | nil => exact .nil
  | cons h hrest ih =>
      have hscanned := h.scanned hs
      refine List.isChain_cons.mpr ⟨fun m hm heq => ?_, ih hscanned.normalized⟩
      subst heq
      cases hrest with
      | nil => exact nomatch hm
      | cons h' _ =>
          obtain rfl := Option.some.inj hm
          obtain ⟨c, cs, rfl, hscan⟩ := h'
          obtain rfl : c = '\n' := by simpa [Lexeme.endsWith, endsDelimiter] using hscanned.ends
          exact congrArg (fun scanned => scanned.1.kind) hscan.symm
      | added _ _ => exact absurd hscanned.ends (by decide)
  | added hl _ ih =>
      refine List.isChain_cons.mpr ⟨fun m _ heq => ?_, ih hs⟩
      subst heq
      exact absurd hl (by decide)

/-- Tokens that are read where tokens are written are written in the same way. -/
theorem write_eq_of_settle {ts ts' : List Token} {l : Lexeme} {ls : List Lexeme}
    (hrows : Token.rows ts' = settle (Token.rows ts)) (hstrings : HasClosedStrings (Token.rows ts))
    (hkept : IsKept (Token.rows ts ++ l :: ls)) (hl : l.isBarrier = true) :
    Token.write ts' = Token.write ts := by
  have hkept' := isKept_settle hkept
  rw [settle_append_barrier _ _ hl, ← hrows] at hkept'
  have hstrings' := hasClosedStrings_settle hstrings
  rw [← hrows] at hstrings'
  have hwritten := writeRow_settle (Token.rows ts ++ l :: ls)
  rw [settle_append_barrier _ _ hl, ← hrows, writeRow_append_barrier hstrings' hkept' hl,
    writeRow_append_barrier hstrings hkept hl, writeRow_settle] at hwritten
  exact List.append_cancel_right hwritten

end Settling

end MediaSplit.Css
