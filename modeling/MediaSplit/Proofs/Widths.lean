import Mathlib.Data.List.DropRight
import MediaSplit.Proofs.Results
import MediaSplit.WidthSet

/-!
The tokens of widths. Whatever a value looks like, the tokens that it gives hold no comma, are not
empty and have no blanks around them; so a token stands for itself when it is read as a text, and a
set of widths stands for itself when it is read as a set of texts.
-/

namespace MediaSplit

namespace Text

theorem trimEnd_eq_rdropWhile (text : List Char) : trimEnd text = text.rdropWhile isBlank :=
  rfl

theorem dropWhile_trimEnd {text : List Char} (h : text.dropWhile isBlank = text) :
    (trimEnd text).dropWhile isBlank = trimEnd text := by
  have hhead := List.dropWhile_eq_self_iff.mp h
  apply List.dropWhile_eq_self_iff.mpr
  intro hpos
  have hbefore : trimEnd text <+: text := List.rdropWhile_prefix _ _
  rw [hbefore.getElem hpos]
  exact hhead (Nat.lt_of_lt_of_le hpos hbefore.length_le)

/-- Blanks that are gone once are gone. -/
theorem trim_idem (text : List Char) : trim (trim text) = trim text := by
  have hdropped : (text.dropWhile isBlank).dropWhile isBlank = text.dropWhile isBlank :=
    List.dropWhile_idempotent _ _
  have hend : trimEnd (trim text) = trim text := List.rdropWhile_idempotent _ _
  rw [trim, trim, dropWhile_trimEnd hdropped]
  exact hend

theorem mem_of_mem_trim {c : Char} {text : List Char} (h : c ∈ trim text) : c ∈ text := by
  have hmem := (List.rdropWhile_prefix isBlank (text.dropWhile isBlank)).subset h
  exact (List.dropWhile_suffix isBlank).subset hmem

/-- Without blanks there is nothing to drop. -/
theorem trim_of_no_blank {text : List Char} (h : ∀ c ∈ text, isBlank c = false) :
    trim text = text := by
  have hdropped : text.dropWhile isBlank = text := by
    apply List.dropWhile_eq_self_iff.mpr
    intro hpos
    simp [h _ (List.getElem_mem hpos)]
  rw [trim, hdropped, trimEnd_eq_rdropWhile]
  apply List.rdropWhile_eq_self_iff.mpr
  intro hne
  simp [h _ (List.getLast_mem hne)]

/-- What stands between separators holds none. -/
theorem not_mem_of_mem_splitOn {c : Char} {text part : List Char} (h : part ∈ text.splitOn c) :
    c ∉ part := by
  induction text generalizing part with
  | nil =>
      obtain rfl : part = [] := by simpa using h
      exact List.not_mem_nil
  | cons d rest ih =>
      rw [List.splitOn_cons_eq_if_modifyHead] at h
      split at h
      · rcases List.mem_cons.mp h with rfl | hpart
        · exact List.not_mem_nil
        · exact ih hpart
      · rename_i hd
        cases hrest : rest.splitOn c with
        | nil => exact absurd hrest (List.splitOn_ne_nil c rest)
        | cons first others =>
            rw [hrest, List.modifyHead_cons] at h
            rcases List.mem_cons.mp h with rfl | hpart
            · intro hmem
              rcases List.mem_cons.mp hmem with heq | hmem
              · exact hd (beq_iff_eq.mpr heq.symm)
              · exact ih (hrest ▸ List.mem_cons_self) hmem
            · exact ih (hrest ▸ List.mem_cons_of_mem _ hpart)

end Text

/-- A character that can stand in a number: it is neither blank nor a comma. -/
def IsFigure (c : Char) : Prop :=
  Text.isBlank c = false ∧ c ≠ ','

instance (c : Char) : Decidable (IsFigure c) :=
  inferInstanceAs (Decidable (_ ∧ _))

theorem IsFigure.of_isDigit {c : Char} (h : c.isDigit = true) : IsFigure c := by
  obtain ⟨hfrom, hto⟩ : 48 ≤ c.toNat ∧ c.toNat ≤ 57 := by
    simpa [Char.isDigit, UInt32.le_iff_toNat_le, ← Char.toNat_val] using h
  constructor
  · simp only [Text.isBlank, Text.blankRanges, Text.inRanges]
    grind
  · rintro rfl
    revert hfrom
    decide

/-- A text of figures only. -/
def AreFigures (text : List Char) : Prop :=
  ∀ c ∈ text, IsFigure c

instance (text : List Char) : Decidable (AreFigures text) :=
  List.decidableBAll IsFigure text

theorem areFigures_append {first second : List Char} :
    AreFigures (first ++ second) ↔ AreFigures first ∧ AreFigures second :=
  List.forall_mem_append

theorem areFigures_cons {c : Char} {text : List Char} :
    AreFigures (c :: text) ↔ IsFigure c ∧ AreFigures text :=
  List.forall_mem_cons

theorem areFigures_nil : AreFigures [] :=
  fun _ hc => absurd hc List.not_mem_nil

theorem areFigures_toDigits (n : Nat) : AreFigures (Nat.toDigits 10 n) :=
  fun _ hc => .of_isDigit (Nat.isDigit_of_mem_toDigits (by omega) (by omega) hc)

theorem areFigures_zeros (n : Nat) : AreFigures (List.replicate n '0') := by
  intro c hc
  obtain rfl := List.eq_of_mem_replicate hc
  decide +kernel

theorem AreFigures.of_subset {text more : List Char} (h : AreFigures more) (hsub : text ⊆ more) :
    AreFigures text :=
  fun c hc => h c (hsub hc)

namespace Binary64

theorem areFigures_exponentText (e : Int) : AreFigures (exponentText e) := by
  have hdigits := areFigures_toDigits e.natAbs
  have hletter : IsFigure 'e' ∧ IsFigure '-' ∧ IsFigure '+' ∧ IsFigure '0' := by
    decide +kernel
  obtain ⟨he, hminus, hplus, hzero⟩ := hletter
  unfold exponentText
  apply areFigures_cons.mpr ⟨he, areFigures_cons.mpr ⟨?_, ?_⟩⟩
  · split
    · exact hminus
    · exact hplus
  · split
    · exact areFigures_cons.mpr ⟨hzero, hdigits⟩
    · exact hdigits

theorem areFigures_positionalText {digits : List Char} (h : AreFigures digits) (point : Int) :
    AreFigures (positionalText digits point) := by
  have hpoint : AreFigures ['0', '.'] ∧ AreFigures ['.', '0'] ∧ IsFigure '.' := by
    decide +kernel
  obtain ⟨hzeroPoint, hpointZero, hdot⟩ := hpoint
  unfold positionalText
  split
  · have hall := areFigures_append.mpr ⟨hzeroPoint, areFigures_zeros (-point).toNat⟩
    exact areFigures_append.mpr ⟨hall, h⟩
  · simp only
    split
    · have hall := areFigures_append.mpr ⟨h, areFigures_zeros (point.toNat - digits.length)⟩
      exact areFigures_append.mpr ⟨hall, hpointZero⟩
    · apply areFigures_append.mpr ⟨h.of_subset (List.take_subset _ _), ?_⟩
      exact areFigures_cons.mpr ⟨hdot, h.of_subset (List.drop_subset _ _)⟩

theorem areFigures_exponentialText {digits : List Char} (h : AreFigures digits) (point : Int) :
    AreFigures (exponentialText digits point) := by
  have hdot : IsFigure '.' := by
    decide +kernel
  have hothers := h.of_subset (List.drop_subset 1 digits)
  simp only [exponentialText, areFigures_append]
  refine ⟨⟨h.of_subset (List.take_subset _ _), ?_⟩, areFigures_exponentText _⟩
  split
  · exact areFigures_nil
  · exact areFigures_cons.mpr ⟨hdot, hothers⟩

theorem areFigures_magnitudeText (mantissa : Nat) (exponent : Int) :
    AreFigures (magnitudeText mantissa exponent) := by
  unfold magnitudeText
  split
  · decide +kernel
  · have hdigits : ∀ n, AreFigures (dropTrailingZeros (Nat.toDigits 10 n)) := by
      intro n
      apply (areFigures_toDigits n).of_subset
      exact (List.rdropWhile_prefix (· == '0') _).subset
    simp only
    split
    · exact areFigures_positionalText (hdigits _) _
    · exact areFigures_exponentialText (hdigits _) _

theorem areFigures_text (x : Binary64) : AreFigures x.text := by
  have hwords : AreFigures ['n', 'a', 'n'] ∧ AreFigures ['i', 'n', 'f'] ∧ AreFigures ['-'] := by
    decide +kernel
  obtain ⟨hnan, hinf, hminus⟩ := hwords
  have hsign : ∀ negative : Bool, AreFigures (if negative then ['-'] else []) := by
    intro negative
    cases negative
    · exact areFigures_nil
    · exact hminus
  cases x with
  | nan => exact hnan
  | infinite negative => exact areFigures_append.mpr ⟨hsign negative, hinf⟩
  | finite negative mantissa exponent =>
      exact areFigures_append.mpr ⟨hsign negative, areFigures_magnitudeText mantissa exponent⟩

theorem magnitudeText_ne_nil (mantissa : Nat) (exponent : Int) :
    magnitudeText mantissa exponent ≠ [] := by
  unfold magnitudeText
  split
  · exact List.cons_ne_nil _ _
  · simp only
    split
    · unfold positionalText
      split
      · exact List.cons_ne_nil _ _
      · simp only
        split <;> simp
    · simp [exponentialText, exponentText]

theorem text_ne_nil (x : Binary64) : x.text ≠ [] := by
  cases x with
  | nan => exact List.cons_ne_nil _ _
  | infinite negative => simp [text]
  | finite negative mantissa exponent => simp [text, magnitudeText_ne_nil]

end Binary64

theorem toList_toString_nat (n : Nat) : (toString n).toList = Nat.toDigits 10 n := by
  change (String.ofList (Nat.toDigits 10 n)).toList = _
  exact String.toList_ofList

theorem toList_toString_int (n : Int) :
    (toString n).toList = (if n < 0 then ['-'] else []) ++ Nat.toDigits 10 n.natAbs := by
  cases n with
  | ofNat m =>
      rw [if_neg (by simp)]
      exact toList_toString_nat m
  | negSucc m =>
      rw [if_pos (Int.negSucc_lt_zero m)]
      change ("-" ++ toString (m + 1)).toList = _
      rw [String.toList_append, toList_toString_nat]
      rfl

namespace WidthSet

structure IsToken (token : String) : Prop where
  nonempty : token.toList ≠ []
  comma : ',' ∉ token.toList
  trimmed : Text.trim token.toList = token.toList

theorem IsToken.of_areFigures {token : String} (hne : token.toList ≠ [])
    (h : AreFigures token.toList) : IsToken token where
  nonempty := hne
  comma := fun hcomma => (h ',' hcomma).2 rfl
  trimmed := Text.trim_of_no_blank fun c hc => (h c hc).1

theorem isToken_toString (n : Int) : IsToken (toString n) := by
  apply IsToken.of_areFigures
  · rw [toList_toString_int]
    exact List.append_ne_nil_of_right_ne_nil _ Nat.toDigits_ne_nil
  · have hminus : IsFigure '-' := by
      decide +kernel
    rw [toList_toString_int]
    apply areFigures_append.mpr ⟨?_, areFigures_toDigits _⟩
    split
    · exact areFigures_cons.mpr ⟨hminus, areFigures_nil⟩
    · exact areFigures_nil

theorem isToken_tokenOfFloat (x : Binary64) : IsToken (tokenOfFloat x) := by
  unfold tokenOfFloat
  split
  · exact isToken_toString _
  · apply IsToken.of_areFigures
    · rw [String.toList_ofList]
      exact x.text_ne_nil
    · rw [String.toList_ofList]
      exact x.areFigures_text

theorem isToken_of_mem_tokensOfText {text token : String} (h : token ∈ tokensOfText text) :
    IsToken token := by
  obtain ⟨trimmed, htrimmed, htoken⟩ := List.mem_filterMap.mp h
  obtain ⟨part, hpart, rfl⟩ := List.mem_map.mp htrimmed
  split at htoken
  · cases htoken
  · rename_i hne
    obtain rfl := Option.some.inj htoken
    constructor
    · simpa using hne
    · rw [String.toList_ofList]
      intro hcomma
      exact Text.not_mem_of_mem_splitOn hpart (Text.mem_of_mem_trim hcomma)
    · rw [String.toList_ofList, Text.trim_idem]

/-- A token is read as itself. -/
theorem tokensOfText_of_isToken {token : String} (h : IsToken token) :
    tokensOfText token = [token] := by
  have hne : token.toList.isEmpty = false := by
    simpa using h.nonempty
  rw [tokensOfText, List.splitOn_eq_singleton h.comma, List.map_singleton, h.trimmed,
    List.filterMap_cons, hne, String.ofList_toList]
  rfl

variable {a b w : WidthSet} {token : String} {tokens : List String}

theorem mem_empty : ¬ token ∈ empty :=
  List.not_mem_nil

theorem mem_insert {x : String} : x ∈ w.insert token ↔ x = token ∨ x ∈ w :=
  mem_insertToken

theorem mem_foldl_insert : token ∈ tokens.foldl insert w ↔ token ∈ w ∨ token ∈ tokens := by
  induction tokens generalizing w with
  | nil => simp
  | cons t ts ih =>
      rw [List.foldl_cons, ih, mem_insert, List.mem_cons, or_assoc]
      exact or_left_comm

theorem mem_ofList : token ∈ ofList tokens ↔ token ∈ tokens := by
  rw [ofList, mem_foldl_insert]
  simp [mem_empty]

theorem mem_union : token ∈ a.union b ↔ token ∈ a ∨ token ∈ b :=
  mem_foldl_insert

theorem nodup_tokens (w : WidthSet) : w.tokens.Nodup := by
  apply w.ascending.imp
  rintro t _ hlt rfl
  exact String.lt_irrefl t hlt

/-- Sets with the same tokens are equal. -/
theorem eq_of_mem_iff (h : ∀ token, token ∈ a ↔ token ∈ b) : a = b := by
  have hperm : a.tokens.Perm b.tokens :=
    (List.perm_ext_iff_of_nodup a.nodup_tokens b.nodup_tokens).mpr h
  have htokens : a.tokens = b.tokens := by
    apply hperm.eq_of_pairwise _ a.ascending b.ascending
    intro x y _ _ hxy hyx
    exact absurd (String.lt_trans hxy hyx) (String.lt_irrefl x)
  cases a
  cases b
  cases htokens
  rfl

theorem ofValues_cons_eq_ok {v : Value} {vs : List Value} :
    ofValues (v :: vs) = .ok w ↔
      ∃ first others, ofValue v = .ok first ∧ ofValues vs = .ok others ∧
        w = first.union others := by
  simp only [ofValues, bind_eq_ok, Except.ok.injEq, @eq_comm _ w, exists_and_left]

theorem ofEntries_cons_eq_ok {entry : Value × Value} {entries : List (Value × Value)} :
    ofEntries (entry :: entries) = .ok w ↔
      ∃ first others, ofValue entry.2 = .ok first ∧ ofEntries entries = .ok others ∧
        w = first.union others := by
  simp only [ofEntries, bind_eq_ok, Except.ok.injEq, @eq_comm _ w, exists_and_left]

mutual

/-- Every token that a value gives is one. -/
theorem isToken_of_ofValue {v : Value} {w : WidthSet} {token : String} (h : ofValue v = .ok w)
    (htoken : token ∈ w) : IsToken token := by
  cases v with
  | null =>
      obtain rfl := Except.ok.inj h
      exact absurd htoken mem_empty
  | int n =>
      obtain rfl := Except.ok.inj h
      obtain rfl := List.mem_singleton.mp (mem_ofList.mp htoken)
      exact isToken_toString n
  | float x =>
      obtain rfl := Except.ok.inj h
      obtain rfl := List.mem_singleton.mp (mem_ofList.mp htoken)
      exact isToken_tokenOfFloat x
  | text s =>
      obtain rfl := Except.ok.inj h
      exact isToken_of_mem_tokensOfText (mem_ofList.mp htoken)
  | bytes bs =>
      obtain rfl := Except.ok.inj h
      obtain ⟨byte, -, rfl⟩ := List.mem_map.mp (mem_ofList.mp htoken)
      exact isToken_toString byte.toNat
  | list items => exact isToken_of_ofValues h htoken
  | tuple items => exact isToken_of_ofValues h htoken
  | set items => exact isToken_of_ofValues h htoken
  | map entries => exact isToken_of_ofEntries h htoken
  | bool | decimal | ellipsis => cases h

theorem isToken_of_ofValues {vs : List Value} {w : WidthSet} {token : String}
    (h : ofValues vs = .ok w) (htoken : token ∈ w) : IsToken token := by
  cases vs with
  | nil =>
      obtain rfl := Except.ok.inj h
      exact absurd htoken mem_empty
  | cons v vs =>
      obtain ⟨first, others, hfirst, hothers, rfl⟩ := ofValues_cons_eq_ok.mp h
      rcases mem_union.mp htoken with hmem | hmem
      · exact isToken_of_ofValue hfirst hmem
      · exact isToken_of_ofValues hothers hmem

theorem isToken_of_ofEntries {entries : List (Value × Value)} {w : WidthSet} {token : String}
    (h : ofEntries entries = .ok w) (htoken : token ∈ w) : IsToken token := by
  cases entries with
  | nil =>
      obtain rfl := Except.ok.inj h
      exact absurd htoken mem_empty
  | cons entry entries =>
      obtain ⟨key, v⟩ := entry
      obtain ⟨first, others, hfirst, hothers, rfl⟩ := ofEntries_cons_eq_ok.mp h
      rcases mem_union.mp htoken with hmem | hmem
      · exact isToken_of_ofValue hfirst hmem
      · exact isToken_of_ofEntries hothers hmem

end

theorem ofList_append (first second : List String) :
    ofList (first ++ second) = (ofList first).union (ofList second) := by
  apply eq_of_mem_iff
  intro token
  simp only [mem_union, mem_ofList, List.mem_append]

/-- A row of texts gives the tokens of its texts. -/
theorem ofValues_texts (texts : List String) :
    ofValues (texts.map .text) = .ok (ofList (texts.flatMap tokensOfText)) := by
  induction texts with
  | nil => rfl
  | cons text texts ih =>
      rw [List.flatMap_cons, ofList_append]
      exact ofValues_cons_eq_ok.mpr ⟨_, _, rfl, ih, rfl⟩

theorem flatMap_tokensOfText (h : ∀ token ∈ tokens, IsToken token) :
    tokens.flatMap tokensOfText = tokens := by
  induction tokens with
  | nil => rfl
  | cons token tokens ih =>
      obtain ⟨htoken, htokens⟩ := List.forall_mem_cons.mp h
      rw [List.flatMap_cons, tokensOfText_of_isToken htoken, ih htokens]
      rfl

/-- The tokens of a set are read as this set, in any order and however often they come. -/
theorem ofValues_tokens (h : ∀ token ∈ w, IsToken token)
    (htokens : ∀ token, token ∈ tokens ↔ token ∈ w) : ofValues (tokens.map .text) = .ok w := by
  have hsame : ofList tokens = w := by
    apply eq_of_mem_iff
    intro token
    rw [mem_ofList, htokens]
  rw [ofValues_texts, flatMap_tokensOfText fun token htoken => h token ((htokens token).mp htoken),
    hsame]

def toValue (w : WidthSet) : Value :=
  .set (w.tokens.map .text)

/-- A set of widths is read as itself. -/
theorem ofValue_toValue (h : ∀ token ∈ w, IsToken token) : ofValue w.toValue = .ok w :=
  ofValues_tokens h fun _ => Iff.rfl

end WidthSet

end MediaSplit
