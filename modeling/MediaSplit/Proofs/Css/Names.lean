import Mathlib.Data.List.Basic
import Mathlib.Data.Nat.Digits.Lemmas
import MediaSplit.Css.Written

/-!
Names that are written are read as the same names again. Each character of a name is read back
from its own written form, whatever comes after it, so a whole name is read back as soon as what
follows does not go on with it.
-/

namespace MediaSplit.Css

/-- Whether a text is not empty and its first character is of the class `p`. -/
def startsWith (p : Char → Bool) (text : List Char) : Bool :=
  text.head?.any p

def endsName (text : List Char) : Bool :=
  !startsWith isNameChar text && !startsEscape text

@[simp] theorem startsWith_nil (p : Char → Bool) : startsWith p [] = false := rfl

@[simp] theorem startsWith_cons (p : Char → Bool) (c : Char) (cs : List Char) :
    startsWith p (c :: cs) = p c := rfl

theorem startsWith_mono {p q : Char → Bool} {text : List Char} (hpq : ∀ c, p c = true → q c = true)
    (h : startsWith q text = false) : startsWith p text = false := by
  cases text with
  | nil => rfl
  | cons c cs =>
      cases hc : p c with
      | false => exact hc
      | true => exact absurd (hpq c hc) (by simpa using h)

theorem startsWith_beq_eq_false {d : Char} {text : List Char}
    (h : ∀ rest, text = d :: rest → False) : startsWith (· == d) text = false := by
  cases text with
  | nil => rfl
  | cons c cs =>
      rw [startsWith_cons, beq_eq_false_iff_ne]
      rintro rfl
      exact h cs rfl

theorem isNameChar_of_isNameStart {c : Char} (h : isNameStart c = true) : isNameChar c = true := by
  simp [isNameChar, h]

theorem le_iff_toNat (c d : Char) : c ≤ d ↔ c.toNat ≤ d.toNat := by
  rw [Char.le_def, UInt32.le_iff_toNat_le]
  exact Iff.rfl

theorem isDigit_iff {c : Char} : c.isDigit = true ↔ 48 ≤ c.toNat ∧ c.toNat ≤ 57 := by
  simp only [Char.isDigit, Bool.and_eq_true, decide_eq_true_eq, UInt32.le_iff_toNat_le]
  exact Iff.rfl

theorem isAlpha_iff {c : Char} : c.isAlpha = true ↔
    65 ≤ c.toNat ∧ c.toNat ≤ 90 ∨ 97 ≤ c.toNat ∧ c.toNat ≤ 122 := by
  have hletter : c.isAlpha = (decide ('A'.val ≤ c.val ∧ c.val ≤ 'Z'.val) ||
      (decide ('a'.val ≤ c.val) && decide (c.val ≤ 'z'.val))) := rfl
  simp only [hletter, Bool.or_eq_true, Bool.and_eq_true, decide_eq_true_eq,
    UInt32.le_iff_toNat_le]
  exact Iff.rfl

theorem isHexDigit_iff {c : Char} : isHexDigit c = true ↔
    (48 ≤ c.toNat ∧ c.toNat ≤ 57 ∨ 97 ≤ c.toNat ∧ c.toNat ≤ 102) ∨
      65 ≤ c.toNat ∧ c.toNat ≤ 70 := by
  simp only [isHexDigit, Bool.or_eq_true, Bool.and_eq_true, decide_eq_true_eq, isDigit_iff,
    le_iff_toNat]
  exact Iff.rfl

theorem isNameStart_or_isDigit {c : Char} (h : isHexDigit c = true) :
    isNameStart c = true ∨ c.isDigit = true := by
  have halpha : c.isAlpha = true → isNameStart c = true := fun hc => by simp [isNameStart, hc]
  rcases isHexDigit_iff.mp h with (hdigit | ⟨hlow, hhigh⟩) | ⟨hlow, hhigh⟩
  · exact Or.inr (isDigit_iff.mpr hdigit)
  · exact Or.inl (halpha (isAlpha_iff.mpr (by omega)))
  · exact Or.inl (halpha (isAlpha_iff.mpr (by omega)))

theorem isNameChar_of_isHexDigit {c : Char} (h : isHexDigit c = true) : isNameChar c = true := by
  rcases isNameStart_or_isDigit h with hc | hc
  · exact isNameChar_of_isNameStart hc
  · simp [isNameChar, hc]

theorem isHexDigit_eq_false {c : Char} (h : isNameChar c = false) : isHexDigit c = false := by
  cases hc : isHexDigit c with
  | false => rfl
  | true => exact absurd (isNameChar_of_isHexDigit hc) (by simp [h])

/-- A backslash starts an escape as long as no line feed follows. -/
theorem startsEscape_backslash {c : Char} (cs : List Char) (h : c ≠ '\n') :
    startsEscape ('\\' :: c :: cs) = true := by
  unfold startsEscape
  split <;> simp_all

theorem startsEscape_eq_false {c : Char} (cs : List Char) (h : c ≠ '\\') :
    startsEscape (c :: cs) = false := by
  unfold startsEscape
  split <;> simp_all

/-- Whether a text is as `normalize` leaves it. -/
def IsNormalized (text : List Char) : Prop :=
  ∀ c ∈ text, c ≠ '\x00' ∧ c ≠ '\r' ∧ c ≠ '\x0c'

instance (text : List Char) : Decidable (IsNormalized text) :=
  List.decidableBAll (fun c => c ≠ '\x00' ∧ c ≠ '\r' ∧ c ≠ '\x0c') text

namespace IsNormalized

theorem nil : IsNormalized [] := by
  intro c hc
  exact absurd hc List.not_mem_nil

theorem of_cons {c : Char} {cs : List Char} (h : IsNormalized (c :: cs)) : IsNormalized cs :=
  fun d hd => h d (List.mem_cons_of_mem c hd)

theorem of_suffix {left right : List Char} (h : IsNormalized right) (hsuffix : left <:+ right) :
    IsNormalized left :=
  fun d hd => h d (hsuffix.mem hd)

@[simp] theorem cons_iff {c : Char} {cs : List Char} :
    IsNormalized (c :: cs) ↔ (c ≠ '\x00' ∧ c ≠ '\r' ∧ c ≠ '\x0c') ∧ IsNormalized cs :=
  List.forall_mem_cons

@[simp] theorem append_iff {left right : List Char} :
    IsNormalized (left ++ right) ↔ IsNormalized left ∧ IsNormalized right :=
  List.forall_mem_append

end IsNormalized

theorem isNormalized_normalize (text : List Char) : IsNormalized (normalize text) := by
  fun_induction normalize text with
  | case1 => exact IsNormalized.nil
  | case2 cs ih => exact IsNormalized.cons_iff.mpr ⟨by decide, ih⟩
  | case3 c cs _ ih =>
      refine IsNormalized.cons_iff.mpr ⟨?_, ih⟩
      split
      · decide
      · split
        · decide
        · simp_all

theorem normalize_eq_self {text : List Char} (h : IsNormalized text) : normalize text = text := by
  fun_induction normalize text with
  | case1 => rfl
  | case2 cs ih => exact absurd rfl (h '\r' List.mem_cons_self).2.1
  | case3 c cs _ ih =>
      have hc := h c List.mem_cons_self
      simp [hc, ih h.of_cons]

section Hexadecimal

theorem spanAtMost_append_eq (p : Char → Bool) (limit : Nat) (cs : List Char) :
    (spanAtMost p limit cs).1 ++ (spanAtMost p limit cs).2 = cs := by
  fun_induction spanAtMost p limit cs with
  | case1 => rfl
  | case2 => rfl
  | case3 limit c cs hc taken rest heq ih => simpa [heq] using ih
  | case4 => rfl

theorem spanAtMost_append {p : Char → Bool} {limit : Nat} {taken rest : List Char}
    (hall : ∀ c ∈ taken, p c = true) (hlength : taken.length ≤ limit)
    (hrest : taken.length = limit ∨ startsWith p rest = false) :
    spanAtMost p limit (taken ++ rest) = (taken, rest) := by
  induction limit generalizing taken with
  | zero =>
      have htaken : taken = [] := List.length_eq_zero_iff.mp (Nat.le_zero.mp hlength)
      simp [htaken, spanAtMost]
  | succ limit ih =>
      cases taken with
      | nil =>
          cases rest with
          | nil => rfl
          | cons c cs =>
              have hc : p c = false := by simpa using hrest
              simp [spanAtMost, hc]
      | cons c cs =>
          have hcs : spanAtMost p limit (cs ++ rest) = (cs, rest) :=
            ih (fun d hd => hall d (List.mem_cons_of_mem c hd)) (by simpa using hlength)
              (by simpa using hrest)
          simp [spanAtMost, hall c List.mem_cons_self, hcs]

def hexDigit (d : Nat) : Char :=
  (Nat.digitChar d).toUpper

private theorem hexDigit_spec : ∀ d : Fin 16,
    isHexDigit (hexDigit d) = true ∧ hexValue (hexDigit d) = d := by
  decide

theorem hexDigits_of_lt {n : Nat} (h : n < 16) : hexDigits n = [hexDigit n] := by
  simp [hexDigits, hexDigit, Nat.toDigits_of_lt_base h]

theorem hexDigits_of_le {n : Nat} (h : 16 ≤ n) :
    hexDigits n = hexDigits (n / 16) ++ [hexDigit (n % 16)] := by
  simp [hexDigits, hexDigit, Nat.toDigits_of_base_le (by decide : 1 < 16) h]

theorem isHexDigit_of_mem_hexDigits (n : Nat) : ∀ c ∈ hexDigits n, isHexDigit c = true := by
  induction n using Nat.strongRecOn with
  | ind n ih =>
      intro c hc
      by_cases hn : n < 16
      · rw [hexDigits_of_lt hn, List.mem_singleton] at hc
        rw [hc]
        exact (hexDigit_spec ⟨n, hn⟩).1
      · rw [hexDigits_of_le (by omega), List.mem_append, List.mem_singleton] at hc
        rcases hc with hc | hc
        · exact ih (n / 16) (by omega) c hc
        · rw [hc]
          exact (hexDigit_spec ⟨n % 16, by omega⟩).1

theorem hexNumber_append (digits : List Char) (c : Char) :
    hexNumber (digits ++ [c]) = 16 * hexNumber digits + hexValue c := by
  simp [hexNumber]

theorem hexNumber_hexDigits (n : Nat) : hexNumber (hexDigits n) = n := by
  induction n using Nat.strongRecOn with
  | ind n ih =>
      by_cases hn : n < 16
      · rw [hexDigits_of_lt hn]
        have h := (hexDigit_spec ⟨n, hn⟩).2
        simpa [hexNumber] using h
      · rw [hexDigits_of_le (by omega), hexNumber_append, ih (n / 16) (by omega)]
        have h : hexValue (hexDigit (n % 16)) = n % 16 := (hexDigit_spec ⟨n % 16, by omega⟩).2
        omega

theorem hexDigits_ne_nil (n : Nat) : hexDigits n ≠ [] := by
  by_cases hn : n < 16
  · simp [hexDigits_of_lt hn]
  · simp [hexDigits_of_le (Nat.le_of_not_lt hn)]

theorem startsEscape_hexDigits (n : Nat) (rest : List Char) :
    startsEscape ('\\' :: (hexDigits n ++ rest)) = true := by
  cases hdigits : hexDigits n with
  | nil => exact absurd hdigits (hexDigits_ne_nil n)
  | cons d ds =>
      have hd := isHexDigit_of_mem_hexDigits n d (by simp [hdigits])
      refine startsEscape_backslash (ds ++ rest) ?_
      rintro rfl
      exact absurd hd (by decide)

theorem length_hexDigits_le {n k : Nat} (hk : 0 < k) (h : n < 16 ^ k) :
    (hexDigits n).length ≤ k := by
  induction k generalizing n with
  | zero => omega
  | succ k ih =>
      by_cases hn : n < 16
      · simp [hexDigits_of_lt hn]
      · have hk : 0 < k := by
          rcases Nat.eq_zero_or_pos k with rfl | hk
          · simp at h; omega
          · exact hk
        have := ih hk (n := n / 16) (by rw [Nat.pow_succ] at h; omega)
        rw [hexDigits_of_le (by omega)]
        simpa using this

/-- A written code point of at most six digits is read back with the blank after it. -/
theorem scanEscape_hexDigits {n : Nat} (h : n < 16 ^ 6) (rest : List Char) :
    scanEscape (hexDigits n ++ ' ' :: rest) = (escapedChar n, rest) := by
  have hspan : spanAtMost isHexDigit 6 (hexDigits n ++ ' ' :: rest) = (hexDigits n, ' ' :: rest) :=
    spanAtMost_append (isHexDigit_of_mem_hexDigits n) (length_hexDigits_le (by omega) h)
      (Or.inr rfl)
  have hnumber := hexNumber_hexDigits n
  unfold scanEscape
  rw [hspan]
  cases hdigits : hexDigits n with
  | nil => exact absurd hdigits (hexDigits_ne_nil n)
  | cons d ds =>
      rw [hdigits] at hnumber
      simp only [hnumber]
      rfl

theorem escapedChar_ne_null (n : Nat) : escapedChar n ≠ '\x00' := by
  by_cases hzero : (n == 0) = true
  · rw [escapedChar, if_pos hzero]
    decide
  · rw [escapedChar, if_neg hzero]
    by_cases hvalid : n.isValidChar
    · rw [dif_pos hvalid]
      intro heq
      have hn : n = 0 := congrArg Char.toNat heq
      exact hzero (beq_iff_eq.mpr hn)
    · rw [dif_neg hvalid]
      decide

theorem escapedChar_toNat {c : Char} (h : c.toNat ≠ 0) : escapedChar c.toNat = c := by
  have hvalid : c.toNat.isValidChar := c.valid
  have hzero : ¬ (c.toNat == 0) = true := by simpa using h
  rw [escapedChar, if_neg hzero, dif_pos hvalid]
  rfl

end Hexadecimal

/-- An escaped character that is no hexadecimal digit stands for itself. -/
theorem scanEscape_cons {c : Char} (rest : List Char) (h : isHexDigit c = false) :
    scanEscape (c :: rest) = (c, rest) := by
  simp [scanEscape, spanAtMost, h]

/-- A line end is written as the one digit of its code point, and read back from it. -/
theorem exists_hexDigit_of_escapedLineEnd {c : Char} {written : List Char}
    (h : escapedLineEnd? c = some written) :
    ∃ d, isHexDigit d = true ∧ written = ['\\', d, ' '] ∧
      ∀ rest, scanEscape (d :: ' ' :: rest) = (c, rest) := by
  unfold escapedLineEnd? at h
  repeat'
    split at h
    · rename_i hc
      obtain rfl := beq_iff_eq.mp hc
      obtain rfl := Option.some.inj h
      exact ⟨_, rfl, rfl, fun _ => rfl⟩
  exact absurd h (by simp)

theorem scanEscape_normalized {cs : List Char} (h : IsNormalized cs) :
    (scanEscape cs).1 ≠ '\x00' ∧ IsNormalized (scanEscape cs).2 := by
  have hspan := spanAtMost_append_eq isHexDigit 6 cs
  rw [← hspan, IsNormalized.append_iff] at h
  unfold scanEscape
  split <;> rename_i heq <;> rw [heq] at h
  · exact ⟨by decide, IsNormalized.nil⟩
  · exact ⟨(h.2 _ List.mem_cons_self).1, h.2.of_cons⟩
  · refine ⟨escapedChar_ne_null _, ?_⟩
    simp only
    split
    · exact h.2.of_cons
    · exact h.2
  · exact ⟨escapedChar_ne_null _, IsNormalized.nil⟩

section Names

variable (rest : List Char)

theorem scanName_cons {c : Char} (h : isNameChar c = true) :
    scanName (c :: rest) = (c :: (scanName rest).1, (scanName rest).2) := by
  rw [scanName, if_pos h]

theorem scanName_backslash (h : startsEscape ('\\' :: rest) = true) :
    scanName ('\\' :: rest) =
      ((scanEscape rest).1 :: (scanName (scanEscape rest).2).1,
        (scanName (scanEscape rest).2).2) := by
  rw [scanName, if_neg (by decide), if_pos h]

theorem endsName_scanName (cs : List Char) : endsName (scanName cs).2 = true := by
  fun_induction scanName cs with
  | case1 => rfl
  | case2 c cs _ name rest heq ih => simpa [heq] using ih
  | case3 c cs _ _ escape name rest heq ih => simpa [heq] using ih
  | case4 c cs hname hescape => simp [endsName, hname, hescape]

theorem scanName_normalized {cs : List Char} (h : IsNormalized cs) :
    '\x00' ∉ (scanName cs).1 ∧ IsNormalized (scanName cs).2 := by
  fun_induction scanName cs with
  | case1 => exact ⟨List.not_mem_nil, h⟩
  | case2 c cs _ name rest heq ih =>
      rw [heq] at ih
      obtain ⟨hname, hrest⟩ := ih h.of_cons
      exact ⟨List.not_mem_cons_of_ne_of_not_mem (h c List.mem_cons_self).1.symm hname, hrest⟩
  | case3 c cs _ _ escape name rest heq ih =>
      rw [heq] at ih
      obtain ⟨hc, hescape⟩ := scanEscape_normalized h.of_cons
      obtain ⟨hname, hrest⟩ := ih hescape
      exact ⟨List.not_mem_cons_of_ne_of_not_mem hc.symm hname, hrest⟩
  | case4 => exact ⟨List.not_mem_nil, h⟩

theorem scanName_of_endsName {text : List Char} (h : endsName text = true) :
    scanName text = ([], text) := by
  cases text with
  | nil => rw [scanName]
  | cons c cs =>
      simp only [endsName, startsWith_cons, Bool.and_eq_true, Bool.not_eq_true'] at h
      rw [scanName, if_neg (by simp [h.1]), if_neg (by simp [h.2])]

/-- A character written after a backslash is read back. -/
private theorem scanName_escaped {c : Char} (hhex : isHexDigit c = false) (hline : c ≠ '\n') :
    scanName ('\\' :: c :: rest) = (c :: (scanName rest).1, (scanName rest).2) := by
  rw [scanName_backslash _ (startsEscape_backslash rest hline), scanEscape_cons rest hhex]

private theorem scanName_escapedLineEnd {c : Char} {written : List Char}
    (h : escapedLineEnd? c = some written) :
    scanName (written ++ rest) = (c :: (scanName rest).1, (scanName rest).2) := by
  obtain ⟨d, hd, rfl, hescape⟩ := exists_hexDigit_of_escapedLineEnd h
  have hne : d ≠ '\n' := by
    rintro rfl
    exact absurd hd (by decide)
  simp only [List.cons_append, List.nil_append]
  rw [scanName_backslash _ (startsEscape_backslash (' ' :: rest) hne), hescape]

theorem scanName_writeNameChar (c : Char) :
    scanName (writeNameChar c ++ rest) = (c :: (scanName rest).1, (scanName rest).2) := by
  unfold writeNameChar
  split
  · rename_i hc
    exact scanName_cons rest hc
  · rename_i hc
    cases hline : escapedLineEnd? c with
    | some written => exact scanName_escapedLineEnd rest hline
    | none =>
        have hne : c ≠ '\n' := by
          rintro rfl
          exact absurd hline (by decide)
        exact scanName_escaped rest (isHexDigit_eq_false (by simpa using hc)) hne

/-- What is written for a character is the character or starts with a backslash. -/
private theorem startsWith_getD_escapedLineEnd {p : Char → Bool} {c : Char}
    (hp : p '\\' = false) : startsWith p ((escapedLineEnd? c).getD ['\\', c] ++ rest) = false := by
  cases hline : escapedLineEnd? c with
  | none => exact hp
  | some written =>
      obtain ⟨d, -, rfl, -⟩ := exists_hexDigit_of_escapedLineEnd hline
      exact hp

theorem startsWith_writeNameChar {p : Char → Bool} {c : Char} (hp : p '\\' = false)
    (hc : isNameChar c = true → p c = false) :
    startsWith p (writeNameChar c ++ rest) = false := by
  unfold writeNameChar
  split
  · rename_i hname
    exact hc hname
  · exact startsWith_getD_escapedLineEnd rest hp

theorem startsWith_writeFirstChar {p : Char → Bool} {c : Char} (hp : p '\\' = false)
    (hc : isNameStart c = true → p c = false) :
    startsWith p (writeFirstChar c ++ rest) = false := by
  unfold writeFirstChar
  split
  · rename_i hname
    exact hc hname
  · split
    · exact hp
    · exact startsWith_getD_escapedLineEnd rest hp

theorem scanName_writeName_append (name : List Char) :
    scanName (writeName name ++ rest) = (name ++ (scanName rest).1, (scanName rest).2) := by
  induction name with
  | nil => simp [writeName]
  | cons c cs ih =>
      have hcs : scanName (cs.flatMap writeNameChar ++ rest) =
        (cs ++ (scanName rest).1, (scanName rest).2) := ih
      simp only [writeName, List.flatMap_cons, List.append_assoc, List.cons_append]
      rw [scanName_writeNameChar, hcs]

/-- A written name is read back when what follows ends it. -/
theorem scanName_writeName {name rest : List Char} (h : endsName rest = true) :
    scanName (writeName name ++ rest) = (name, rest) := by
  simp [scanName_writeName_append, scanName_of_endsName h]

theorem scanName_writeFirstChar (c : Char) :
    scanName (writeFirstChar c ++ rest) = (c :: (scanName rest).1, (scanName rest).2) := by
  unfold writeFirstChar
  split
  · rename_i hc
    exact scanName_cons rest (isNameChar_of_isNameStart hc)
  · rename_i hstart
    split
    · rename_i hdigit
      have hc : c.toNat < 16 ^ 6 ∧ c.toNat ≠ 0 := by
        have hrange := isDigit_iff.mp hdigit
        omega
      simp only [List.cons_append, List.append_assoc, List.nil_append]
      rw [scanName_backslash _ (startsEscape_hexDigits _ _), scanEscape_hexDigits hc.1,
        escapedChar_toNat hc.2]
    · rename_i hdigit
      cases hline : escapedLineEnd? c with
      | some written => exact scanName_escapedLineEnd rest hline
      | none =>
          have hne : c ≠ '\n' := by
            rintro rfl
            exact absurd hline (by decide)
          have hhex : isHexDigit c = false := by
            rw [Bool.eq_false_iff]
            exact fun hhex => (isNameStart_or_isDigit hhex).elim hstart hdigit
          exact scanName_escaped rest hhex hne

private theorem startsEscape_escapedLineEnd {c : Char} {written : List Char}
    (h : escapedLineEnd? c = some written) : startsEscape (written ++ rest) = true := by
  obtain ⟨d, hd, rfl, -⟩ := exists_hexDigit_of_escapedLineEnd h
  refine startsEscape_backslash (' ' :: rest) ?_
  rintro rfl
  exact absurd hd (by decide)

/-- A written first character starts a name or an escape. -/
theorem startsWith_or_startsEscape_writeFirstChar (c : Char) :
    startsWith isNameStart (writeFirstChar c ++ rest) = true ∨
      startsEscape (writeFirstChar c ++ rest) = true := by
  unfold writeFirstChar
  split
  · rename_i hc
    exact .inl hc
  · split
    · simp only [List.cons_append, List.append_assoc]
      exact .inr (startsEscape_hexDigits _ _)
    · cases hline : escapedLineEnd? c with
      | some written => exact .inr (startsEscape_escapedLineEnd rest hline)
      | none =>
          refine .inr (startsEscape_backslash rest ?_)
          rintro rfl
          exact absurd hline (by decide)

theorem startsIdent_eq_or {c : Char} (cs : List Char) (h : c ≠ '-') :
    startsIdent (c :: cs) = (isNameStart c || startsEscape (c :: cs)) := by
  unfold startsIdent
  split <;> simp_all

theorem startsIdent_hyphen (cs : List Char) :
    startsIdent ('-' :: cs) =
      (startsWith isNameStart cs || startsWith (· == '-') cs || startsEscape cs) := by
  cases cs <;> rfl

theorem startsIdent_of_startsEscape {text : List Char} (h : startsEscape text = true) :
    startsIdent text = true := by
  cases text with
  | nil => exact absurd h (by decide)
  | cons c cs =>
      have hc : c = '\\' := by
        by_contra hne
        rw [startsEscape_eq_false cs hne] at h
        exact absurd h (by decide)
      rw [startsIdent_eq_or cs (by simp [hc]), h, Bool.or_true]

theorem startsIdent_of_isNameStart {c : Char} (cs : List Char) (h : isNameStart c = true) :
    startsIdent (c :: cs) = true := by
  have hne : c ≠ '-' := by
    rintro rfl
    exact absurd h (by decide)
  rw [startsIdent_eq_or cs hne, h, Bool.true_or]

theorem startsIdent_writeFirstChar (c : Char) :
    startsIdent (writeFirstChar c ++ rest) = true := by
  rcases startsWith_or_startsEscape_writeFirstChar rest c with h | h
  · cases hw : writeFirstChar c ++ rest with
    | nil => rw [hw] at h; exact absurd h (by decide)
    | cons d ds =>
        rw [hw] at h
        exact startsIdent_of_isNameStart ds h
  · exact startsIdent_of_startsEscape h

/-- The written form of a name that is not empty starts an identifier. -/
theorem startsIdent_writeIdent {name : List Char} (h : name ≠ []) :
    startsIdent (writeIdent name ++ rest) = true := by
  unfold writeIdent
  split
  · exact absurd rfl h
  · rfl
  · rfl
  · rename_i c cs _
    simp only [List.cons_append, List.append_assoc]
    rw [startsIdent_hyphen]
    rcases startsWith_or_startsEscape_writeFirstChar (writeName cs ++ rest) c with h | h <;> simp [h]
  · simp only [List.append_assoc]
    exact startsIdent_writeFirstChar _ _

theorem writeIdent_cons {c : Char} (cs : List Char) (hc : c ≠ '-') :
    writeIdent (c :: cs) = writeFirstChar c ++ writeName cs := by
  unfold writeIdent
  split <;> simp_all

/-- A written name starts with its first character, with a hyphen or with a backslash. -/
theorem startsWith_writeIdent {p : Char → Bool} {c : Char} (cs : List Char)
    (hp : p '-' = false ∧ p '\\' = false) (hc : isNameStart c = true → p c = false) :
    startsWith p (writeIdent (c :: cs) ++ rest) = false := by
  unfold writeIdent
  split
  · rename_i heq
    exact absurd heq (List.cons_ne_nil c cs)
  · exact hp.2
  · exact hp.1
  · exact hp.1
  · rename_i heq
    obtain ⟨rfl, rfl⟩ := List.cons.inj heq
    rw [List.append_assoc]
    exact startsWith_writeFirstChar _ hp.2 hc

theorem scanName_writeIdent_append (name : List Char) :
    scanName (writeIdent name ++ rest) = (name ++ (scanName rest).1, (scanName rest).2) := by
  unfold writeIdent
  split
  · simp
  · exact scanName_escaped rest (by decide) (by decide)
  · rename_i cs
    simp only [List.cons_append]
    rw [scanName_cons _ (by decide), scanName_cons _ (by decide), scanName_writeName_append]
  · rename_i c cs _ _
    simp only [List.cons_append, List.append_assoc]
    rw [scanName_cons _ (by decide), scanName_writeFirstChar, scanName_writeName_append]
  · rename_i c cs _ _ _
    simp only [List.cons_append, List.append_assoc]
    rw [scanName_writeFirstChar, scanName_writeName_append]

theorem scanName_writeIdent {name rest : List Char} (h : endsName rest = true) :
    scanName (writeIdent name ++ rest) = (name, rest) := by
  simp [scanName_writeIdent_append, scanName_of_endsName h]

end Names

section Normalized

/-- What is written for a character is normalised if it is for characters other than line ends. -/
theorem isNormalized_escapedLineEnd {c : Char} {plain : List Char}
    (hplain : c ≠ '\r' ∧ c ≠ '\x0c' → IsNormalized plain) :
    IsNormalized ((escapedLineEnd? c).getD plain) := by
  unfold escapedLineEnd?
  split
  · simp [IsNormalized.nil]
  · split
    · simp [IsNormalized.nil]
    · split
      · simp [IsNormalized.nil]
      · refine hplain ?_
        simp_all

theorem isNormalized_writeNameChar {c : Char} (h : c ≠ '\x00') :
    IsNormalized (writeNameChar c) := by
  unfold writeNameChar
  split
  · rename_i hc
    have hne : c ≠ '\r' ∧ c ≠ '\x0c' :=
      ⟨by rintro rfl; exact absurd hc (by decide), by rintro rfl; exact absurd hc (by decide)⟩
    simpa [IsNormalized.nil] using ⟨h, hne⟩
  · exact isNormalized_escapedLineEnd fun hline => by simpa [IsNormalized.nil] using ⟨h, hline⟩

theorem isNormalized_writeName {name : List Char} (h : '\x00' ∉ name) :
    IsNormalized (writeName name) := by
  induction name with
  | nil => exact IsNormalized.nil
  | cons c cs ih =>
      rw [List.mem_cons, not_or] at h
      exact IsNormalized.append_iff.mpr ⟨isNormalized_writeNameChar (Ne.symm h.1), ih h.2⟩

theorem isNormalized_hexDigits (n : Nat) : IsNormalized (hexDigits n) := by
  intro c hc
  have hhex := isHexDigit_of_mem_hexDigits n c hc
  refine ⟨?_, ?_, ?_⟩ <;> rintro rfl <;> exact absurd hhex (by decide)

private theorem isNormalized_writeFirstChar {c : Char} (h : c ≠ '\x00') :
    IsNormalized (writeFirstChar c) := by
  unfold writeFirstChar
  split
  · rename_i hc
    have hname := isNormalized_writeNameChar h
    rwa [writeNameChar, if_pos (isNameChar_of_isNameStart hc)] at hname
  · split
    · simp [isNormalized_hexDigits, IsNormalized.nil]
    · exact isNormalized_escapedLineEnd fun hline => by simpa [IsNormalized.nil] using ⟨h, hline⟩

theorem isNormalized_writeIdent {name : List Char} (h : '\x00' ∉ name) :
    IsNormalized (writeIdent name) := by
  unfold writeIdent
  split
  · exact IsNormalized.nil
  · simp [IsNormalized.nil]
  · rename_i cs
    simp only [List.mem_cons, not_or] at h
    simp [isNormalized_writeName h.2.2]
  · rename_i c cs _
    simp only [List.mem_cons, not_or] at h
    simp [isNormalized_writeName h.2.2, isNormalized_writeFirstChar (Ne.symm h.2.1)]
  · rename_i c cs _ _ _
    simp only [List.mem_cons, not_or] at h
    simp [isNormalized_writeName h.2, isNormalized_writeFirstChar (Ne.symm h.1)]

end Normalized

end MediaSplit.Css
