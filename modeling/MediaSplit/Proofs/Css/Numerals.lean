import Mathlib.Data.List.TakeWhile
import MediaSplit.Proofs.Css.Names

/-!
Numbers are kept as they are written. A number is read again as the same characters when what
follows it neither goes on with its digits nor gives it a fraction or an exponent that it does
not have.
-/

namespace MediaSplit.Css

/-- Whether a text starts with a point and a digit. -/
def pointDigit : List Char → Bool
  | '.' :: cs => startsWith Char.isDigit cs
  | _ => false

def AreDigits (digits : List Char) : Prop :=
  ∀ c ∈ digits, c.isDigit = true

inductive IsSign : List Char → Prop
  | none : IsSign []
  | plus : IsSign ['+']
  | minus : IsSign ['-']

inductive IsMantissa : List Char → Prop
  | whole {digits : List Char} (hdigits : AreDigits digits) (hne : digits ≠ []) :
      IsMantissa digits
  | fraction {whole digits : List Char} (hwhole : AreDigits whole) (hdigits : AreDigits digits)
      (hne : digits ≠ []) : IsMantissa (whole ++ '.' :: digits)

inductive IsExponent : List Char → Prop
  | none : IsExponent []
  | some {c : Char} {sign digits : List Char} (hc : c = 'e' ∨ c = 'E') (hsign : IsSign sign)
      (hdigits : AreDigits digits) (hne : digits ≠ []) : IsExponent (c :: sign ++ digits)

def IsNumeral (numeral : List Char) : Prop :=
  ∃ sign mantissa exponent, IsSign sign ∧ IsMantissa mantissa ∧ IsExponent exponent ∧
    numeral = sign ++ mantissa ++ exponent

/-- Whether a number is written with an exponent. -/
def hasExponent (numeral : List Char) : Bool :=
  numeral.any fun c => c == 'e' || c == 'E'

section Digits

theorem spanDigits_append {digits rest : List Char} (hdigits : AreDigits digits)
    (hrest : startsWith Char.isDigit rest = false) :
    spanDigits (digits ++ rest) = (digits, rest) := by
  induction digits with
  | nil =>
      cases rest with
      | nil => rfl
      | cons c cs =>
          have hc : c.isDigit = false := hrest
          simp [spanDigits, hc]
  | cons c cs ih =>
      have hc : c.isDigit = true := hdigits c List.mem_cons_self
      have hcs := ih fun d hd => hdigits d (List.mem_cons_of_mem c hd)
      simp only [spanDigits, Prod.mk.injEq] at hcs
      simp [spanDigits, hc, hcs]

theorem areDigits_spanDigits (cs : List Char) : AreDigits (spanDigits cs).1 :=
  fun _ hc => List.mem_takeWhile_imp hc

theorem spanDigits_append_eq (cs : List Char) : (spanDigits cs).1 ++ (spanDigits cs).2 = cs :=
  List.takeWhile_append_dropWhile

theorem startsWith_dropWhile (p : Char → Bool) (cs : List Char) :
    startsWith p (cs.dropWhile p) = false := by
  induction cs with
  | nil => rfl
  | cons c cs ih =>
      rw [List.dropWhile_cons]
      split
      · exact ih
      · rename_i hc
        simpa using hc

theorem startsWith_spanDigits (cs : List Char) :
    startsWith Char.isDigit (spanDigits cs).2 = false :=
  startsWith_dropWhile Char.isDigit cs

end Digits

section Mantissa

theorem isMantissa_of_scanMantissa? {cs mantissa rest : List Char}
    (h : scanMantissa? cs = some (mantissa, rest)) :
    IsMantissa mantissa ∧ cs = mantissa ++ rest ∧ startsWith Char.isDigit rest = false := by
  have hwhole := areDigits_spanDigits cs
  have hcs := spanDigits_append_eq cs
  have hstart := startsWith_spanDigits cs
  unfold scanMantissa? at h
  cases hspan : spanDigits cs with
  | mk whole after =>
      rw [hspan] at h hwhole hcs hstart
      have digits_alone (h : (if whole.isEmpty then none else some (whole, after)) =
          some (mantissa, rest)) : IsMantissa mantissa ∧ cs = mantissa ++ rest ∧
            startsWith Char.isDigit rest = false := by
        split at h
        · exact absurd h (by simp)
        · rename_i hne
          obtain ⟨rfl, rfl⟩ := Prod.mk.inj (Option.some.inj h)
          exact ⟨.whole hwhole (by simpa using hne), hcs.symm, hstart⟩
      simp only at h
      split at h
      · rename_i after'
        have hfraction := areDigits_spanDigits after'
        have hcs' := spanDigits_append_eq after'
        have hstart' := startsWith_spanDigits after'
        split at h
        · exact digits_alone h
        · rename_i fraction after'' hne heq
          rw [heq] at hfraction hcs' hstart'
          obtain ⟨rfl, rfl⟩ := Prod.mk.inj (Option.some.inj h)
          refine ⟨.fraction hwhole hfraction ?_, ?_, hstart'⟩
          · rintro rfl
            exact hne rfl
          · rw [← hcs, ← hcs']
            simp
      · exact digits_alone h

theorem scanMantissa?_append {mantissa rest : List Char} (h : IsMantissa mantissa)
    (hdigit : startsWith Char.isDigit rest = false) (hpoint : pointDigit rest = false) :
    scanMantissa? (mantissa ++ rest) = some (mantissa, rest) := by
  unfold scanMantissa?
  cases h with
  | whole hdigits hne =>
      rw [spanDigits_append hdigits hdigit]
      simp only
      split
      · rename_i after
        have hspan : spanDigits ([] ++ after) = ([], after) :=
          spanDigits_append (fun c hc => absurd hc List.not_mem_nil) hpoint
        rw [List.nil_append] at hspan
        simp [hspan, hne]
      · simp [hne]
  | fraction hwhole hdigits hne =>
      rename_i whole digits
      have hspan : spanDigits (whole ++ '.' :: digits ++ rest) = (whole, '.' :: (digits ++ rest)) := by
        rw [List.append_assoc]
        exact spanDigits_append hwhole rfl
      rw [hspan]
      simp only [spanDigits_append hdigits hdigit]

theorem spanDigits_eq_nil_iff (cs : List Char) :
    (spanDigits cs).1 = [] ↔ startsWith Char.isDigit cs = false := by
  cases cs with
  | nil => simp [spanDigits]
  | cons c cs => cases hc : c.isDigit <;> simp [spanDigits, hc]

theorem spanDigits_of_not_startsWith {cs : List Char} (h : startsWith Char.isDigit cs = false) :
    spanDigits cs = ([], cs) :=
  spanDigits_append (fun _ hc => absurd hc List.not_mem_nil) h

/-- Where no number starts, there is neither a digit nor a point before one. -/
theorem scanMantissa?_eq_none_iff (cs : List Char) :
    scanMantissa? cs = none ↔ startsWith Char.isDigit cs = false ∧ pointDigit cs = false := by
  cases hdigit : startsWith Char.isDigit cs with
  | true =>
      have hne : (spanDigits cs).1.isEmpty = false := by
        cases hspan : (spanDigits cs).1 with
        | nil => exact absurd ((spanDigits_eq_nil_iff cs).mp hspan) (by simp [hdigit])
        | cons d ds => rfl
      refine iff_of_false ?_ (by simp)
      unfold scanMantissa?
      simp only [hne]
      split
      · split <;> simp
      · simp
  | false =>
      unfold scanMantissa?
      rw [spanDigits_of_not_startsWith hdigit]
      simp only [List.isEmpty_nil, if_true, true_and]
      split
      · rename_i after
        simp only [pointDigit]
        rw [← spanDigits_eq_nil_iff]
        split
        · rename_i heq
          simp [heq]
        · rename_i digits rest hne heq
          simp only [heq, reduceCtorEq, false_iff]
          exact hne
      · rename_i hpoint
        refine iff_of_true rfl ?_
        unfold pointDigit
        split
        · exact absurd rfl (hpoint _)
        · rfl

end Mantissa

section Numerals

theorem spanSign_append {sign rest : List Char} (h : IsSign sign)
    (hrest : startsWith (fun c => c == '+' || c == '-') rest = false) :
    spanSign (sign ++ rest) = (sign, rest) := by
  cases h with
  | none =>
      unfold spanSign
      split <;> simp_all
  | plus => rfl
  | minus => rfl

theorem isSign_spanSign (cs : List Char) : IsSign (spanSign cs).1 := by
  unfold spanSign
  split
  · exact .plus
  · exact .minus
  · exact .none

theorem spanSign_append_eq (cs : List Char) : (spanSign cs).1 ++ (spanSign cs).2 = cs := by
  unfold spanSign
  split <;> rfl

theorem beq_of_isDigit {c d : Char} (hd : d.isDigit = true) (hc : c.isDigit = false) :
    (d == c) = false := by
  rw [beq_eq_false_iff_ne]
  rintro rfl
  rw [hd] at hc
  exact absurd hc (by decide)

theorem startsWith_of_areDigits {p : Char → Bool} {digits : List Char} (h : AreDigits digits)
    (hne : digits ≠ []) (hp : ∀ c : Char, c.isDigit = true → p c = false) (rest : List Char) :
    startsWith p (digits ++ rest) = false := by
  cases digits with
  | nil => exact absurd rfl hne
  | cons c cs => exact hp c (h c List.mem_cons_self)

theorem isExponent_spanExponent {cs : List Char} (hcs : startsWith Char.isDigit cs = false) :
    IsExponent (spanExponent cs).1 ∧ (spanExponent cs).1 ++ (spanExponent cs).2 = cs ∧
      startsWith Char.isDigit (spanExponent cs).2 = false := by
  unfold spanExponent
  split
  · rename_i c cs
    split
    · rename_i hc
      have hsign := isSign_spanSign cs
      have hunsigned := spanSign_append_eq cs
      cases hspan : spanSign cs with
      | mk sign unsigned =>
          rw [hspan] at hsign hunsigned
          have hdigits := areDigits_spanDigits unsigned
          have happend := spanDigits_append_eq unsigned
          have hstart := startsWith_spanDigits unsigned
          simp only
          split
          · exact ⟨.none, rfl, hcs⟩
          · rename_i digits rest hne heq
            rw [heq] at hdigits happend hstart
            refine ⟨.some (by simpa using hc) hsign hdigits ?_, ?_, hstart⟩
            · rintro rfl
              exact hne rfl
            · rw [← hunsigned, ← happend]
              simp
    · exact ⟨.none, rfl, hcs⟩
  · exact ⟨.none, rfl, hcs⟩

theorem spanExponent_append {exponent rest : List Char} (h : IsExponent exponent)
    (hdigit : startsWith Char.isDigit rest = false)
    (hnone : exponent = [] → spanExponent rest = ([], rest)) :
    spanExponent (exponent ++ rest) = (exponent, rest) := by
  cases h with
  | none => exact hnone rfl
  | some hc hsign hdigits hne =>
      rename_i c sign digits
      have hunsigned : spanSign (sign ++ (digits ++ rest)) = (sign, digits ++ rest) :=
        spanSign_append hsign (startsWith_of_areDigits hdigits hne (fun d hd => by
          rw [beq_of_isDigit hd rfl, beq_of_isDigit hd rfl]
          rfl) rest)
      have hc' : (c == 'e' || c == 'E') = true := by simpa using hc
      simp only [spanExponent, List.cons_append, List.append_assoc, hc', if_true, hunsigned,
        spanDigits_append hdigits hdigit]

theorem startsWith_mantissa {p : Char → Bool} {mantissa : List Char} (h : IsMantissa mantissa)
    (hp : ∀ c : Char, c.isDigit = true → p c = false) (hpoint : p '.' = false) (rest : List Char) :
    startsWith p (mantissa ++ rest) = false := by
  cases h with
  | whole hdigits hne => exact startsWith_of_areDigits hdigits hne hp rest
  | fraction hwhole hdigits hne =>
      rename_i whole digits
      cases whole with
      | nil => exact hpoint
      | cons c cs => exact hp c (hwhole c List.mem_cons_self)

/-- A number that is read is one as it is written, and a digit cannot follow it. -/
theorem isNumeral_of_scanNumeral? {cs numeral rest : List Char}
    (h : scanNumeral? cs = some (numeral, rest)) :
    IsNumeral numeral ∧ cs = numeral ++ rest ∧ startsWith Char.isDigit rest = false := by
  unfold scanNumeral? at h
  have hsign := isSign_spanSign cs
  have hcs := spanSign_append_eq cs
  simp only at h
  split at h
  · exact absurd h (by simp)
  · rename_i mantissa after heq
    obtain ⟨hmantissa, hafter, hdigit⟩ := isMantissa_of_scanMantissa? heq
    obtain ⟨hexponent, happend, hrest⟩ := isExponent_spanExponent hdigit
    obtain ⟨rfl, rfl⟩ := Prod.mk.inj (Option.some.inj h)
    refine ⟨⟨_, _, _, hsign, hmantissa, hexponent, rfl⟩, ?_, hrest⟩
    rw [List.append_assoc, happend, List.append_assoc, ← hafter, hcs]

private theorem hasExponent_eq_false {sign mantissa : List Char} (hsign : IsSign sign)
    (hmantissa : IsMantissa mantissa) : hasExponent (sign ++ mantissa ++ []) = false := by
  have hdigits {digits : List Char} (h : AreDigits digits) :
      digits.any (fun c => c == 'e' || c == 'E') = false := by
    rw [List.any_eq_false]
    intro c hc
    simp [beq_of_isDigit (h c hc) (c := 'e') rfl, beq_of_isDigit (h c hc) (c := 'E') rfl]
  have hmantissa' : hasExponent mantissa = false := by
    cases hmantissa with
    | whole h hne => exact hdigits h
    | fraction hwhole h hne => simp [hasExponent, List.any_append, hdigits hwhole, hdigits h]
  cases hsign <;> simpa [hasExponent] using hmantissa'

/-- A number that is written is read back where its digits end and no exponent is gained. -/
theorem scanNumeral?_append {numeral rest : List Char} (h : IsNumeral numeral)
    (hdigit : startsWith Char.isDigit rest = false) (hpoint : pointDigit rest = false)
    (hexponent : hasExponent numeral = false → spanExponent rest = ([], rest)) :
    scanNumeral? (numeral ++ rest) = some (numeral, rest) := by
  obtain ⟨sign, mantissa, exponent, hsign, hmantissa, hexp, rfl⟩ := h
  have hunsigned : spanSign (sign ++ (mantissa ++ (exponent ++ rest))) =
      (sign, mantissa ++ (exponent ++ rest)) :=
    spanSign_append hsign (startsWith_mantissa hmantissa (fun d hd => by
      rw [beq_of_isDigit hd rfl, beq_of_isDigit hd rfl]
      rfl) rfl _)
  have hafter : startsWith Char.isDigit (exponent ++ rest) = false ∧
      pointDigit (exponent ++ rest) = false := by
    cases hexp with
    | none => exact ⟨hdigit, hpoint⟩
    | some hc =>
        rcases hc with rfl | rfl
        · exact ⟨rfl, rfl⟩
        · exact ⟨rfl, rfl⟩
  have hspan : spanExponent (exponent ++ rest) = (exponent, rest) := by
    refine spanExponent_append hexp hdigit ?_
    rintro rfl
    exact hexponent (hasExponent_eq_false hsign hmantissa)
  simp only [scanNumeral?, List.append_assoc, hunsigned,
    scanMantissa?_append hmantissa hafter.1 hafter.2, hspan]

theorem scanNumeral?_eq_none_iff (cs : List Char) :
    scanNumeral? cs = none ↔ startsWith Char.isDigit (spanSign cs).2 = false ∧
      pointDigit (spanSign cs).2 = false := by
  rw [← scanMantissa?_eq_none_iff]
  unfold scanNumeral?
  cases h : scanMantissa? (spanSign cs).2 <;> simp [h]

/-- A number is an optional sign before a digit or before a point and a digit. -/
theorem IsNumeral.exists_unsigned {numeral : List Char} (h : IsNumeral numeral) :
    ∃ sign unsigned, IsSign sign ∧ numeral = sign ++ unsigned ∧ ∀ rest,
      startsWith Char.isDigit (unsigned ++ rest) = true ∨ pointDigit (unsigned ++ rest) = true := by
  obtain ⟨sign, mantissa, exponent, hsign, hmantissa, _, rfl⟩ := h
  refine ⟨sign, mantissa ++ exponent, hsign, List.append_assoc _ _ _, ?_⟩
  intro rest
  cases hmantissa with
  | whole hdigits hne =>
      cases mantissa with
      | nil => exact absurd rfl hne
      | cons c cs => exact .inl (hdigits c List.mem_cons_self)
  | fraction hwhole hdigits hne =>
      rename_i whole digits
      cases whole with
      | cons c cs => exact .inl (hwhole c List.mem_cons_self)
      | nil =>
          cases digits with
          | nil => exact absurd rfl hne
          | cons c cs => exact .inr (hdigits c List.mem_cons_self)

theorem isNameStart_of_isDigit {c : Char} (h : c.isDigit = true) : isNameStart c = false := by
  have hline : (c == '_') = false := beq_of_isDigit h rfl
  have hrange := isDigit_iff.mp h
  have halpha : c.isAlpha = false := by
    rw [Bool.eq_false_iff, ne_eq, isAlpha_iff]
    omega
  have hbelow : ¬ 0x7F < c.toNat := by omega
  simp [isNameStart, hline, halpha, hbelow]

theorem isSpace_of_isDigit {c : Char} (h : c.isDigit = true) : isSpace c = false := by
  simp [isSpace, beq_of_isDigit h (c := ' ') rfl, beq_of_isDigit h (c := '\n') rfl,
    beq_of_isDigit h (c := '\t') rfl]

/-- What a text starts with that starts with an unsigned number. -/
private theorem exists_head_of_unsigned {text : List Char}
    (h : startsWith Char.isDigit text = true ∨ pointDigit text = true) :
    ∃ c cs, text = c :: cs ∧ (c.isDigit = true ∨ c = '.') := by
  cases text with
  | nil => exact absurd h (by decide)
  | cons c cs =>
      refine ⟨c, cs, rfl, ?_⟩
      rcases h with h | h
      · exact .inl h
      · unfold pointDigit at h
        split at h
        · exact .inr (by simp_all)
        · exact absurd h (by decide)

private theorem plain_of_digit_or_point {c : Char} (h : c.isDigit = true ∨ c = '.') :
    isNameStart c = false ∧ c ≠ '-' ∧ c ≠ '\\' := by
  rcases h with h | rfl
  · refine ⟨isNameStart_of_isDigit h, ?_, ?_⟩
    · exact beq_eq_false_iff_ne.mp (beq_of_isDigit h rfl)
    · exact beq_eq_false_iff_ne.mp (beq_of_isDigit h rfl)
  · decide

theorem startsIdent_of_isDigit {c : Char} (cs : List Char) (h : c.isDigit = true) :
    startsIdent (c :: cs) = false := by
  obtain ⟨hstart, hhyphen, hbackslash⟩ := plain_of_digit_or_point (.inl h)
  rw [startsIdent_eq_or cs hhyphen, hstart, startsEscape_eq_false cs hbackslash]
  rfl

theorem startsIdent_hyphen_of_isDigit {c : Char} (cs : List Char) (h : c.isDigit = true) :
    startsIdent ('-' :: c :: cs) = false := by
  obtain ⟨hstart, hhyphen, hbackslash⟩ := plain_of_digit_or_point (.inl h)
  simp [startsIdent_hyphen, hstart, hhyphen, startsEscape_eq_false cs hbackslash]

/-- A number never starts an identifier. -/
theorem IsNumeral.startsIdent_append {numeral : List Char} (h : IsNumeral numeral)
    (rest : List Char) : startsIdent (numeral ++ rest) = false := by
  obtain ⟨sign, unsigned, hsign, rfl, hunsigned⟩ := h.exists_unsigned
  obtain ⟨c, cs, hcs, hc⟩ := exists_head_of_unsigned (hunsigned rest)
  obtain ⟨hstart, hhyphen, hbackslash⟩ := plain_of_digit_or_point hc
  rw [List.append_assoc, hcs]
  cases hsign with
  | none =>
      rw [List.nil_append, startsIdent_eq_or cs hhyphen, hstart, startsEscape_eq_false cs hbackslash]
      rfl
  | plus => rfl
  | minus =>
      simp [startsIdent_hyphen, hstart, startsEscape_eq_false cs hbackslash, hhyphen]

/-- A number starts with a sign, a digit or a point. -/
theorem IsNumeral.startsWith_append {p : Char → Bool} {numeral : List Char} (h : IsNumeral numeral)
    (hp : ∀ c : Char, c.isDigit = true → p c = false)
    (hother : p '+' = false ∧ p '-' = false ∧ p '.' = false) (rest : List Char) :
    startsWith p (numeral ++ rest) = false := by
  obtain ⟨sign, unsigned, hsign, rfl, hunsigned⟩ := h.exists_unsigned
  obtain ⟨c, cs, hcs, hc⟩ := exists_head_of_unsigned (hunsigned rest)
  rw [List.append_assoc, hcs]
  cases hsign with
  | none =>
      rcases hc with hc | rfl
      · exact hp c hc
      · exact hother.2.2
  | plus => exact hother.1
  | minus => exact hother.2.1

theorem IsNumeral.ne_nil {numeral : List Char} (h : IsNumeral numeral) : numeral ≠ [] := by
  obtain ⟨sign, mantissa, exponent, -, hmantissa, -, rfl⟩ := h
  cases hmantissa <;> simp_all

theorem pointDigit_eq_false {c : Char} (cs : List Char) (h : c ≠ '.') :
    pointDigit (c :: cs) = false := by
  unfold pointDigit
  split <;> simp_all

/-- A number is read where a point and a digit stand exactly if it starts with that point. -/
theorem IsNumeral.pointDigit_append {numeral : List Char} (h : IsNumeral numeral)
    (rest : List Char) : pointDigit (numeral ++ rest) = (numeral.head? == some '.') := by
  have hne := h.ne_nil
  have hread := h.exists_unsigned
  cases numeral with
  | nil => exact absurd rfl hne
  | cons c cs =>
      by_cases hc : c = '.'
      · subst hc
        obtain ⟨sign, unsigned, hsign, heq, hunsigned⟩ := hread
        cases hsign with
        | none =>
            rw [List.nil_append] at heq
            rcases hunsigned rest with hdigit | hpoint
            · rw [← heq] at hdigit
              exact absurd hdigit (by simp)
            · rw [heq, hpoint, ← heq]
              rfl
        | plus => exact absurd (List.cons.inj heq).1 (by decide)
        | minus => exact absurd (List.cons.inj heq).1 (by decide)
      · rw [List.cons_append, pointDigit_eq_false _ hc]
        simp [hc]

theorem spanExponent_of_startsWith {text : List Char}
    (h : startsWith (fun c => c == 'e' || c == 'E') text = false) :
    spanExponent text = ([], text) := by
  cases text with
  | nil => rfl
  | cons c cs =>
      have hc : (c == 'e' || c == 'E') = false := h
      rw [spanExponent, if_neg (by simp [hc])]

theorem IsNumeral.normalized {numeral : List Char} (h : IsNumeral numeral) :
    IsNormalized numeral := by
  have hdigits {digits : List Char} (h : AreDigits digits) : IsNormalized digits := by
    intro c hc
    have hdigit := h c hc
    refine ⟨?_, ?_, ?_⟩ <;> rintro rfl <;> exact absurd hdigit (by decide)
  have hsigns {sign : List Char} (h : IsSign sign) : IsNormalized sign := by
    cases h <;> simp [IsNormalized.nil]
  obtain ⟨sign, mantissa, exponent, hsign, hmantissa, hexp, rfl⟩ := h
  have hmantissa' : IsNormalized mantissa := by
    cases hmantissa with
    | whole h hne => exact hdigits h
    | fraction hwhole h hne => simp [hdigits hwhole, hdigits h]
  have hexp' : IsNormalized exponent := by
    cases hexp with
    | none => exact IsNormalized.nil
    | some hc hsign h hne => rcases hc with rfl | rfl <;> simp [hsigns hsign, hdigits h]
  simp [hsigns hsign, hmantissa', hexp']

end Numerals

end MediaSplit.Css
