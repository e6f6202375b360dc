import MediaSplit.Proofs.Css.Names

/-!
Strings, addresses, comments and ranges of code points are read back from what is written for
them. An address must not hold a control character, because none of those is escaped in it.
-/

namespace MediaSplit.Css

section Strings

private theorem scanString_backslash {c : Char} (cs : List Char) (hline : c ≠ '\n') :
    scanString '"' ('\\' :: c :: cs) =
      ((scanEscape (c :: cs)).1 :: (scanString '"' (scanEscape (c :: cs)).2).1,
        (scanString '"' (scanEscape (c :: cs)).2).2) := by
  rw [scanString]
  · simp only [beq_iff_eq, if_false, Char.reduceEq, if_true]
  · exact hline

private theorem scanString_plain {c : Char} (cs : List Char) (hquote : c ≠ '"')
    (hline : c ≠ '\n') (hbackslash : c ≠ '\\') :
    scanString '"' (c :: cs) = (c :: (scanString '"' cs).1, (scanString '"' cs).2) := by
  rw [scanString.eq_def]
  simp [hquote, hline, hbackslash]

private theorem scanString_escapedLineEnd {c : Char} {written : List Char} (rest : List Char)
    (h : escapedLineEnd? c = some written) :
    scanString '"' (written ++ rest) =
      (c :: (scanString '"' rest).1, (scanString '"' rest).2) := by
  obtain ⟨d, hd, rfl, hescape⟩ := exists_hexDigit_of_escapedLineEnd h
  have hne : d ≠ '\n' := by
    rintro rfl
    exact absurd hd (by decide)
  simp only [List.cons_append, List.nil_append]
  rw [scanString_backslash _ hne, hescape]

theorem scanString_writeStringChar (c : Char) (rest : List Char) :
    scanString '"' (writeStringChar c ++ rest) =
      (c :: (scanString '"' rest).1, (scanString '"' rest).2) := by
  unfold writeStringChar
  split
  · rename_i hc
    have hplain : isHexDigit c = false ∧ c ≠ '\n' := by
      rcases (by simpa using hc : c = '"' ∨ c = '\\') with rfl | rfl <;> decide
    simp only [List.cons_append, List.nil_append]
    rw [scanString_backslash _ hplain.2, scanEscape_cons _ hplain.1]
  · rename_i hc
    cases hline : escapedLineEnd? c with
    | some written => exact scanString_escapedLineEnd rest hline
    | none =>
        have hne : c ≠ '\n' := by
          rintro rfl
          exact absurd hline (by decide)
        simp only [Bool.or_eq_true, not_or, beq_iff_eq] at hc
        exact scanString_plain rest hc.1 hne hc.2

/-- A string that is written with its closing quote is read back. -/
theorem scanString_append (value rest : List Char) :
    scanString '"' (value.flatMap writeStringChar ++ '"' :: rest) = (value, .quote, rest) := by
  induction value with
  | nil =>
      rw [List.flatMap_nil, List.nil_append, scanString.eq_def]
      simp
  | cons c cs ih => rw [List.flatMap_cons, List.append_assoc, scanString_writeStringChar, ih]

theorem scanString_normalized {quote : Char} {cs : List Char} (h : IsNormalized cs) :
    '\x00' ∉ (scanString quote cs).1 ∧ IsNormalized (scanString quote cs).2.2 := by
  fun_induction scanString quote cs with
  | case1 => exact ⟨List.not_mem_nil, IsNormalized.nil⟩
  | case2 => exact ⟨List.not_mem_nil, h.of_cons⟩
  | case3 => exact ⟨List.not_mem_nil, h⟩
  | case4 => exact ⟨List.not_mem_nil, IsNormalized.nil⟩
  | case5 c _ _ _ rest ih => exact ih h.of_cons.of_cons
  | case6 c _ _ _ d rest _ escape value ending rest' heq ih =>
      rw [heq] at ih
      obtain ⟨hd, hescape⟩ := scanEscape_normalized h.of_cons
      obtain ⟨hvalue, hrest⟩ := ih hescape
      exact ⟨List.not_mem_cons_of_ne_of_not_mem hd.symm hvalue, hrest⟩
  | case7 c cs _ _ _ value ending rest heq ih =>
      rw [heq] at ih
      obtain ⟨hvalue, hrest⟩ := ih h.of_cons
      exact ⟨List.not_mem_cons_of_ne_of_not_mem (h c List.mem_cons_self).1.symm hvalue, hrest⟩

theorem isNormalized_writeString {value : List Char} (h : '\x00' ∉ value) :
    IsNormalized (value.flatMap writeStringChar) := by
  induction value with
  | nil => exact IsNormalized.nil
  | cons c cs ih =>
      rw [List.mem_cons, not_or] at h
      refine IsNormalized.append_iff.mpr ⟨?_, ih h.2⟩
      unfold writeStringChar
      split
      · rename_i hc
        rcases (by simpa using hc : c = '"' ∨ c = '\\') with rfl | rfl <;> simp [IsNormalized.nil]
      · exact isNormalized_escapedLineEnd fun hline => by
          simpa [IsNormalized.nil] using ⟨Ne.symm h.1, hline⟩

end Strings

section Comments

private theorem scanComment_cons {c : Char} {cs : List Char}
    (h : ∀ rest, c = '*' → cs = '/' :: rest → False) :
    scanComment (c :: cs) = (c :: (scanComment cs).1, (scanComment cs).2) := by
  rw [scanComment]
  exact h

/-- A comment ends at its first closing mark. -/
theorem scanComment_append {text : List Char} (h : scanComment text = (text, []))
    (rest : List Char) : scanComment (text ++ '*' :: '/' :: rest) = (text, rest) := by
  fun_induction scanComment text with
  | case1 => rfl
  | case2 cs => exact absurd (Prod.mk.inj h).1 (by simp)
  | case3 c cs hmark text after heq ih =>
      obtain ⟨htext, rfl⟩ := Prod.mk.inj h
      obtain ⟨-, rfl⟩ := List.cons.inj htext
      rw [List.cons_append, scanComment_cons, ih heq]
      intro after hc hcs
      cases text with
      | nil => exact absurd hcs (by simp)
      | cons d ds =>
          obtain ⟨rfl, -⟩ := List.cons.inj hcs
          exact hmark ds hc rfl

/-- What is read of a comment holds no closing mark. -/
theorem scanComment_scanComment (cs : List Char) :
    scanComment (scanComment cs).1 = ((scanComment cs).1, []) := by
  fun_induction scanComment cs with
  | case1 => rfl
  | case2 => rfl
  | case3 c cs hmark text rest heq ih =>
      rw [heq] at ih
      rw [scanComment_cons, ih]
      rintro after rfl rfl
      cases cs with
      | nil => exact absurd (Prod.mk.inj heq).1 (by simp)
      | cons d ds =>
          have hd : d ≠ '/' := by
            rintro rfl
            exact hmark ds rfl rfl
          unfold scanComment at heq
          split at heq <;> simp_all

theorem scanComment_normalized {cs : List Char} (h : IsNormalized cs) :
    IsNormalized (scanComment cs).1 ∧ IsNormalized (scanComment cs).2 := by
  fun_induction scanComment cs with
  | case1 => exact ⟨IsNormalized.nil, IsNormalized.nil⟩
  | case2 cs => exact ⟨IsNormalized.nil, h.of_cons.of_cons⟩
  | case3 c cs _ text rest heq ih =>
      rw [heq] at ih
      obtain ⟨htext, hrest⟩ := ih h.of_cons
      exact ⟨IsNormalized.cons_iff.mpr ⟨h c List.mem_cons_self, htext⟩, hrest⟩

end Comments

section Addresses

/-- Control characters other than blanks and line ends. They are not escaped in an address, and
make it malformed. -/
def isControl (c : Char) : Bool :=
  c.toNat ≤ 8 || c.toNat == 0x0B || (0x0E ≤ c.toNat && c.toNat ≤ 0x1F) || c.toNat == 0x7F

/-- What an address is once one more character has been read before it. -/
private def urlCons (c : Char) : Atom × List Char → Atom × List Char
  | (.url value closed, rest) => (.url (c :: value) closed, rest)
  | other => other

private theorem scanUrl_escape (cs : List Char) (h : startsEscape ('\\' :: cs) = true) :
    scanUrl ('\\' :: cs) = urlCons (scanEscape cs).1 (scanUrl (scanEscape cs).2) := by
  rw [scanUrl.eq_def]
  simp only [Char.reduceBEq, Bool.false_eq_true, if_false, h, if_true]
  rfl

private theorem scanUrl_plain {c : Char} (cs : List Char) (hspace : isSpace c = false)
    (hclose : c ≠ ')') (hbackslash : c ≠ '\\') (hforbidden : isForbiddenInUrl c = false) :
    scanUrl (c :: cs) = urlCons c (scanUrl cs) := by
  rw [scanUrl.eq_def]
  simp [hspace, hclose, startsEscape_eq_false cs hbackslash, hforbidden]
  rfl

theorem scanUrl_writeUrlChar {c : Char} (rest : List Char) (h : isControl c = false) :
    scanUrl (writeUrlChar c ++ rest) = urlCons c (scanUrl rest) := by
  unfold writeUrlChar
  split
  · rename_i hc
    have hplain : isHexDigit c = false ∧ c ≠ '\n' := by
      simp only [Bool.or_eq_true, beq_iff_eq] at hc
      rcases hc with ((((rfl | rfl) | rfl) | rfl) | rfl) | rfl <;> decide
    simp only [List.cons_append, List.nil_append]
    rw [scanUrl_escape _ (startsEscape_backslash rest hplain.2), scanEscape_cons _ hplain.1]
  · rename_i hquoted
    split
    · rename_i hc
      obtain rfl := beq_iff_eq.mp hc
      exact scanUrl_escape _ rfl
    · rename_i htab
      cases hline : escapedLineEnd? c with
      | some written =>
          obtain ⟨d, hd, rfl, hescape⟩ := exists_hexDigit_of_escapedLineEnd hline
          have hne : d ≠ '\n' := by
            rintro rfl
            exact absurd hd (by decide)
          simp only [Option.getD_some, List.cons_append, List.nil_append]
          rw [scanUrl_escape _ (startsEscape_backslash (' ' :: rest) hne), hescape]
      | none =>
          have hne : c ≠ '\n' := by
            rintro rfl
            exact absurd hline (by decide)
          simp only [Bool.or_eq_true, not_or, beq_iff_eq] at hquoted htab
          refine scanUrl_plain rest ?_ hquoted.2 hquoted.1.1.2 ?_
          · simp [isSpace, hquoted, hne, htab]
          · simpa [isForbiddenInUrl, isControl, hquoted] using h

/-- An address without control characters that is written with its closing parenthesis is read
back. -/
theorem scanUrl_append {value : List Char} (h : ∀ c ∈ value, isControl c = false)
    (rest : List Char) :
    scanUrl (value.flatMap writeUrlChar ++ ')' :: rest) = (.url value true, rest) := by
  induction value with
  | nil =>
      rw [List.flatMap_nil, List.nil_append, scanUrl.eq_def]
      simp
  | cons c cs ih =>
      have hcs := ih fun d hd => h d (List.mem_cons_of_mem c hd)
      rw [List.flatMap_cons, List.append_assoc, scanUrl_writeUrlChar _ (h c List.mem_cons_self), hcs]
      rfl

/-- The characters that stand for a malformed address are malformed themselves: a blank in the
middle of them makes them so. -/
theorem scanUrl_bad (rest : List Char) :
    scanUrl ("[bad url])".toList ++ rest) = (.badUrl, rest) := by
  have hblank : scanUrl (" url])".toList ++ rest) = (.badUrl, rest) := by
    change scanUrl (' ' :: ("url])".toList ++ rest)) = _
    rw [scanUrl.eq_def]
    rfl
  change scanUrl ('[' :: 'b' :: 'a' :: 'd' :: (" url])".toList ++ rest)) = _
  rw [scanUrl_plain _ rfl (by decide) (by decide) rfl, scanUrl_plain _ rfl (by decide) (by decide) rfl,
    scanUrl_plain _ rfl (by decide) (by decide) rfl, scanUrl_plain _ rfl (by decide) (by decide) rfl,
    hblank]
  rfl

/-- A written address starts neither with a blank nor with a quote. -/
theorem startsWith_writeUrl {p : Char → Bool} (hp : p '\\' = false ∧ p ')' = false)
    (hplain : ∀ c, isSpace c = false → c ≠ '"' → c ≠ '\'' → p c = false) (value rest : List Char) :
    startsWith p (value.flatMap writeUrlChar ++ ')' :: rest) = false := by
  cases value with
  | nil => exact hp.2
  | cons c cs =>
      simp only [List.flatMap_cons, List.append_assoc]
      unfold writeUrlChar
      split
      · exact hp.1
      · rename_i hquoted
        split
        · exact hp.1
        · rename_i htab
          cases hline : escapedLineEnd? c with
          | some written =>
              obtain ⟨d, -, rfl, -⟩ := exists_hexDigit_of_escapedLineEnd hline
              exact hp.1
          | none =>
              have hne : c ≠ '\n' := by
                rintro rfl
                exact absurd hline (by decide)
              simp only [Bool.or_eq_true, not_or, beq_iff_eq] at hquoted htab
              refine hplain c ?_ hquoted.1.1.1.1.2 hquoted.1.1.1.1.1
              simp [isSpace, hquoted, hne, htab]

theorem skipBadUrl_suffix (cs : List Char) : skipBadUrl cs <:+ cs := by
  fun_induction skipBadUrl cs with
  | case1 => exact List.suffix_refl _
  | case2 cs ih => exact (ih.trans (List.suffix_cons _ _)).trans (List.suffix_cons _ _)
  | case3 cs => exact List.suffix_cons _ _
  | case4 c cs _ _ ih => exact ih.trans (List.suffix_cons _ _)

def Atom.isAddress : Atom → Bool
  | .url _ _ | .badUrl => true
  | _ => false

theorem isAddress_scanUrl (cs : List Char) : (scanUrl cs).1.isAddress = true := by
  fun_induction scanUrl cs with
  | case1 => rfl
  | case2 => rfl
  | case3 => rfl
  | case4 => rfl
  | case5 => rfl
  | case6 => rfl
  | case7 c cs _ _ _ escape _ ih => exact ih
  | case8 => rfl
  | case9 => rfl
  | case10 c cs _ _ _ _ _ ih => exact ih

theorem scanUrl_normalized {cs : List Char} (h : IsNormalized cs) :
    (∀ value closed, (scanUrl cs).1 = .url value closed → '\x00' ∉ value) ∧
      IsNormalized (scanUrl cs).2 := by
  have empty {value : List Char} {closed closed' : Bool}
      (heq : Atom.url [] closed' = .url value closed) : '\x00' ∉ value := by
    obtain ⟨rfl, -⟩ := Atom.url.inj heq
    exact List.not_mem_nil
  fun_induction scanUrl cs with
  | case1 => exact ⟨fun _ _ => empty, IsNormalized.nil⟩
  | case2 => exact ⟨fun _ _ => empty, h.of_cons⟩
  | case3 => exact ⟨fun _ _ => empty, IsNormalized.nil⟩
  | case4 c cs _ _ d rest heq =>
      have hdrop := h.of_cons.of_suffix (List.dropWhile_suffix isSpace)
      rw [heq] at hdrop
      exact ⟨fun _ _ => empty, hdrop.of_cons⟩
  | case5 c cs _ _ d rest heq =>
      have hdrop := h.of_cons.of_suffix (List.dropWhile_suffix isSpace)
      rw [heq] at hdrop
      exact ⟨fun _ _ hbad => absurd hbad (by simp), hdrop.of_suffix (skipBadUrl_suffix _)⟩
  | case6 c cs _ _ _ escape value closed rest heq ih =>
      rw [heq] at ih
      obtain ⟨hc, hescape⟩ := scanEscape_normalized h.of_cons
      obtain ⟨hvalue, hrest⟩ := ih hescape
      refine ⟨fun value' closed' heq' => ?_, hrest⟩
      obtain ⟨rfl, -⟩ := Atom.url.inj heq'
      exact List.not_mem_cons_of_ne_of_not_mem hc.symm (hvalue value closed rfl)
  | case7 c cs _ _ _ escape _ ih => exact ih (scanEscape_normalized h.of_cons).2
  | case8 c cs =>
      exact ⟨fun _ _ hbad => absurd hbad (by simp), h.of_cons.of_suffix (skipBadUrl_suffix _)⟩
  | case9 c cs _ _ _ _ value closed rest heq ih =>
      rw [heq] at ih
      obtain ⟨hvalue, hrest⟩ := ih h.of_cons
      refine ⟨fun value' closed' heq' => ?_, hrest⟩
      obtain ⟨rfl, -⟩ := Atom.url.inj heq'
      exact List.not_mem_cons_of_ne_of_not_mem (h c List.mem_cons_self).1.symm
        (hvalue value closed rfl)
  | case10 c cs _ _ _ _ _ ih => exact ih h.of_cons

theorem isNormalized_writeUrl {value : List Char} (h : '\x00' ∉ value) :
    IsNormalized (value.flatMap writeUrlChar) := by
  induction value with
  | nil => exact IsNormalized.nil
  | cons c cs ih =>
      rw [List.mem_cons, not_or] at h
      refine IsNormalized.append_iff.mpr ⟨?_, ih h.2⟩
      unfold writeUrlChar
      split
      · rename_i hc
        simp only [Bool.or_eq_true, beq_iff_eq] at hc
        rcases hc with ((((rfl | rfl) | rfl) | rfl) | rfl) | rfl <;> simp [IsNormalized.nil]
      · split
        · simp [IsNormalized.nil]
        · exact isNormalized_escapedLineEnd fun hline => by
            simpa [IsNormalized.nil] using ⟨Ne.symm h.1, hline⟩

end Addresses

section Ranges

/-- Whether a range of code points that has been read up to here is at its end. -/
def endsRange : List Char → Bool
  | '-' :: cs => !startsWith isHexDigit cs
  | cs => !startsWith (fun c => isHexDigit c || c == '?') cs

theorem startsWith_of_endsRange {p : Char → Bool} {text : List Char}
    (hp : p '-' = false) (hplain : ∀ c, p c = true → isHexDigit c = true ∨ c = '?')
    (h : endsRange text = true) : startsWith p text = false := by
  unfold endsRange at h
  split at h
  · exact hp
  · cases text with
    | nil => rfl
    | cons c cs =>
        cases hc : p c with
        | false => exact hc
        | true =>
            rcases hplain c hc with hhex | rfl
            · simp [hhex] at h
            · exact absurd h (by simp)

private theorem spanAtMost_eq_nil {p : Char → Bool} (limit : Nat) {text : List Char}
    (h : startsWith p text = false) : spanAtMost p limit text = ([], text) :=
  spanAtMost_append (fun _ hc => absurd hc List.not_mem_nil) (Nat.zero_le _) (.inr h)

/-- The written form of a range is read back. -/
theorem scanUnicodeRange_append {first last : Nat} {rest : List Char} (hfirst : first < 16 ^ 6)
    (hlast : last < 16 ^ 6) (h : endsRange rest = true) :
    scanUnicodeRange (hexDigits first ++
      ((if first = last then [] else '-' :: hexDigits last) ++ rest)) =
        (.unicodeRange first last, rest) := by
  have hhex : startsWith isHexDigit rest = false :=
    startsWith_of_endsRange rfl (fun c hc => .inl hc) h
  have hmark : startsWith (· == '?') rest = false :=
    startsWith_of_endsRange rfl (fun c hc => .inr (beq_iff_eq.mp hc)) h
  have hdigits {n : Nat} (hn : n < 16 ^ 6) {after : List Char}
      (hafter : startsWith isHexDigit after = false) :
      spanAtMost isHexDigit 6 (hexDigits n ++ after) = (hexDigits n, after) :=
    spanAtMost_append (isHexDigit_of_mem_hexDigits n) (length_hexDigits_le (by omega) hn)
      (.inr hafter)
  unfold scanUnicodeRange
  by_cases heq : first = last
  · subst heq
    simp only [if_true, List.nil_append]
    rw [hdigits hfirst hhex]
    simp only [spanAtMost_eq_nil _ hmark, hexNumber_hexDigits]
    split
    · rename_i c more
      have hc : isHexDigit c = false := by simpa [endsRange] using h
      simp [hc]
    · rfl
  · simp only [heq, if_false, List.cons_append]
    rw [hdigits hfirst rfl]
    rw [spanAtMost_eq_nil (p := (· == '?')) _ rfl]
    cases hlastDigits : hexDigits last with
    | nil => exact absurd hlastDigits (hexDigits_ne_nil last)
    | cons d ds =>
        have hd : isHexDigit d = true :=
          isHexDigit_of_mem_hexDigits last d (by simp [hlastDigits])
        have hspan := hdigits hlast hhex
        have hnumber := hexNumber_hexDigits last
        rw [hlastDigits] at hspan hnumber
        simp only [List.cons_append] at hspan ⊢
        simp [hd, hspan, hexNumber_hexDigits, hnumber]

theorem spanAtMost_length_le_limit (p : Char → Bool) (limit : Nat) (cs : List Char) :
    (spanAtMost p limit cs).1.length ≤ limit := by
  fun_induction spanAtMost p limit cs with
  | case1 => exact Nat.le_refl _
  | case2 => exact Nat.zero_le _
  | case3 limit c cs hc taken rest heq ih => simpa [heq] using ih
  | case4 => exact Nat.zero_le _

theorem hexValue_lt (c : Char) : hexValue c < 16 := by
  have hzero : '0'.toNat = 48 := rfl
  have hlower : 'a'.toNat = 97 ∧ 'f'.toNat = 102 := ⟨rfl, rfl⟩
  have hupper : 'A'.toNat = 65 ∧ 'F'.toNat = 70 := ⟨rfl, rfl⟩
  simp only [hexValue, isDigit_iff, Bool.and_eq_true, decide_eq_true_eq, le_iff_toNat]
  split_ifs <;> omega

theorem hexNumber_lt (digits : List Char) : hexNumber digits < 16 ^ digits.length := by
  induction digits using List.reverseRecOn with
  | nil => decide
  | append_singleton digits c ih =>
      have hc := hexValue_lt c
      rw [hexNumber_append, List.length_append, List.length_singleton, Nat.pow_succ]
      omega

theorem exists_scanUnicodeRange (cs : List Char) :
    ∃ first last, (scanUnicodeRange cs).1 = .unicodeRange first last := by
  unfold scanUnicodeRange
  simp only
  split
  · split
    · split <;> exact ⟨_, _, rfl⟩
    · exact ⟨_, _, rfl⟩
  · exact ⟨_, _, rfl⟩

/-- A range that is read has bounds of at most six digits. -/
theorem scanUnicodeRange_normalized {cs : List Char} (h : IsNormalized cs) :
    ∃ first last, first < 16 ^ 6 ∧ last < 16 ^ 6 ∧
      (scanUnicodeRange cs).1 = .unicodeRange first last ∧
        IsNormalized (scanUnicodeRange cs).2 := by
  have hbound {digits : List Char} (hlength : digits.length ≤ 6) : hexNumber digits < 16 ^ 6 :=
    Nat.lt_of_lt_of_le (hexNumber_lt digits) (Nat.pow_le_pow_right (by decide) hlength)
  have hdigits := spanAtMost_length_le_limit isHexDigit 6 cs
  have happend := spanAtMost_append_eq isHexDigit 6 cs
  unfold scanUnicodeRange
  cases hspan : spanAtMost isHexDigit 6 cs with
  | mk digits rest =>
      rw [hspan] at hdigits happend
      have hmarks := spanAtMost_length_le_limit (· == '?') (6 - digits.length) rest
      have happend' := spanAtMost_append_eq (· == '?') (6 - digits.length) rest
      rw [← happend, ← happend', IsNormalized.append_iff, IsNormalized.append_iff] at h
      simp only at hdigits ⊢
      split <;> rename_i heq <;> rw [heq] at hmarks h
      · split
        · rename_i c more
          split
          · have hfinal := spanAtMost_length_le_limit isHexDigit 6 (c :: more)
            have happend'' := spanAtMost_append_eq isHexDigit 6 (c :: more)
            have hmore := h.2.2.of_cons
            rw [← happend'', IsNormalized.append_iff] at hmore
            exact ⟨_, _, hbound hdigits, hbound hfinal, rfl, hmore.2⟩
          · exact ⟨_, _, hbound hdigits, hbound hdigits, rfl, h.2.2⟩
        · exact ⟨_, _, hbound hdigits, hbound hdigits, rfl, h.2.2⟩
      · rename_i marks after _
        have hlength (c : Char) : (digits ++ marks.map fun _ => c).length ≤ 6 := by
          simp only [List.length_append, List.length_map] at hmarks ⊢
          omega
        exact ⟨_, _, hbound (hlength '0'), hbound (hlength 'F'), rfl, h.2.2⟩

end Ranges

end MediaSplit.Css
