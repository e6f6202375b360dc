import Mathlib
import MediaSplit.Options.Key

/-!
Canonical names of options. Lower case is stable, since no small letter is the capital of another
one, and so a canonical name is its own canonical form. Options can be merged, written down and
merged again without a name changing.
-/

namespace MediaSplit

namespace Text

namespace CaseRun

def smallFirst (run : CaseRun) : Nat :=
  (run.first + run.offset).toNat

def smallLast (run : CaseRun) : Nat :=
  (run.last + run.offset).toNat

/-- A code point that is one of the capitals. -/
def Covers (run : CaseRun) (codePoint : Nat) : Prop :=
  run.first ≤ codePoint ∧ codePoint ≤ run.last ∧ (codePoint - run.first) % run.step = 0

/-- Whether small letters between two ends, a step apart, are none of the capitals of a run: all
come before them or behind them, or one sort is odd and the other even. -/
def isMissed (first last step : Nat) (run : CaseRun) : Bool :=
  last < run.first || run.last < first ||
    (run.step == 2 && (step == 2 || first == last) && (first + run.first) % 2 == 1)

def IsRegular (run : CaseRun) : Prop :=
  0 ≤ run.first + run.offset ∧ (run.step = 1 ∨ run.step = 2)

instance (run : CaseRun) : Decidable run.IsRegular :=
  inferInstanceAs (Decidable (_ ∧ _))

theorem not_covers_of_isMissed {run other : CaseRun} (hregular : run.IsRegular)
    (hmissed : isMissed run.smallFirst run.smallLast run.step other = true) {codePoint : Nat}
    (hcovers : run.Covers codePoint) : ¬ other.Covers (codePoint + run.offset).toNat := by
  rintro ⟨hfirst, hlast, hstep⟩
  obtain ⟨hbelow, hsteps⟩ := hregular
  obtain ⟨hfrom, hto, hmod⟩ := hcovers
  simp only [isMissed, Bool.or_eq_true, Bool.and_eq_true, decide_eq_true_eq, beq_iff_eq] at hmissed
  simp only [smallFirst, smallLast] at hmissed
  rcases hmissed with (hbefore | hbehind) | ⟨⟨htwo, hends⟩, hparity⟩
  · omega
  · omega
  · rw [htwo] at hstep
    rcases hends with hends | hends
    · rw [hends] at hmod
      omega
    · omega

end CaseRun

/-- No small letter is a capital, and none is the dotted capital I. -/
theorem caseRuns_areMissed : (caseRuns.all fun run =>
    ((⟨0x130, 0x130, 1, 0⟩ : CaseRun) :: caseRuns).all
      (CaseRun.isMissed run.smallFirst run.smallLast run.step)) = true := by
  decide +kernel

theorem caseRuns_areRegular : ∀ run ∈ caseRuns, run.IsRegular := by
  decide +kernel

theorem lowerIn_of_not_covers {codePoint : Nat} {runs : List CaseRun}
    (h : ∀ run ∈ runs, ¬ run.Covers codePoint) : lowerIn codePoint runs = codePoint := by
  induction runs with
  | nil => rfl
  | cons run runs ih =>
      obtain ⟨hrun, hruns⟩ := List.forall_mem_cons.mp h
      rw [lowerIn]
      split
      · rfl
      · rename_i hfirst
        rw [if_neg fun hcovers => hrun ⟨Nat.le_of_not_lt hfirst, hcovers⟩]
        exact ih hruns

/-- A code point stays as it is, or it is a capital of a run and becomes its small letter. -/
theorem lowerIn_cases (codePoint : Nat) (runs : List CaseRun) :
    lowerIn codePoint runs = codePoint ∨
      ∃ run ∈ runs, run.Covers codePoint ∧
        lowerIn codePoint runs = (codePoint + run.offset).toNat := by
  induction runs with
  | nil => exact .inl rfl
  | cons run runs ih =>
      rw [lowerIn]
      split
      · exact .inl rfl
      · rename_i hfirst
        split
        · rename_i hcovers
          right
          exact ⟨run, List.mem_cons_self, ⟨Nat.le_of_not_lt hfirst, hcovers⟩, rfl⟩
        · rcases ih with hsame | ⟨found, hfound, hrest⟩
          · exact .inl hsame
          · exact .inr ⟨found, List.mem_cons_of_mem _ hfound, hrest⟩

theorem lowerIn_not_covers {codePoint : Nat} {other run : CaseRun} (hrun : run ∈ caseRuns)
    (hcovers : run.Covers codePoint)
    (hother : other ∈ (⟨0x130, 0x130, 1, 0⟩ : CaseRun) :: caseRuns) :
    ¬ other.Covers (codePoint + run.offset).toNat := by
  have hmissed := List.all_eq_true.mp (List.all_eq_true.mp caseRuns_areMissed run hrun) other hother
  exact CaseRun.not_covers_of_isMissed (caseRuns_areRegular run hrun) hmissed hcovers

theorem lowerIn_idem (codePoint : Nat) :
    lowerIn (lowerIn codePoint caseRuns) caseRuns = lowerIn codePoint caseRuns := by
  rcases lowerIn_cases codePoint caseRuns with hsame | ⟨run, hrun, hcovers, hlower⟩
  · rw [hsame, hsame]
  · rw [hlower]
    apply lowerIn_of_not_covers
    intro other hother
    exact lowerIn_not_covers hrun hcovers (List.mem_cons_of_mem _ hother)

theorem lowerIn_ne_dottedI {codePoint : Nat} (h : codePoint ≠ 0x130) :
    lowerIn codePoint caseRuns ≠ 0x130 := by
  rcases lowerIn_cases codePoint caseRuns with hsame | ⟨run, hrun, hcovers, hlower⟩
  · rwa [hsame]
  · intro hdotted
    apply lowerIn_not_covers hrun hcovers List.mem_cons_self
    rw [← hlower, hdotted]
    simp [CaseRun.Covers]

/-- A number that is no code point gives the null character. -/
theorem toNat_ofNat (n : Nat) : (Char.ofNat n).toNat = n ∨ (Char.ofNat n).toNat = 0 := by
  unfold Char.ofNat
  split
  · rename_i hvalid
    left
    exact UInt32.toNat_ofNatLT
  · exact .inr rfl

/-- A character that is its own lower case. -/
def IsSmall (c : Char) : Prop :=
  lowerChar c = [c]

instance (c : Char) : Decidable (IsSmall c) :=
  inferInstanceAs (Decidable (_ = _))

theorem isSmall_of_mem_lowerChar {c d : Char} (h : d ∈ lowerChar c) : IsSmall d := by
  unfold lowerChar at h
  split at h
  · simp only [List.mem_cons, List.not_mem_nil, or_false] at h
    rcases h with rfl | rfl
    · decide +kernel
    · decide +kernel
  · rename_i hdotted
    have hd := List.mem_singleton.mp h
    have hc : c.toNat ≠ 0x130 := by
      intro hnat
      apply hdotted
      rw [← Char.ofNat_toNat c, hnat]
      rfl
    have hnat := toNat_ofNat (lowerIn c.toNat caseRuns)
    rw [← hd] at hnat
    have hstable : lowerIn d.toNat caseRuns = d.toNat := by
      rcases hnat with hnat | hnat
      · rw [hnat, lowerIn_idem]
      · rw [hnat]
        rfl
    have hother : d ≠ '\u0130' := by
      rintro rfl
      rcases hnat with hnat | hnat
      · exact lowerIn_ne_dottedI hc hnat.symm
      · cases hnat
    rw [IsSmall, lowerChar, if_neg (by simpa using hother), hstable, Char.ofNat_toNat]

theorem IsSmall.ne_sigma {c : Char} (h : IsSmall c) : c ≠ '\u03A3' := by
  rintro rfl
  revert h
  decide +kernel

/-- Lower case consists of small characters, whatever stands before it. -/
theorem isSmall_of_mem_lowerAfter {before text : List Char} {c : Char}
    (h : c ∈ lowerAfter before text) : IsSmall c := by
  induction text generalizing before with
  | nil => cases h
  | cons d ds ih =>
      rw [lowerAfter] at h
      rcases List.mem_append.mp h with hfirst | hrest
      · split at hfirst
        · obtain rfl := List.mem_singleton.mp hfirst
          split
          · decide +kernel
          · decide +kernel
        · exact isSmall_of_mem_lowerChar hfirst
      · exact ih hrest

theorem lowerAfter_of_isSmall {text : List Char} (h : ∀ c ∈ text, IsSmall c) (before : List Char) :
    lowerAfter before text = text := by
  induction text generalizing before with
  | nil => rfl
  | cons c cs ih =>
      obtain ⟨hc, hcs⟩ := List.forall_mem_cons.mp h
      have hsigma : (c == '\u03A3') = false := by
        simpa using hc.ne_sigma
      have hlower : lowerChar c = [c] := hc
      rw [lowerAfter, hsigma, ih hcs, hlower]
      rfl

theorem IsSmall.isUpper {c : Char} (h : IsSmall c) : c.isUpper = false := by
  cases hupper : c.isUpper with
  | false => rfl
  | true =>
      obtain ⟨hfrom, hto⟩ : 65 ≤ c.toNat ∧ c.toNat ≤ 90 := by
        simpa [Char.isUpper, UInt32.le_iff_toNat_le, ← Char.toNat_val] using hupper
      have hdotted : c ≠ '\u0130' := by
        rintro rfl
        revert hto
        decide
      have hlower : lowerIn c.toNat caseRuns = c.toNat + 32 := by
        rw [caseRuns, lowerIn]
        simp only
        rw [if_neg (by omega), if_pos (by omega)]
        omega
      rw [IsSmall, lowerChar, if_neg (by simpa using hdotted), hlower] at h
      have hnat := toNat_ofNat (c.toNat + 32)
      rw [List.singleton_inj.mp h] at hnat
      omega

end Text

/-- A text that is canonical as the name of an option. -/
def IsCanonical (text : List Char) : Prop :=
  ∀ c ∈ text, Text.IsSmall c ∧ c ≠ '-'

theorem separateCapitals_of_isCanonical {text : List Char} (h : IsCanonical text) :
    separateCapitals text = text := by
  induction text with
  | nil => rfl
  | cons c cs ih =>
      obtain ⟨⟨hsmall, -⟩, hcs⟩ := List.forall_mem_cons.mp h
      have hrest : separateCapitals cs = cs := ih hcs
      rw [separateCapitals, List.flatMap_cons, hsmall.isUpper]
      exact congrArg (c :: ·) hrest

theorem canonicalKeyChars_of_isCanonical {text : List Char} (h : IsCanonical text) :
    canonicalKeyChars text = text := by
  cases text with
  | nil => rfl
  | cons c cs =>
      have hsmall : ∀ d ∈ c :: cs, Text.IsSmall d := fun d hd => (h d hd).1
      obtain ⟨-, hcs⟩ := List.forall_mem_cons.mp h
      rw [canonicalKeyChars, separateCapitals_of_isCanonical hcs, Text.lower,
        Text.lowerAfter_of_isSmall hsmall]
      calc (c :: cs).map (fun d => if d == '-' then '_' else d)
          = (c :: cs).map id := List.map_congr_left fun d hd => if_neg (by simpa using (h d hd).2)
        _ = c :: cs := List.map_id _

theorem isCanonical_canonicalKeyChars (text : List Char) :
    IsCanonical (canonicalKeyChars text) := by
  cases text with
  | nil => exact fun c hc => absurd hc List.not_mem_nil
  | cons c cs =>
      intro d hd
      obtain ⟨e, he, rfl⟩ := List.mem_map.mp hd
      split
      · constructor
        · decide +kernel
        · decide
      · rename_i hhyphen
        constructor
        · exact Text.isSmall_of_mem_lowerAfter he
        · simpa using hhyphen

/-- A canonical name is its own canonical form. -/
theorem canonicalKey_idem (key : String) : canonicalKey (canonicalKey key) = canonicalKey key := by
  simp only [canonicalKey, String.toList_ofList]
  rw [canonicalKeyChars_of_isCanonical (isCanonical_canonicalKeyChars _)]

end MediaSplit
