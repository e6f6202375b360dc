import MediaSplit.Json.Read
import Mathlib.Data.List.Infix

/-!
What comes out of a JSON text. Whatever it holds, every key of every mapping in it is a text; and
the one thing that no message of its own is kept for is an integer with too many digits, which then
stands in the text.
-/

namespace MediaSplit

/-- What is in a table after a value was entered: what was there, or the value, under a key of the
table or the new key. -/
theorem Table.mem_set {κ α : Type} [BEq κ] {key : κ} {value : α} {table : Table κ α}
    {entry : κ × α} (h : entry ∈ Table.set key value table) :
    entry ∈ table ∨ entry.2 = value ∧ (entry.1 = key ∨ ∃ old, (entry.1, old) ∈ table) := by
  induction table with
  | nil =>
      obtain rfl := List.mem_singleton.mp h
      exact Or.inr ⟨rfl, Or.inl rfl⟩
  | cons first rest ih =>
      obtain ⟨k, old⟩ := first
      simp only [set] at h
      split at h
      · rcases List.mem_cons.mp h with rfl | hmem
        · exact Or.inr ⟨rfl, Or.inr ⟨old, List.mem_cons_self⟩⟩
        · exact Or.inl (List.mem_cons_of_mem _ hmem)
      · rcases List.mem_cons.mp h with rfl | hmem
        · exact Or.inl List.mem_cons_self
        · rcases ih hmem with hold | ⟨hvalue, hkey⟩
          · exact Or.inl (List.mem_cons_of_mem _ hold)
          · refine Or.inr ⟨hvalue, hkey.imp id ?_⟩
            rintro ⟨other, hother⟩
            exact ⟨other, List.mem_cons_of_mem _ hother⟩

inductive Value.IsJson : Value → Prop where
  | null : IsJson .null
  | bool (b : Bool) : IsJson (.bool b)
  | int (n : Int) : IsJson (.int n)
  | float (x : Binary64) : IsJson (.float x)
  | text (s : String) : IsJson (.text s)
  | list {items : List Value} (all : ∀ v ∈ items, IsJson v) : IsJson (.list items)
  | map {entries : List (Value × Value)} (keys : ∀ entry ∈ entries, ∃ key, entry.1 = .text key)
      (values : ∀ entry ∈ entries, IsJson entry.2) : IsJson (.map entries)

namespace Json

/-- That a text holds an integer of so many digits, which are too many. -/
def HasLongInteger (digits : Nat) (text : List Char) : Prop :=
  maxIntegerDigits < digits ∧
    ∃ run, run <:+: text ∧ run.length = digits ∧ ∀ c ∈ run, c.isDigit = true

theorem HasLongInteger.mono {digits : Nat} {text text' : List Char}
    (h : HasLongInteger digits text) (hsub : text <:+: text') : HasLongInteger digits text' := by
  obtain ⟨hlong, run, hrun, hlength, hdigits⟩ := h
  exact ⟨hlong, run, hrun.trans hsub, hlength, hdigits⟩

section Readers

variable {α β : Type} {P : α → Prop} {Q : β → Prop} {cs cs' : List Char}

/-- What a reader may do: give something with a property and leave an end of its text, or fail, for
the length of an integer only if there is such an integer. -/
def Reads (P : α → Prop) (cs : List Char) :
    Except Fault { r : α × List Char // r.2.length < cs.length } → Prop
  | .ok r => P r.1.1 ∧ r.1.2 <:+ cs
  | .error (.oversizedInteger digits) => HasLongInteger digits cs
  | .error (.malformed _ _) => True

theorem Reads.bind {x : Except Fault { r : α × List Char // r.2.length < cs.length }}
    {next : { r : α × List Char // r.2.length < cs.length } →
      Except Fault { r : β × List Char // r.2.length < cs'.length }}
    (h : Reads P cs x) (hcs : cs <:+ cs')
    (hnext : ∀ r, P r.1.1 → r.1.2 <:+ cs → Reads Q cs' (next r)) : Reads Q cs' (x >>= next) := by
  cases x with
  | ok r => exact hnext r h.1 h.2
  | error fault =>
      cases fault with
      | malformed problem left => trivial
      | oversizedInteger digits => exact HasLongInteger.mono h hcs.isInfix

end Readers

theorem skipSpace_suffix (cs : List Char) : skipSpace cs <:+ cs :=
  List.dropWhile_suffix isSpace

/-- What follows the next character that is no space. -/
theorem suffix_of_skipSpace {cs rest : List Char} {c : Char} (h : skipSpace cs = c :: rest) :
    rest <:+ cs :=
  (List.suffix_cons c rest).trans (h ▸ skipSpace_suffix cs)

section Strings

variable {start : Nat} {cs : List Char}

/-- What a reader of a part of a string may do: leave an end of its text, or find it malformed. -/
def Strips {α : Type} (cs : List Char) : Except Fault (α × List Char) → Prop
  | .ok r => r.2 <:+ cs
  | .error fault => ∃ problem left, fault = .malformed problem left

theorem Strips.mono {α : Type} {cs cs' : List Char} {x : Except Fault (α × List Char)}
    (h : Strips cs x) (hsub : cs <:+ cs') : Strips cs' x := by
  cases x with
  | ok r => exact List.IsSuffix.trans h hsub
  | error fault => exact h

private theorem lowSurrogate?_suffix {high : Nat} {low : Nat × List Char}
    (h : lowSurrogate? high cs = .ok (some low)) : low.2 <:+ cs := by
  unfold lowSurrogate? at h
  split at h
  · split at h
    · rename_i a b c d e after
      split at h
      · cases h
      · split at h
        · cases h
          exact List.suffix_append [_, _, a, b, c, d] (e :: after)
        · cases h
    · cases h
  · cases h

private theorem lowSurrogate?_malformed {high : Nat} {fault : Fault}
    (h : lowSurrogate? high cs = .error fault) :
    ∃ problem left, fault = .malformed problem left := by
  unfold lowSurrogate? at h
  split at h
  · split at h
    · split at h
      · exact ⟨_, _, (Except.error.inj h).symm⟩
      · split at h <;> cases h
    · cases h
  · cases h

private theorem readUnits_strips (cs : List Char) : Strips cs (readUnits cs) := by
  unfold readUnits
  split
  · rename_i a b c d e after
    have hafter : e :: after <:+ a :: b :: c :: d :: e :: after :=
      List.suffix_append [a, b, c, d] (e :: after)
    split
    · exact ⟨_, _, rfl⟩
    · split
      · rename_i hlow
        exact lowSurrogate?_malformed hlow
      · rename_i hlow
        exact List.IsSuffix.trans (lowSurrogate?_suffix hlow) hafter
      · exact hafter
  · exact ⟨_, _, rfl⟩

private theorem readChar_strips (start : Nat) (cs : List Char) :
    Strips cs (readChar start cs) := by
  unfold readChar
  split
  · exact ⟨_, _, rfl⟩
  · exact ⟨_, _, rfl⟩
  · rename_i after
    exact (readUnits_strips after).mono (List.suffix_append [_, _] after)
  · split
    · exact ⟨_, _, rfl⟩
    · exact List.suffix_append ['\\', _] _
  · rename_i d after _ _ _
    split
    · exact ⟨_, _, rfl⟩
    · exact List.suffix_cons d after

private theorem readChars_strips (start : Nat) (cs : List Char) :
    Strips cs (readChars start cs) := by
  fun_induction readChars start cs with
  | case1 cs hquote => exact List.tail_suffix cs
  | case2 cs _ fault hchar =>
      have hstrips := readChar_strips start cs
      rwa [hchar] at hstrips
  | case3 cs _ c rest hchar fault hrest ih =>
      rw [hrest] at ih
      exact ih
  | case4 cs _ c rest hchar chars after hrest ih =>
      have hstrips := readChar_strips start cs
      rw [hchar] at hstrips
      rw [hrest] at ih
      exact List.IsSuffix.trans ih hstrips

theorem readString_reads (start : Nat) (cs : List Char) :
    Reads (fun _ => True) cs (readString start cs) := by
  have hstrips := readChars_strips start cs
  unfold readString
  split
  · rename_i fault heq
    rw [heq] at hstrips
    obtain ⟨problem, left, rfl⟩ := hstrips
    trivial
  · rename_i r heq
    rw [heq] at hstrips
    exact ⟨trivial, hstrips⟩

end Strings

section Numbers

variable {cs : List Char}

private theorem spanFraction_suffix (cs : List Char) : (spanFraction cs).2 <:+ cs := by
  unfold spanFraction
  split
  · rename_i after
    split
    · exact List.suffix_refl _
    · exact (List.dropWhile_suffix Char.isDigit).trans (List.suffix_cons _ after)
  · exact List.suffix_refl _

private theorem exponentDigits_suffix {whole cs : List Char} (negative : Bool)
    (h : cs <:+ whole) : (exponentDigits whole negative cs).2 <:+ whole := by
  unfold exponentDigits
  split
  · exact List.suffix_refl _
  · exact (List.dropWhile_suffix Char.isDigit).trans h

private theorem spanExponent_suffix (cs : List Char) : (spanExponent cs).2 <:+ cs := by
  have htail := List.tail_suffix cs
  unfold spanExponent
  split
  · split
    · rename_i after heq
      rw [heq] at htail
      exact exponentDigits_suffix true ((List.suffix_cons _ after).trans htail)
    · rename_i after heq
      rw [heq] at htail
      exact exponentDigits_suffix false ((List.suffix_cons _ after).trans htail)
    · exact exponentDigits_suffix false htail
  · exact List.suffix_refl _

/-- The digits before the point stand at the start of the text, with the rest of it after them. -/
private theorem spanWhole_spec (cs : List Char) :
    (spanWhole cs).1 ++ (spanWhole cs).2 = cs ∧ ∀ c ∈ (spanWhole cs).1, c.isDigit = true := by
  unfold spanWhole
  split
  · exact ⟨rfl, by simp⟩
  · exact ⟨List.takeWhile_append_dropWhile, List.all_eq_true.mp List.all_takeWhile⟩

private theorem isJson_of_numberOf {negative : Bool} {whole fraction : List Char}
    {exponent : Option Int} {value : Value}
    (h : numberOf negative whole fraction exponent = .ok value) : value.IsJson := by
  unfold numberOf at h
  split at h
  · split at h
    · cases h
    · obtain rfl := Except.ok.inj h
      exact .int _
  · obtain rfl := Except.ok.inj h
    exact .float _

private theorem oversized_of_numberOf {negative : Bool} {whole fraction : List Char}
    {exponent : Option Int} {fault : Fault}
    (h : numberOf negative whole fraction exponent = .error fault) :
    fault = .oversizedInteger whole.length ∧ maxIntegerDigits < whole.length := by
  unfold numberOf oversized? at h
  split at h
  · split at h
    · rename_i digits hover
      split at hover
      · rename_i hlong
        cases hover
        exact ⟨(Except.error.inj h).symm, hlong⟩
      · cases hover
    · cases h
  · cases h

theorem readNumber_reads (cs : List Char) : Reads Value.IsJson cs (readNumber cs) := by
  unfold readNumber
  extract_lets unsigned whole
  have hunsigned : unsigned <:+ cs := by
    simp only [unsigned]
    split
    · exact List.tail_suffix cs
    · exact List.suffix_refl _
  obtain ⟨hwhole, hdigits⟩ := spanWhole_spec unsigned
  split
  · trivial
  · rename_i fraction exponent _
    split
    · rename_i fault hnumber
      obtain ⟨rfl, hlong⟩ := oversized_of_numberOf hnumber
      refine ⟨hlong, whole.1, ?_, rfl, hdigits⟩
      have hprefix : whole.1 <+: unsigned := ⟨whole.2, hwhole⟩
      exact hprefix.isInfix.trans hunsigned.isInfix
    · rename_i value hnumber
      refine ⟨isJson_of_numberOf hnumber, ?_⟩
      have hrest : whole.2 <:+ unsigned := ⟨whole.1, hwhole⟩
      exact (((spanExponent_suffix fraction.2).trans (spanFraction_suffix whole.2)).trans
        hrest).trans hunsigned

end Numbers

section Values

private theorem isJson_of_namedValue? {cs name : List Char} {value : Value}
    (h : namedValue? cs = some (name, value)) : value.IsJson := by
  have hmem := List.mem_of_find?_eq_some h
  simp only [names, List.mem_cons, Prod.mk.injEq, List.not_mem_nil, or_false] at hmem
  rcases hmem with ⟨-, rfl⟩ | ⟨-, rfl⟩ | ⟨-, rfl⟩ | ⟨-, rfl⟩ | ⟨-, rfl⟩ | ⟨-, rfl⟩
  · exact .null
  · exact .bool true
  · exact .bool false
  · exact .float _
  · exact .float _
  · exact .float _

/-- Members stay such when one more is entered. -/
theorem isJson_set {entries : List (Value × Value)} (h : (Value.map entries).IsJson) (key : String)
    {value : Value} (hvalue : value.IsJson) :
    (Value.map (Table.set (.text key) value entries)).IsJson := by
  cases h with
  | map keys values =>
      constructor
      · intro entry hentry
        rcases Table.mem_set hentry with hold | ⟨-, hkey | ⟨old, hold⟩⟩
        · exact keys entry hold
        · exact ⟨key, hkey⟩
        · exact keys (entry.1, old) hold
      · intro entry hentry
        rcases Table.mem_set hentry with hold | ⟨hnew, -⟩
        · exact values entry hold
        · rwa [hnew]

/-- What the readers of values, members and items may do. -/
theorem readers_read :
    (∀ cs, Reads Value.IsJson cs (readValue cs)) ∧
    (∀ made cs, (Value.map made).IsJson →
      Reads (fun entries => (Value.map entries).IsJson) cs (readMembers made cs)) ∧
    ∀ cs, Reads (fun items => ∀ v ∈ items, v.IsJson) cs (readItems cs) := by
  apply readValue.mutual_induct
  case case1 =>
    rw [readValue]
    trivial
  case case2 =>
    intro rest
    rw [readValue]
    apply (readString_reads _ rest).bind (List.suffix_cons _ rest)
    rintro ⟨r, hr⟩ - hsuffix
    exact ⟨.text _, hsuffix.trans (List.suffix_cons _ rest)⟩
  case case3 =>
    intro rest hskip hclosed
    rw [readValue]
    simp only [hclosed, dite_true]
    refine ⟨.list (by simp), ?_⟩
    exact ((List.tail_suffix _).trans (skipSpace_suffix rest)).trans (List.suffix_cons _ rest)
  case case4 =>
    intro rest hskip hopen ih
    rw [readValue]
    have hrest : skipSpace rest <:+ '[' :: rest :=
      (skipSpace_suffix rest).trans (List.suffix_cons _ rest)
    simp only [hopen, dite_false]
    apply ih.bind hrest
    rintro ⟨r, hr⟩ hitems hsuffix
    exact ⟨.list hitems, hsuffix.trans hrest⟩
  case case5 =>
    intro rest hskip hclosed
    rw [readValue]
    simp only [hclosed, dite_true]
    refine ⟨.map (by simp) (by simp), ?_⟩
    exact ((List.tail_suffix _).trans (skipSpace_suffix rest)).trans (List.suffix_cons _ rest)
  case case6 =>
    intro rest hskip hopen ih
    rw [readValue]
    have hrest : skipSpace rest <:+ '\x7b' :: rest :=
      (skipSpace_suffix rest).trans (List.suffix_cons _ rest)
    simp only [hopen, dite_false]
    apply (ih (.map (by simp) (by simp))).bind hrest
    rintro ⟨r, hr⟩ hmembers hsuffix
    exact ⟨hmembers, hsuffix.trans hrest⟩
  case case7 =>
    intro c rest hquote hbracket hbrace name value hnamed
    rw [readValue]
    · split
      · rename_i heq
        obtain ⟨rfl, rfl⟩ := Prod.mk.inj (Option.some.inj (hnamed.symm.trans heq))
        exact ⟨isJson_of_namedValue? hnamed,
          (List.drop_suffix _ rest).trans (List.suffix_cons c rest)⟩
      · rename_i heq
        cases hnamed.symm.trans heq
    · exact hquote
    · exact hbracket
    · exact hbrace
  case case8 =>
    intro c rest hquote hbracket hbrace hnamed
    rw [readValue]
    · split
      · rename_i heq
        cases hnamed.symm.trans heq
      · exact readNumber_reads (c :: rest)
    · exact hquote
    · exact hbracket
    · exact hbrace
  case case9 =>
    intro made rest ihValue ihMembers hmade
    rw [readMembers]
    apply (readString_reads _ rest).bind (List.suffix_cons _ rest)
    rintro ⟨k, hk⟩ - hkey
    simp only
    split
    · rename_i afterColon hcolon
      have hvalue : skipSpace afterColon <:+ '"' :: rest :=
        (skipSpace_suffix afterColon).trans ((suffix_of_skipSpace hcolon).trans
          (hkey.trans (List.suffix_cons _ rest)))
      apply (ihValue k hk afterColon hcolon).bind hvalue
      rintro ⟨v, hv⟩ hjson hafter
      have hentries := isJson_set hmade (String.ofList k.1) hjson
      simp only
      split
      · rename_i rest' hclosed
        exact ⟨hentries, (suffix_of_skipSpace hclosed).trans (hafter.trans hvalue)⟩
      · rename_i rest' hcomma
        have hnext : skipSpace rest' <:+ '"' :: rest :=
          (skipSpace_suffix rest').trans ((suffix_of_skipSpace hcomma).trans (hafter.trans hvalue))
        apply (ihMembers k hk afterColon hcolon v hv rest' hcomma hentries).bind hnext
        rintro ⟨r, hr⟩ hmembers hsuffix
        exact ⟨hmembers, hsuffix.trans hnext⟩
      · trivial
    · trivial
  case case10 =>
    intro made left hquote hmade
    rw [readMembers]
    · trivial
    · exact hquote
  case case11 =>
    intro cs ihValue ihItems
    rw [readItems]
    apply ihValue.bind (List.suffix_refl cs)
    rintro ⟨v, hv⟩ hjson hafter
    simp only
    split
    · rename_i rest hclosed
      exact ⟨by simpa using hjson, (suffix_of_skipSpace hclosed).trans hafter⟩
    · rename_i rest hcomma
      have hnext : skipSpace rest <:+ cs :=
        (skipSpace_suffix rest).trans ((suffix_of_skipSpace hcomma).trans hafter)
      apply (ihItems v hv rest hcomma).bind hnext
      rintro ⟨r, hr⟩ hitems hsuffix
      exact ⟨List.forall_mem_cons.mpr ⟨hjson, hitems⟩, hsuffix.trans hnext⟩
    · trivial

end Values

theorem isJson_of_read {text : List Char} {value : Value} (h : read text = .ok value) :
    value.IsJson := by
  have hreads := readers_read.1 (skipSpace text)
  unfold read at h
  split at h
  · cases h
  · cases hvalue : readValue (skipSpace text) with
    | error fault =>
        rw [hvalue] at h
        cases h
    | ok r =>
        rw [hvalue] at h hreads
        simp only [bind, Except.bind] at h
        split at h
        · obtain rfl := Except.ok.inj h
          exact hreads.1
        · cases h

theorem hasLongInteger_of_read {text : List Char} {digits : Nat}
    (h : read text = .error (.oversizedInteger digits)) : HasLongInteger digits text := by
  have hreads := readers_read.1 (skipSpace text)
  unfold read at h
  split at h
  · cases h
  · cases hvalue : readValue (skipSpace text) with
    | error fault =>
        rw [hvalue] at h hreads
        obtain rfl := Except.error.inj h
        exact HasLongInteger.mono hreads (skipSpace_suffix text).isInfix
    | ok r =>
        rw [hvalue] at h
        simp only [bind, Except.bind] at h
        split at h <;> cases h

end Json

end MediaSplit
