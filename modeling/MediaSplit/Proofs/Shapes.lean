import MediaSplit.CommandLine
import MediaSplit.Proofs.Widths

/-!
The shapes that widths are given in. Reading a value goes through lists, sets and mappings down to
the single values inside, and sees nothing else of it: it fails if and only if one of them gives no
width, and otherwise comes to what they give together. Texts that are joined with commas are read
like the list of these texts, so what was read can be given again as a set or as one text.
-/

namespace MediaSplit

namespace Text

variable {text : List Char} {c : Char}

theorem dropWhile_of_trim (h : trim text = text) : text.dropWhile isBlank = text := by
  have hshorter : (trim text).length ≤ (text.dropWhile isBlank).length :=
    (List.rdropWhile_prefix isBlank (text.dropWhile isBlank)).length_le
  rw [h] at hshorter
  exact (List.dropWhile_suffix isBlank).eq_of_length_le hshorter

/-- A text without blanks around it starts with none. -/
theorem isBlank_head?_of_trim (h : trim text = text) (hc : text.head? = some c) :
    isBlank c = false := by
  obtain ⟨rest, rfl⟩ := List.head?_eq_some_iff.mp hc
  have hhead := List.dropWhile_eq_self_iff.mp (dropWhile_of_trim h) (by simp)
  simpa using hhead

/-- Nor does it end with one. -/
theorem isBlank_getLast?_of_trim (h : trim text = text) (hc : text.getLast? = some c) :
    isBlank c = false := by
  obtain ⟨front, rfl⟩ := List.getLast?_eq_some_iff.mp hc
  rw [trim, dropWhile_of_trim h, trimEnd_eq_rdropWhile] at h
  have hlast := List.rdropWhile_eq_self_iff.mp h (by simp)
  simpa using hlast

end Text

namespace Value

mutual

/-- The single values inside a value, from left to right. A text is one of them. Bytes are made of
their numbers, and mappings of their values. -/
def leaves : Value → List Value
  | .bytes bs => bs.map fun b => .int b.toNat
  | .list items | .tuple items | .set items => leavesOfAll items
  | .map entries => leavesOfEntries entries
  | v => [v]

def leavesOfAll : List Value → List Value
  | [] => []
  | v :: vs => v.leaves ++ leavesOfAll vs

def leavesOfEntries : List (Value × Value) → List Value
  | [] => []
  | (_, v) :: entries => v.leaves ++ leavesOfEntries entries

end

def isSingle : Value → Bool
  | .bytes _ | .list _ | .tuple _ | .set _ | .map _ => false
  | _ => true

/-- Whether a single value is one that no widths can be read from. Null is not among them: it gives
no width, but may be given. -/
def isUnsupported : Value → Bool
  | .bool _ | .decimal _ | .ellipsis => true
  | _ => false

mutual

/-- What is reached inside a value is single. -/
theorem isSingle_of_mem_leaves {v leaf : Value} (h : leaf ∈ v.leaves) : leaf.isSingle = true := by
  cases v with
  | bytes bs =>
      obtain ⟨b, -, rfl⟩ := List.mem_map.mp h
      rfl
  | list items => exact isSingle_of_mem_leavesOfAll h
  | tuple items => exact isSingle_of_mem_leavesOfAll h
  | set items => exact isSingle_of_mem_leavesOfAll h
  | map entries => exact isSingle_of_mem_leavesOfEntries h
  | null | bool | int | float | text | decimal | ellipsis =>
      obtain rfl := List.mem_singleton.mp h
      rfl

theorem isSingle_of_mem_leavesOfAll {vs : List Value} {leaf : Value} (h : leaf ∈ leavesOfAll vs) :
    leaf.isSingle = true := by
  cases vs with
  | nil => cases h
  | cons v vs =>
      rcases List.mem_append.mp h with hleaf | hleaf
      · exact isSingle_of_mem_leaves hleaf
      · exact isSingle_of_mem_leavesOfAll hleaf

theorem isSingle_of_mem_leavesOfEntries {entries : List (Value × Value)} {leaf : Value}
    (h : leaf ∈ leavesOfEntries entries) : leaf.isSingle = true := by
  cases entries with
  | nil => cases h
  | cons entry entries =>
      rcases List.mem_append.mp h with hleaf | hleaf
      · exact isSingle_of_mem_leaves hleaf
      · exact isSingle_of_mem_leavesOfEntries hleaf

end

end Value

namespace WidthSet

open Value

variable {w : WidthSet} {v : Value} {vs : List Value} {tokens texts : List String}

theorem union_assoc (a b c : WidthSet) : (a.union b).union c = a.union (b.union c) := by
  apply eq_of_mem_iff
  intro token
  simp only [mem_union, or_assoc]

theorem empty_union (w : WidthSet) : empty.union w = w := by
  apply eq_of_mem_iff
  intro token
  simp [mem_union, mem_empty]

theorem ofValues_cons (v : Value) (vs : List Value) :
    ofValues (v :: vs) = (ofValue v).bind fun first => (ofValues vs).map first.union := by
  rw [ofValues]
  cases ofValue v with
  | error u => rfl
  | ok first => cases ofValues vs <;> rfl

theorem ofValues_singleton (v : Value) : ofValues [v] = ofValue v := by
  rw [ofValues_cons]
  cases ofValue v <;> rfl

/-- One row of values behind another gives what both give, or what goes wrong first. -/
theorem ofValues_append (before after : List Value) :
    ofValues (before ++ after) =
      (ofValues before).bind fun first => (ofValues after).map first.union := by
  induction before with
  | nil =>
      rw [List.nil_append, ofValues]
      cases ofValues after with
      | error u => rfl
      | ok w => exact congrArg Except.ok (empty_union w).symm
  | cons v vs ih =>
      rw [List.cons_append, ofValues_cons, ofValues_cons, ih]
      cases ofValue v with
      | error u => rfl
      | ok first =>
          cases ofValues vs with
          | error u => rfl
          | ok second =>
              cases ofValues after with
              | error u => rfl
              | ok third => exact congrArg Except.ok (union_assoc first second third).symm

theorem ofValues_bytes (bs : List UInt8) :
    ofValues (bs.map fun b => .int b.toNat) = .ok (ofList (bs.map fun b => toString b.toNat)) := by
  induction bs with
  | nil => rfl
  | cons b bs ih =>
      rw [List.map_cons, ofValues_cons, ih, List.map_cons, ← List.singleton_append, ofList_append]
      rfl

mutual

/-- A value is read like the row of the single values inside it. -/
theorem ofValues_leaves (v : Value) : ofValues v.leaves = ofValue v := by
  cases v with
  | bytes bs => exact ofValues_bytes bs
  | list items => exact ofValues_leavesOfAll items
  | tuple items => exact ofValues_leavesOfAll items
  | set items => exact ofValues_leavesOfAll items
  | map entries => exact ofValues_leavesOfEntries entries
  | null | bool | int | float | text | decimal | ellipsis => exact ofValues_singleton _

theorem ofValues_leavesOfAll (vs : List Value) : ofValues (leavesOfAll vs) = ofValues vs := by
  cases vs with
  | nil => rfl
  | cons v vs =>
      rw [leavesOfAll, ofValues_append, ofValues_leaves v, ofValues_leavesOfAll vs, ofValues_cons]

theorem ofValues_leavesOfEntries (entries : List (Value × Value)) :
    ofValues (leavesOfEntries entries) = ofEntries entries := by
  cases entries with
  | nil => rfl
  | cons entry entries =>
      rw [leavesOfEntries, ofValues_append, ofValues_leaves entry.2,
        ofValues_leavesOfEntries entries, ofEntries]
      cases ofValue entry.2 with
      | error u => rfl
      | ok first => cases ofEntries entries <;> rfl

end

theorem ofValue_of_isSingle (h : v.isSingle = true) :
    v.isUnsupported = true ∧ ofValue v = .error ⟨v⟩ ∨
      v.isUnsupported = false ∧ ∃ w, ofValue v = .ok w := by
  cases v with
  | bool | decimal | ellipsis => exact .inl ⟨rfl, rfl⟩
  | null | int | float | text => exact .inr ⟨rfl, _, rfl⟩
  | bytes | list | tuple | set | map => cases h

/-- A row of single values is refused for the first that gives no width, and gives what they give
together otherwise. -/
theorem ofValues_cases (h : ∀ v ∈ vs, v.isSingle = true) :
    (∃ v, vs.find? isUnsupported = some v ∧ ofValues vs = .error ⟨v⟩) ∨
      vs.find? isUnsupported = none ∧ ∃ w, ofValues vs = .ok w ∧
        ∀ token, token ∈ w ↔ ∃ v ∈ vs, ∃ part, ofValue v = .ok part ∧ token ∈ part := by
  induction vs with
  | nil => exact .inr ⟨rfl, empty, rfl, fun token => by simp [mem_empty]⟩
  | cons v vs ih =>
      obtain ⟨hsingle, hsingles⟩ := List.forall_mem_cons.mp h
      rw [ofValues_cons]
      rcases ofValue_of_isSingle hsingle with ⟨hrefused, hv⟩ | ⟨hsupported, first, hv⟩
      · exact .inl ⟨v, List.find?_cons_of_pos hrefused, by rw [hv]; rfl⟩
      · rw [List.find?_cons_of_neg (by simp [hsupported]), hv]
        rcases ih hsingles with ⟨u, hfind, hvs⟩ | ⟨hfind, others, hvs, hmem⟩
        · exact .inl ⟨u, hfind, by rw [hvs]; rfl⟩
        · refine .inr ⟨hfind, first.union others, by rw [hvs]; rfl, fun token => ?_⟩
          rw [mem_union, hmem, List.exists_mem_cons_iff]
          simp [hv]

structure IsReadByLeaves (v : Value) : Prop where
  refused_iff : (∃ u, ofValue v = .error u) ↔ ∃ leaf ∈ v.leaves, leaf.isUnsupported = true
  /-- Of several that give no width the first is named. -/
  first : ∀ u, ofValue v = .error u → v.leaves.find? isUnsupported = some u.value
  union : (∀ leaf ∈ v.leaves, leaf.isUnsupported = false) → ∃ w, ofValue v = .ok w ∧
    ∀ token, token ∈ w ↔ ∃ leaf ∈ v.leaves, ∃ part, ofValue leaf = .ok part ∧ token ∈ part
  /-- How the single values are ordered, repeated and put together is of no account. -/
  alike : ∀ other : Value, (∀ leaf, leaf ∈ other.leaves ↔ leaf ∈ v.leaves) →
    (ofValue other).toOption = (ofValue v).toOption

theorem ofValue_cases (v : Value) :
    (∃ leaf, v.leaves.find? isUnsupported = some leaf ∧ ofValue v = .error ⟨leaf⟩) ∨
      v.leaves.find? isUnsupported = none ∧ ∃ w, ofValue v = .ok w ∧
        ∀ token, token ∈ w ↔ ∃ leaf ∈ v.leaves, ∃ part, ofValue leaf = .ok part ∧ token ∈ part := by
  rw [← ofValues_leaves v]
  exact ofValues_cases fun leaf hleaf => isSingle_of_mem_leaves hleaf

theorem find?_isUnsupported_isSome {other : Value}
    (h : ∀ leaf, leaf ∈ other.leaves ↔ leaf ∈ v.leaves) :
    (other.leaves.find? isUnsupported).isSome = (v.leaves.find? isUnsupported).isSome := by
  rw [Bool.eq_iff_iff, List.find?_isSome, List.find?_isSome]
  simp only [h]

/-- A value is read by the single values inside it, whatever it is. -/
theorem readByLeaves_ofValue (v : Value) : IsReadByLeaves v where
  refused_iff := by
    rw [← List.find?_isSome]
    rcases ofValue_cases v with ⟨leaf, hfind, hv⟩ | ⟨hfind, w, hv, -⟩
    · rw [hfind, hv]
      exact ⟨fun _ => rfl, fun _ => ⟨_, rfl⟩⟩
    · rw [hfind, hv]
      exact ⟨nofun, nofun⟩
  first := by
    intro u hu
    rcases ofValue_cases v with ⟨leaf, hfind, hv⟩ | ⟨-, w, hv, -⟩
    · obtain rfl := Except.error.inj (hv.symm.trans hu)
      exact hfind
    · exact nomatch hv.symm.trans hu
  union := by
    intro hsupported
    rcases ofValue_cases v with ⟨leaf, hfind, -⟩ | ⟨-, hread⟩
    · have hleaf := hsupported leaf (List.mem_of_find?_eq_some hfind)
      rw [List.find?_some hfind] at hleaf
      cases hleaf
    · exact hread
  alike := by
    intro other hsame
    have hrefused := find?_isUnsupported_isSome hsame
    rcases ofValue_cases v with ⟨leaf, hfind, hv⟩ | ⟨hfind, w, hv, hmem⟩
    · rcases ofValue_cases other with ⟨leaf', -, hother⟩ | ⟨hfind', -⟩
      · rw [hv, hother]
        rfl
      · rw [hfind, hfind'] at hrefused
        cases hrefused
    · rcases ofValue_cases other with ⟨leaf', hfind', -⟩ | ⟨-, w', hother, hmem'⟩
      · rw [hfind, hfind'] at hrefused
        cases hrefused
      · have heq : w' = w := by
          apply eq_of_mem_iff
          intro token
          simp only [hmem, hmem', hsame]
        rw [hv, hother, heq]

def grouped : Value :=
  .map [(.text "small", .text "400, 800"), (.text "large", .list [.int 1200, .null])]

def regrouped : Value :=
  .tuple [.int 1200, .set [.null, .text "400, 800"], .list [.tuple [.int 1200]]]

theorem readByLeaves_ofValue_regrouped :
    (∃ leaf ∈ leaves (.list [.int 5, .map [(.text "small", .tuple [.bool false])]]),
      leaf.isUnsupported = true) ∧
    (∃ u, ofValue (.list [.int 5, .map [(.text "small", .tuple [.bool false])]]) = .error u) ∧
    (∀ leaf ∈ grouped.leaves, leaf.isUnsupported = false) ∧
    (∃ w, ofValue grouped = .ok w ∧ "800" ∈ w) ∧
    (∀ leaf, leaf ∈ regrouped.leaves ↔ leaf ∈ grouped.leaves) ∧
    (ofValue regrouped).toOption = (ofValue grouped).toOption := by
  have hrefused : ∃ leaf ∈ leaves (.list [.int 5, .map [(.text "small", .tuple [.bool false])]]),
      leaf.isUnsupported = true :=
    ⟨.bool false, by simp [leaves, leavesOfAll, leavesOfEntries], rfl⟩
  have hsupported : ∀ leaf ∈ grouped.leaves, leaf.isUnsupported = false := by
    simp [grouped, leaves, leavesOfAll, leavesOfEntries, isUnsupported]
  have hsame : ∀ leaf, leaf ∈ regrouped.leaves ↔ leaf ∈ grouped.leaves := by
    intro leaf
    simp only [grouped, regrouped, leaves, leavesOfAll, leavesOfEntries, List.append_nil,
      List.cons_append, List.nil_append, List.mem_cons, List.not_mem_nil, or_false]
    tauto
  have hgrouped := readByLeaves_ofValue grouped
  obtain ⟨w, hw, hmem⟩ := hgrouped.union hsupported
  have htext : .text "400, 800" ∈ grouped.leaves := by
    simp [grouped, leaves, leavesOfEntries]
  have hwidth : "800" ∈ w :=
    (hmem "800").mpr ⟨_, htext, _, rfl, mem_ofList.mpr (List.mem_cons_of_mem _ List.mem_cons_self)⟩
  exact ⟨hrefused, (readByLeaves_ofValue _).refused_iff.mpr hrefused, hsupported, ⟨w, hw, hwidth⟩,
    hsame, hgrouped.alike regrouped hsame⟩

/-- Joined with commas, texts give the tokens that each of them gives. -/
theorem tokensOfText_intercalate (texts : List String) :
    tokensOfText (",".intercalate texts) = texts.flatMap tokensOfText := by
  induction texts with
  | nil => rfl
  | cons text texts ih =>
      cases texts with
      | nil => simp
      | cons next texts =>
          have hjoined : (",".intercalate (text :: next :: texts)).toList =
              text.toList ++ ',' :: (",".intercalate (next :: texts)).toList := by
            simp
          rw [List.flatMap_cons, ← ih, tokensOfText, hjoined, List.splitOn_append_cons_self,
            List.map_append, List.filterMap_append]
          rfl

theorem ofValue_intercalate (texts : List String) :
    ofValue (.text (",".intercalate texts)) = ofValue (.list (texts.map .text)) := by
  have hrow : ofValue (.list (texts.map .text)) = ofValues (texts.map .text) := rfl
  rw [hrow, ofValues_texts, ← tokensOfText_intercalate]
  rfl

theorem ofValue_widthsOption (texts : List String) :
    ofValue (CommandLine.widthsOption texts) = ofValue (.list (texts.map .text)) := by
  unfold CommandLine.widthsOption
  split
  · rename_i hempty
    rw [List.isEmpty_iff.mp hempty]
    rfl
  · exact ofValue_intercalate texts

/-- What is true of a set of widths that was read: its tokens are clean, and it stands for itself
in whatever form and order they are given again. -/
structure IsLasting (w : WidthSet) : Prop where
  nonempty : ∀ token ∈ w, token ≠ ""
  comma : ∀ token ∈ w, ',' ∉ token.toList
  trimmed : ∀ token ∈ w, ∀ c, token.toList.head? = some c ∨ token.toList.getLast? = some c →
    Text.isBlank c = false
  asSet : ∀ tokens : List String, (∀ token, token ∈ tokens ↔ token ∈ w) →
    ofValue (.set (tokens.map .text)) = .ok w
  asText : ∀ tokens : List String, (∀ token, token ∈ tokens ↔ token ∈ w) →
    ofValue (.text (",".intercalate tokens)) = .ok w

/-- What was read lasts, and texts joined with commas, such as those of flags, are read like the
list of them. -/
theorem lasting_of_ofValue :
    (∀ (v : Value) (w : WidthSet), ofValue v = .ok w → IsLasting w) ∧
    ∀ texts : List String,
      ofValue (.text (",".intercalate texts)) = ofValue (.list (texts.map .text)) ∧
      ofValue (CommandLine.widthsOption texts) = ofValue (.list (texts.map .text)) := by
  refine ⟨fun v w hw => ?_, fun texts => ⟨ofValue_intercalate texts, ofValue_widthsOption texts⟩⟩
  have htoken : ∀ token ∈ w, IsToken token := fun token => isToken_of_ofValue hw
  constructor
  · rintro token hmem rfl
    exact (htoken "" hmem).nonempty rfl
  · exact fun token hmem => (htoken token hmem).comma
  · rintro token hmem c (hhead | hlast)
    · exact Text.isBlank_head?_of_trim (htoken token hmem).trimmed hhead
    · exact Text.isBlank_getLast?_of_trim (htoken token hmem).trimmed hlast
  · exact fun tokens htokens => ofValues_tokens htoken htokens
  · intro tokens htokens
    rw [ofValue_intercalate]
    exact ofValues_tokens htoken htokens

/-- The flags for widths with blanks and an empty text among them. -/
theorem lasting_of_ofValue_flags :
    ofValue (.list [.text " 400 ,, 1200 ", .int 8]) = .ok (ofList ["8", "400", "1200"]) ∧
    ofValue (.text (",".intercalate ["1200", "8", "400"])) = .ok (ofList ["8", "400", "1200"]) ∧
    ofValue (CommandLine.widthsOption [" 400 ,", "1200"]) =
      ofValue (.list [.text " 400 ,", .text "1200"]) := by
  have hread :
      ofValue (.list [.text " 400 ,, 1200 ", .int 8]) = .ok (ofList ["8", "400", "1200"]) := rfl
  have hmem : ∀ token, token ∈ ["1200", "8", "400"] ↔ token ∈ ofList ["8", "400", "1200"] := by
    intro token
    simp only [mem_ofList, List.mem_cons, List.not_mem_nil, or_false]
    tauto
  obtain ⟨hlasting, hjoined⟩ := lasting_of_ofValue
  exact ⟨hread, (hlasting _ _ hread).asText _ hmem, (hjoined [" 400 ,", "1200"]).2⟩

end WidthSet

end MediaSplit
