import MediaSplit.Files.Naming
import MediaSplit.Proofs.Files.Opening

/-!
The names of stripped copies. The suffix in a name can be told from what stands around it when it
has no dot and neither name has it already, so two names have the same copy only if one of them is
the other with the extension added. The place of a copy is in the directory of its source, or
below it, where the suffix has slashes.
-/

namespace MediaSplit

namespace Text

theorem occursIn_iff {part text : List Char} : occursIn part text = true ↔ part <:+: text := by
  induction text with
  | nil => simp [occursIn]
  | cons c cs ih => simp [occursIn, ih, List.infix_cons_iff]

/-- Where a part stands in a text, the replacement takes its place. -/
theorem replaceFirst_eq {part text : List Char} (hne : part ≠ []) (h : occursIn part text = true)
    (replacement : List Char) :
    ∃ before after, text = before ++ part ++ after ∧
      replaceFirst part replacement text = before ++ replacement ++ after := by
  induction text with
  | nil => exact absurd (List.isEmpty_iff.mp h) hne
  | cons c cs ih =>
      unfold replaceFirst
      split
      · rename_i hinitial
        obtain ⟨after, hafter⟩ := List.isPrefixOf_iff_prefix.mp hinitial
        refine ⟨[], after, by rw [List.nil_append, hafter], ?_⟩
        rw [← hafter, List.drop_left, List.nil_append]
      · rename_i hinitial
        have hrest : occursIn part cs = true := by
          simpa [occursIn, hinitial] using h
        obtain ⟨before, after, htext, hreplace⟩ := ih hrest
        refine ⟨c :: before, after, ?_, ?_⟩
        · rw [htext]
          rfl
        · rw [hreplace]
          rfl

end Text

theorem dot_not_mem_cleanSuffixChars (suffix : List Char) : '.' ∉ cleanSuffixChars suffix := by
  induction suffix with
  | nil => exact List.not_mem_nil
  | cons c cs ih =>
      unfold cleanSuffixChars
      split
      · exact List.not_mem_nil
      · split
        · decide
        · split
          · exact ih
          · rename_i hne
            simp only [List.mem_cons, not_or]
            exact ⟨Ne.symm hne, ih⟩

/-- There is nothing to clean in a suffix without dots. -/
theorem cleanSuffixChars_of_no_dot {suffix : List Char} (h : '.' ∉ suffix) :
    cleanSuffixChars suffix = suffix := by
  induction suffix with
  | nil => rfl
  | cons c cs ih =>
      have hc : c ≠ '.' := fun heq => h (heq ▸ List.mem_cons_self)
      have hcs : '.' ∉ cs := fun hmem => h (List.mem_cons_of_mem c hmem)
      unfold cleanSuffixChars
      split
      · rename_i heq
        exact absurd (List.cons.inj heq).1 hc
      · split
        · rename_i heq
          exact absurd (List.cons.inj heq).1 hc
        · rw [ih hcs]

theorem cleanSuffix_idem (suffix : String) : cleanSuffix (cleanSuffix suffix) = cleanSuffix suffix := by
  simp only [cleanSuffix, String.toList_ofList,
    cleanSuffixChars_of_no_dot (dot_not_mem_cleanSuffixChars _)]

/-- What stands before the suffix in the name of a copy, and what stands after the extension. -/
theorem strippedName_eq (suffix name : List Char) :
    ∃ before after, strippedName suffix name = before ++ '.' :: (suffix ++ cssExtension ++ after) ∧
      (name = before ++ cssExtension ++ after ∨
        Text.occursIn cssExtension name = false ∧ name = before ∧ after = []) := by
  unfold strippedName
  split
  · rename_i hoccurs
    obtain ⟨before, after, hname, hreplace⟩ := Text.replaceFirst_eq (by decide) hoccurs
      ('.' :: suffix ++ cssExtension)
    refine ⟨before, after, ?_, Or.inl hname⟩
    rw [hreplace]
    simp
  · rename_i hoccurs
    exact ⟨name, [], by simp, Or.inr ⟨by simpa using hoccurs, rfl, rfl⟩⟩

/-- Where one beginning is longer than the other, the suffix stands in what it is longer by. -/
private theorem infix_of_longer {suffix rest rest' extra : List Char} (hdot : '.' ∉ suffix)
    (hne : extra ≠ []) (h : '.' :: (suffix ++ rest) = extra ++ '.' :: (suffix ++ rest')) :
    suffix <:+: extra := by
  cases extra with
  | nil => exact absurd rfl hne
  | cons c extra =>
      have htail := (List.cons.inj h).2
      rcases List.append_eq_append_iff.mp htail with ⟨more, hextra, -⟩ | ⟨more, hsuffix, hmore⟩
      · rw [hextra]
        exact ⟨[c], more, by simp⟩
      · cases more with
        | nil =>
            rw [List.append_nil] at hsuffix
            exact ⟨[c], [], by simp [hsuffix]⟩
        | cons d more =>
            -- the dot after the longer beginning would be one of the suffix
            have hd : '.' = d := (List.cons.inj hmore).1
            refine absurd ?_ hdot
            rw [hsuffix, ← hd]
            simp

private theorem not_longer {suffix name before after rest rest' extra : List Char}
    (hdot : '.' ∉ suffix) (hname : ¬ suffix <:+: name)
    (hbefore : name = before ++ cssExtension ++ after ∨ name = before)
    (h : '.' :: (suffix ++ rest) = extra ++ '.' :: (suffix ++ rest'))
    (hextra : extra <:+: before) : extra = [] := by
  by_contra hne
  have hsuffix := (infix_of_longer hdot hne h).trans hextra
  apply hname
  rcases hbefore with rfl | rfl
  · rw [List.append_assoc]
    exact hsuffix.trans (List.prefix_append _ _).isInfix
  · exact hsuffix

/-- Two names without the suffix have the same copy only if they are the same, but for the
extension. -/
theorem eq_or_extended_of_strippedName {suffix name other : List Char} (hdot : '.' ∉ suffix)
    (hname : ¬ suffix <:+: name) (hother : ¬ suffix <:+: other)
    (h : strippedName suffix name = strippedName suffix other) :
    name = other ∨
      Text.occursIn cssExtension name = false ∧ other = name ++ cssExtension ∨
      Text.occursIn cssExtension other = false ∧ name = other ++ cssExtension := by
  obtain ⟨before, after, hcopy, hform⟩ := strippedName_eq suffix name
  obtain ⟨before', after', hcopy', hform'⟩ := strippedName_eq suffix other
  rw [hcopy, hcopy'] at h
  have hsame : before = before' ∧ after = after' := by
    have hends : ∀ {rest rest' : List Char}, suffix ++ cssExtension ++ rest =
        suffix ++ cssExtension ++ rest' → rest = rest' := List.append_cancel_left
    rcases List.append_eq_append_iff.mp h with ⟨extra, hlonger, hrest⟩ | ⟨extra, hlonger, hrest⟩
    · simp only [List.append_assoc] at hrest
      have hnil : extra = [] := not_longer hdot hother (hform'.imp_right fun h => h.2.1) hrest
        (hlonger ▸ (List.suffix_append _ _).isInfix)
      rw [hnil, List.nil_append, List.cons.injEq] at hrest
      simp only [← List.append_assoc] at hrest
      exact ⟨by simp [hlonger, hnil], hends hrest.2⟩
    · simp only [List.append_assoc] at hrest
      have hnil : extra = [] := not_longer hdot hname (hform.imp_right fun h => h.2.1) hrest
        (hlonger ▸ (List.suffix_append _ _).isInfix)
      rw [hnil, List.nil_append, List.cons.injEq] at hrest
      simp only [← List.append_assoc] at hrest
      exact ⟨by simp [hlonger, hnil], (hends hrest.2).symm⟩
  obtain ⟨rfl, rfl⟩ := hsame
  rcases hform with hname' | ⟨hplain, hname', hafter⟩
  · rcases hform' with hother' | ⟨hplain, hother', hafter⟩
    · exact Or.inl (hname'.trans hother'.symm)
    · refine Or.inr (Or.inr ⟨hplain, ?_⟩)
      rw [hname', hother', hafter, List.append_nil]
  · rcases hform' with hother' | ⟨-, hother', -⟩
    · refine Or.inr (Or.inl ⟨hplain, ?_⟩)
      rw [hother', hname', hafter, List.append_nil]
    · exact Or.inl (hname'.trans hother'.symm)

namespace Path

/-- A directory and a name that follows it lead the same way as the path that they are joined to. -/
theorem names_join {directory path : List Char} (h : path.head? ≠ some '/') :
    names (join directory path) = names directory ++ names path := by
  unfold join
  rw [if_neg h]
  split
  · rename_i hends
    rcases Bool.or_eq_true_iff.mp hends with hempty | hslash
    · rw [List.isEmpty_iff.mp hempty]
      simp [names, parts]
    · obtain ⟨front, rfl⟩ := List.getLast?_eq_some_iff.mp (of_decide_eq_true hslash)
      rw [List.append_assoc, List.singleton_append, names_append_slash, names_append_slash]
      simp [names, parts]
  · exact names_append_slash directory path

theorem head?_join {directory path : List Char} (h : path.head? ≠ some '/') :
    (join directory path).head? = some '/' ↔ directory.head? = some '/' := by
  unfold join
  rw [if_neg h]
  cases directory with
  | nil => simpa using h
  | cons c rest => split <;> simp

/-- What is added to a path without a slash is added to its name. -/
theorem nameOf_append {path added : List Char} (h : '/' ∉ added) :
    nameOf (path ++ added) = nameOf path ++ added := by
  unfold nameOf
  rw [List.reverse_append, List.takeWhile_append_of_pos, List.reverse_append, List.reverse_reverse]
  intro c hc
  have hne : c ≠ '/' := fun heq => h (heq ▸ List.mem_reverse.mp hc)
  simpa using hne

theorem directoryOf_append {path added : List Char} (h : '/' ∉ added) :
    directoryOf (path ++ added) = directoryOf path := by
  unfold directoryOf beforeName
  rw [List.reverse_append, List.dropWhile_append_of_pos]
  intro c hc
  have hne : c ≠ '/' := fun heq => h (heq ▸ List.mem_reverse.mp hc)
  simpa using hne

theorem head?_strippedName {suffix name : List Char} (h : '/' ∉ name) :
    (strippedName suffix name).head? ≠ some '/' := by
  obtain ⟨before, after, hcopy, hform⟩ := strippedName_eq suffix name
  rw [hcopy]
  cases before with
  | nil => simp
  | cons c rest =>
      simp only [List.cons_append, List.head?_cons, ne_eq, Option.some.injEq]
      rintro rfl
      apply h
      rcases hform with rfl | ⟨-, rfl, -⟩ <;> simp

theorem isPlain_of_mem {name : List Char} {c : Char} (hmem : c ∈ name) (hc : c ≠ '.') :
    IsPlain (String.ofList name) := by
  have hdots : ∀ dots : List Char, (∀ d ∈ dots, d = '.') → name ≠ dots := by
    rintro dots hdots rfl
    exact hc (hdots c hmem)
  constructor
  · intro heq
    rw [← String.toList_inj, String.toList_ofList] at heq
    exact hdots _ (by simp) heq
  · intro heq
    rw [← String.toList_inj, String.toList_ofList] at heq
    exact hdots _ (by simp) heq

theorem nameOf_append_slash (first rest : List Char) :
    nameOf (first ++ '/' :: rest) = nameOf rest := by
  unfold nameOf
  rw [List.reverse_append, List.reverse_cons, List.append_assoc, List.takeWhile_append]
  split
  · rename_i hlength
    have hall : rest.reverse.takeWhile (· != '/') = rest.reverse :=
      (List.takeWhile_prefix _).eq_of_length hlength
    rw [hall]
    simp
  · rfl

theorem nameOf_of_no_slash {path : List Char} (h : '/' ∉ path) : nameOf path = path := by
  have hnil : nameOf [] = [] := rfl
  simpa [hnil] using @nameOf_append [] path h

/-- What stands in a part of a path stands in the path. -/
theorem mem_of_mem_parts {path part : List Char} {c : Char} (hpart : part ∈ parts path)
    (hc : c ∈ part) : c ∈ path := by
  induction path generalizing part with
  | nil =>
      obtain rfl : part = [] := by simpa [parts] using hpart
      exact hc
  | cons d rest ih =>
      rw [parts, List.splitOn_cons_eq_if_modifyHead] at hpart
      split at hpart
      · rcases List.mem_cons.mp hpart with rfl | hpart
        · cases hc
        · exact List.mem_cons_of_mem d (ih hpart hc)
      · change part ∈ (parts rest).modifyHead (d :: ·) at hpart
        cases hparts : parts rest with
        | nil =>
            rw [hparts] at hpart
            cases hpart
        | cons first others =>
            rw [hparts, List.modifyHead_cons] at hpart
            rcases List.mem_cons.mp hpart with rfl | hpart
            · rcases List.mem_cons.mp hc with rfl | hc
              · exact List.mem_cons_self
              · exact List.mem_cons_of_mem d (ih (hparts ▸ List.mem_cons_self) hc)
            · exact List.mem_cons_of_mem d (ih (hparts ▸ List.mem_cons_of_mem _ hpart) hc)

/-- Without dots there are only names that lead down. -/
theorem isPlain_of_no_dot {path : List Char} (hdot : '.' ∉ path) :
    ∀ name ∈ names path, IsPlain name := by
  intro name hname
  obtain ⟨part, hpart, rfl⟩ := List.mem_map.mp hname
  obtain ⟨hpart, hne⟩ := List.mem_filter.mp hpart
  cases part with
  | nil => cases hne
  | cons c rest =>
      refine isPlain_of_mem List.mem_cons_self ?_
      rintro rfl
      exact hdot (mem_of_mem_parts hpart List.mem_cons_self)

end Path

open MediaSplit.Path

/-- What is in neither the name nor the suffix can only be the dot before the suffix, or in the
extension. -/
private theorem slash_not_mem_ends {suffix name : List Char} (hname : '/' ∉ name) :
    ∃ before after, strippedName suffix name = before ++ '.' :: (suffix ++ cssExtension ++ after) ∧
      '/' ∉ before ∧ '/' ∉ after := by
  obtain ⟨before, after, hcopy, hform⟩ := strippedName_eq suffix name
  refine ⟨before, after, hcopy, ?_⟩
  rcases hform with rfl | ⟨-, rfl, rfl⟩
  · simp only [List.mem_append, not_or] at hname
    exact ⟨hname.1.1, hname.2⟩
  · exact ⟨hname, List.not_mem_nil⟩

theorem slash_not_mem_strippedName {suffix name : List Char} (hname : '/' ∉ name)
    (hsuffix : '/' ∉ suffix) : '/' ∉ strippedName suffix name := by
  obtain ⟨before, after, hcopy, hbefore, hafter⟩ := @slash_not_mem_ends suffix name hname
  have hcss : '/' ∉ cssExtension := by decide
  rw [hcopy]
  simp [hbefore, hafter, hsuffix, hcss]

/-- A suffix without slashes leaves the copy in the directory of the source. -/
theorem names_strippedName {suffix name : List Char} (hname : '/' ∉ name) (hsuffix : '/' ∉ suffix) :
    names (strippedName suffix name) = [String.ofList (strippedName suffix name)] := by
  obtain ⟨before, after, hcopy, -⟩ := strippedName_eq suffix name
  rw [names_of_no_slash (slash_not_mem_strippedName hname hsuffix), if_neg]
  rw [hcopy]
  simp

/-- One with slashes leads further down: through a directory named by what stands before the first
slash and those between the slashes. -/
theorem names_strippedName_of_slash {first rest name : List Char} (hname : '/' ∉ name)
    (hfirst : '/' ∉ first) :
    ∃ before after,
      strippedName (first ++ '/' :: rest) name =
        before ++ '.' :: (first ++ '/' :: rest ++ cssExtension ++ after) ∧
      names (strippedName (first ++ '/' :: rest) name) = String.ofList (before ++ '.' :: first) ::
        (names (directoryOf rest) ++ [String.ofList (nameOf rest ++ (cssExtension ++ after))]) := by
  obtain ⟨before, after, hcopy, hbefore, hafter⟩ :=
    @slash_not_mem_ends (first ++ '/' :: rest) name hname
  refine ⟨before, after, hcopy, ?_⟩
  have hcss : '/' ∉ cssExtension := by decide
  have hadded : '/' ∉ cssExtension ++ after := by simp [hcss, hafter]
  have hjoined : before ++ '.' :: (first ++ '/' :: rest ++ cssExtension ++ after) =
      before ++ '.' :: first ++ '/' :: (rest ++ (cssExtension ++ after)) := by
    simp
  have hhead : names (before ++ '.' :: first) = [String.ofList (before ++ '.' :: first)] := by
    rw [names_of_no_slash, if_neg]
    · simp
    · simp [hbefore, hfirst]
  have hlast : names (nameOf rest ++ (cssExtension ++ after)) =
      [String.ofList (nameOf rest ++ (cssExtension ++ after))] := by
    rw [names_of_no_slash, if_neg]
    · simp [cssExtension]
    · simp [slash_not_mem_nameOf, hcss, hafter]
  rw [hcopy, hjoined, names_append_slash, hhead, names_eq_append (rest ++ (cssExtension ++ after)),
    directoryOf_append hadded, nameOf_append hadded, hlast]
  rfl

/-- The names that lead to the copies of two sources are as many, and tell the copies apart. -/
theorem strippedName_of_names {suffix name other : List Char} (hname : '/' ∉ name)
    (hother : '/' ∉ other) :
    (names (strippedName suffix name)).length = (names (strippedName suffix other)).length ∧
      (names (strippedName suffix name) = names (strippedName suffix other) →
        strippedName suffix name = strippedName suffix other) := by
  by_cases hslash : '/' ∈ suffix
  · obtain ⟨first, rest, rfl, hfirst⟩ := List.eq_append_cons_of_mem hslash
    obtain ⟨before, after, hcopy, hnames⟩ :=
      @names_strippedName_of_slash first rest name hname hfirst
    obtain ⟨before', after', hcopy', hnames'⟩ :=
      @names_strippedName_of_slash first rest other hother hfirst
    rw [hnames, hnames']
    refine ⟨by simp, fun h => ?_⟩
    obtain ⟨hhead, htail⟩ := List.cons.inj h
    have hbefore := List.append_cancel_right (String.ofList_injective hhead)
    have hlast := (List.cons.inj (List.append_cancel_left htail)).1
    have hafter := List.append_cancel_left (String.ofList_injective hlast)
    rw [hcopy, hcopy', hbefore, List.append_cancel_left hafter]
  · rw [names_strippedName hname hslash, names_strippedName hother hslash]
    exact ⟨rfl, fun h => String.ofList_injective (List.cons.inj h).1⟩

/-- The names that lead to a copy lead down, but for the first if the suffix starts with a slash,
and the last has the end of the suffix in it. -/
theorem exists_names_strippedName {suffix name : List Char} (hdot : '.' ∉ suffix)
    (hname : '/' ∉ name) :
    ∃ first rest, names (strippedName suffix name) = first :: rest ∧
      (∀ part ∈ rest, IsPlain part) ∧ (suffix.head? ≠ some '/' → IsPlain first) ∧
      ∃ last, (first :: rest).getLast? = some last ∧ nameOf suffix ++ cssExtension <:+: last.toList := by
  have hc : 'c' ∈ cssExtension := by decide
  by_cases hslash : '/' ∈ suffix
  · obtain ⟨first, rest, rfl, hfirst⟩ := List.eq_append_cons_of_mem hslash
    obtain ⟨before, after, -, hnames⟩ := @names_strippedName_of_slash first rest name hname hfirst
    simp only [List.mem_append, List.mem_cons, not_or] at hdot
    have hrest : '.' ∉ directoryOf rest := fun hmem => hdot.2.2 ((sublist_directoryOf rest).subset hmem)
    refine ⟨_, _, hnames, ?_, ?_, String.ofList (nameOf rest ++ (cssExtension ++ after)), ?_, ?_⟩
    · intro part hpart
      rcases List.mem_append.mp hpart with hpart | hpart
      · exact isPlain_of_no_dot hrest part hpart
      · rw [List.mem_singleton.mp hpart]
        exact isPlain_of_mem (by simp [hc] : 'c' ∈ nameOf rest ++ (cssExtension ++ after)) (by decide)
    · intro hhead
      cases first with
      | nil => exact absurd rfl hhead
      | cons c first =>
          have hne : c ≠ '.' := fun heq => hdot.1 (heq ▸ List.mem_cons_self)
          exact isPlain_of_mem (by simp : c ∈ before ++ '.' :: c :: first) hne
    · rw [← List.cons_append, List.getLast?_concat]
    · rw [String.toList_ofList, nameOf_append_slash, ← List.append_assoc]
      exact (List.prefix_append _ _).isInfix
  · obtain ⟨before, after, hcopy, -⟩ := strippedName_eq suffix name
    have hnames := @names_strippedName suffix name hname hslash
    rw [hcopy] at hnames ⊢
    refine ⟨_, [], hnames, nofun, fun _ => ?_, _, List.getLast?_singleton, ?_⟩
    · exact isPlain_of_mem (by simp [hc] :
        'c' ∈ before ++ '.' :: (suffix ++ cssExtension ++ after)) (by decide)
    · rw [String.toList_ofList, nameOf_of_no_slash hslash]
      exact ⟨before ++ ['.'], after, by simp⟩

namespace FileTree

variable (path suffix : String)

/-- The names that lead to a copy are those that lead to the directory of its source, and its own. -/
theorem names_strippedPath :
    names (strippedPath path suffix).toList = names (directoryOf path.toList) ++
      names (strippedName (cleanSuffixChars suffix.toList) (nameOf path.toList)) := by
  simp only [strippedPath, String.toList_ofList]
  exact names_join (head?_strippedName (slash_not_mem_nameOf _))

/-- A copy is found from where its source is. -/
theorem startOf_strippedPath (t : FileTree) :
    t.startOf (strippedPath path suffix).toList = t.startOf path.toList := by
  simp only [startOf, strippedPath, String.toList_ofList,
    head?_join (head?_strippedName (slash_not_mem_nameOf path.toList)), head?_directoryOf]

end FileTree

end MediaSplit
