import MediaSplit.Proofs.Css.Places
import MediaSplit.Proofs.Nodes
import MediaSplit.Proofs.Widths

/-!
Which unfinished rule is reported. The rule lists of a text are looked at from the outermost one
into the blocks of its media rules, as deep as those are nested. A text is malformed exactly if one
of these lists has an unfinished rule, and the one that is reported is the first in the text. A
text that is accepted has none, and its nodes, the inner ones too, are media blocks where their
rules are media rules.
-/

namespace MediaSplit

namespace Node

/-- The rule lists that are looked at on the way through a rule list: the list itself, and the
contents of the media rules in every list that is looked at. -/
inductive Visits : List Css.Rule → List Css.Rule → Prop
  | self (rules : List Css.Rule) : Visits rules rules
  | inside {rules visited : List Css.Rule} {keyword : List Char} {prelude content : List Css.Token}
      (hmem : .atRule keyword prelude (some content) ∈ rules)
      (hmedia : isMediaKeyword keyword = true)
      (h : Visits (Css.Rule.ofTokens .nested content) visited) : Visits rules visited

/-- Whether a list that is looked at has an unfinished rule at a place. -/
def IsUnfinishedAt (rules : List Css.Rule) (place : Css.Place) : Prop :=
  ∃ visited, Visits rules visited ∧ .unfinished place ∈ visited

section Unfinished

variable {r : Css.Rule} {rules : List Css.Rule} {place : Css.Place}

theorem isUnfinishedAt_cons_iff : IsUnfinishedAt (r :: rules) place ↔
    r = .unfinished place ∨
    (∃ keyword prelude content, r = .atRule keyword prelude (some content) ∧
      isMediaKeyword keyword = true ∧
      IsUnfinishedAt (Css.Rule.ofTokens .nested content) place) ∨
    IsUnfinishedAt rules place := by
  constructor
  · rintro ⟨visited, hvisits, hmem⟩
    cases hvisits with
    | self =>
        rcases List.mem_cons.mp hmem with heq | hmem
        · exact .inl heq.symm
        · exact .inr (.inr ⟨rules, .self rules, hmem⟩)
    | @inside _ _ keyword prelude content hrule hmedia h =>
        rcases List.mem_cons.mp hrule with heq | hrule
        · exact .inr (.inl ⟨keyword, prelude, content, heq.symm, hmedia, visited, h, hmem⟩)
        · exact .inr (.inr ⟨visited, .inside hrule hmedia h, hmem⟩)
  · rintro (rfl | ⟨keyword, prelude, content, rfl, hmedia, visited, h, hmem⟩ |
      ⟨visited, hvisits, hmem⟩)
    · exact ⟨_, .self _, List.mem_cons_self⟩
    · exact ⟨visited, .inside List.mem_cons_self hmedia h, hmem⟩
    · cases hvisits with
      | self => exact ⟨_, .self _, List.mem_cons_of_mem _ hmem⟩
      | inside hrule hmedia h =>
          exact ⟨visited, .inside (List.mem_cons_of_mem _ hrule) hmedia h, hmem⟩

/-- The place of an unfinished rule is one of those that the list takes from its tokens. -/
theorem IsUnfinishedAt.mem_places (h : IsUnfinishedAt rules place) :
    place ∈ rules.flatMap Css.Rule.places := by
  obtain ⟨visited, hvisits, hmem⟩ := h
  induction hvisits with
  | self rules => exact List.mem_flatMap.mpr ⟨_, hmem, List.mem_singleton.mpr rfl⟩
  | @inside rules _ keyword prelude content hrule _ _ ih =>
      have hcontent : place ∈ Css.Token.allPlaces content :=
        (Css.Rule.places_split .nested none content).subset (ih hmem)
      exact List.mem_flatMap.mpr ⟨_, hrule, List.mem_append_right _ hcontent⟩

theorem Accepted.not_isUnfinishedAt (h : Accepted rules) (place : Css.Place) :
    ¬IsUnfinishedAt rules place := by
  induction h with
  | nil =>
      rintro ⟨visited, hvisits, hmem⟩
      cases hvisits with
      | self => exact List.not_mem_nil hmem
      | inside hrule => exact List.not_mem_nil hrule
  | cons hr _ _ ihinside ih =>
      rw [isUnfinishedAt_cons_iff]
      rintro (heq | ⟨keyword, prelude, content, heq, hmedia, hinside⟩ | hrest)
      · exact hr place heq
      · exact ihinside keyword prelude content heq hmedia hinside
      · exact ih hrest

structure IsFirstUnfinished (rules : List Css.Rule) (place : Css.Place) : Prop where
  unfinished : IsUnfinishedAt rules place
  first : ∀ other, IsUnfinishedAt rules other → other = place ∨ place.IsBefore other

/-- A rule without unfinished rules in it leaves the first one to the rules behind it. -/
private theorem IsFirstUnfinished.cons (h : IsFirstUnfinished rules place)
    (hr : ∀ other, r ≠ .unfinished other)
    (hinside : ∀ keyword prelude content, r = .atRule keyword prelude (some content) →
      isMediaKeyword keyword = true →
      ∀ other, ¬IsUnfinishedAt (Css.Rule.ofTokens .nested content) other) :
    IsFirstUnfinished (r :: rules) place where
  unfinished := isUnfinishedAt_cons_iff.mpr (.inr (.inr h.unfinished))
  first other hother := by
    rcases isUnfinishedAt_cons_iff.mp hother with
      heq | ⟨keyword, prelude, content, heq, hmedia, hin⟩ | hrest
    · exact absurd heq (hr other)
    · exact absurd hin (hinside keyword prelude content heq hmedia other)
    · exact h.first other hrest

/-- Where the rules follow the order of the text, the unfinished rule that is reported is the
first. The content of a media block comes before all that follows the block. -/
theorem isFirstUnfinished_of_ofRules (h : ofRules rules = .error place)
    (horder : (rules.flatMap Css.Rule.places).Pairwise Css.Place.IsBefore) :
    IsFirstUnfinished rules place := by
  have hrest {r : Css.Rule} {rules : List Css.Rule}
      (h : ((r :: rules).flatMap Css.Rule.places).Pairwise Css.Place.IsBefore) :
      (rules.flatMap Css.Rule.places).Pairwise Css.Place.IsBefore := by
    rw [List.flatMap_cons, List.pairwise_append] at h
    exact h.2.1
  fun_induction ofRules rules with
  | case1 => cases h
  | case2 other rest =>
      obtain rfl := Except.error.inj h
      refine ⟨isUnfinishedAt_cons_iff.mpr (.inl rfl), fun place hplace => ?_⟩
      rw [List.flatMap_cons, List.pairwise_append] at horder
      rcases isUnfinishedAt_cons_iff.mp hplace with heq | ⟨_, _, _, heq, -⟩ | hplace
      · exact .inl (Css.Rule.unfinished.inj heq).symm
      · cases heq
      · exact .inr (horder.2.2 other (List.mem_singleton.mpr rfl) place hplace.mem_places)
  | case3 keyword prelude rest ih =>
      rcases bind_eq_error.mp h with hfollowing | ⟨nodes, -, h⟩
      · exact (ih hfollowing (hrest horder)).cons (by simp) (by simp)
      · split at h <;> cases h
  | case4 keyword prelude content rest hmedia ihinside ih =>
      rcases bind_eq_error.mp h with hchildren | ⟨children, hchildren, h⟩
      · rw [List.flatMap_cons, List.pairwise_append] at horder
        have hcontent := Css.Rule.places_split .nested none content
        have hinner : (Css.Token.allPlaces content).Pairwise Css.Place.IsBefore :=
          horder.1.sublist (List.sublist_append_right _ _)
        have hfirst := ihinside hchildren (hinner.sublist hcontent)
        refine ⟨isUnfinishedAt_cons_iff.mpr
          (.inr (.inl ⟨keyword, prelude, content, rfl, hmedia, hfirst.unfinished⟩)), ?_⟩
        intro other hother
        rcases isUnfinishedAt_cons_iff.mp hother with heq | ⟨_, _, _, ⟨⟩, -, hinside⟩ | hother
        · cases heq
        · exact hfirst.first other hinside
        · -- What follows the block stands behind everything in it.
          have hmem := hcontent.subset hfirst.unfinished.mem_places
          exact .inr (horder.2.2 place (List.mem_append_right _ hmem) other hother.mem_places)
      · rcases bind_eq_error.mp h with hfollowing | ⟨nodes, -, h⟩
        · refine (ih hfollowing (hrest horder)).cons (by simp) ?_
          rintro _ _ _ ⟨⟩ -
          exact (accepted_of_ofRules hchildren).1.not_isUnfinishedAt
        · cases h
  | case5 keyword prelude content rest hmedia ih =>
      rcases bind_eq_error.mp h with hfollowing | ⟨nodes, -, h⟩
      · refine (ih hfollowing (hrest horder)).cons (by simp) ?_
        rintro _ _ _ ⟨⟩ hkeyword
        exact absurd hkeyword hmedia
      · cases h
  | case6 text rest ih | case7 text rest ih | case8 prelude content rest ih =>
      rcases bind_eq_error.mp h with hfollowing | ⟨nodes, -, h⟩
      · exact (ih hfollowing (hrest horder)).cons (by simp) (by simp)
      · cases h

end Unfinished

inductive Reaches : List Node → Node → Prop
  | here {nodes : List Node} {n : Node} (h : n ∈ nodes) : Reaches nodes n
  | inside {nodes : List Node} {outer n : Node} (houter : outer ∈ nodes)
      (h : Reaches outer.children n) : Reaches nodes n

/-- A node that tells truly what its rule is. -/
structure IsFaithful (n : Node) : Prop where
  finished : ∀ place, n.source ≠ .unfinished place
  isMedia_iff : n.isMedia = true ↔ ∃ keyword prelude content,
    n.source = .atRule keyword prelude content ∧ Css.asciiLower keyword = "media".toList
  trimmed : ∀ condition children source, n = .media condition children source →
    ∀ c, condition.toList.head? = some c ∨ condition.toList.getLast? = some c →
      Text.isBlank c = false

section Faithful

variable {rules : List Css.Rule} {nodes : List Node} {m n : Node}

/-- The condition of a prelude has no blanks at its ends. -/
theorem isBlank_of_conditionOf {prelude : List Css.Token} {c : Char}
    (h : (conditionOf prelude).toList.head? = some c ∨
      (conditionOf prelude).toList.getLast? = some c) : Text.isBlank c = false := by
  rw [conditionOf, String.toList_ofList] at h
  generalize hcondition : Text.trim (Css.Token.write prelude) = condition at h
  have htrim : Text.trim condition = condition := by rw [← hcondition, Text.trim_idem]
  have hend : condition.rdropWhile Text.isBlank = condition := by
    rw [← htrim]
    exact List.rdropWhile_idempotent _ _
  rcases h with h | h
  · have hstart : condition.dropWhile Text.isBlank = condition := by
      rw [← htrim, Text.trim, Text.dropWhile_trimEnd (List.dropWhile_idempotent _ _)]
    cases condition with
    | nil => cases h
    | cons d ds =>
        obtain rfl := Option.some.inj h
        simpa using List.dropWhile_eq_self_iff.mp hstart
  · have hne : condition ≠ [] := by
      rintro rfl
      cases h
    rw [List.getLast?_eq_getLast_of_ne_nil hne] at h
    obtain rfl := Option.some.inj h
    simpa using List.rdropWhile_eq_self_iff.mp hend hne

theorem isFaithful_rule {r : Css.Rule} (hr : ∀ place, r ≠ .unfinished place)
    (hmedia : makesMedia r = false) : IsFaithful (.rule r) where
  finished := hr
  isMedia_iff := by
    refine ⟨nofun, ?_⟩
    rintro ⟨keyword, prelude, content, heq, hkeyword⟩
    obtain rfl : r = _ := heq
    exact absurd hmedia (by simp [makesMedia, isMediaKeyword, hkeyword])
  trimmed := nofun

theorem isFaithful_media {keyword : List Char} (prelude : List Css.Token)
    (content : Option (List Css.Token)) (children : List Node)
    (hmedia : isMediaKeyword keyword = true) :
    IsFaithful (.media (conditionOf prelude) children (.atRule keyword prelude content)) where
  finished := nofun
  isMedia_iff := ⟨fun _ => ⟨keyword, prelude, content, rfl, beq_iff_eq.mp hmedia⟩, fun _ => rfl⟩
  trimmed := by
    rintro _ _ _ ⟨⟩ c hc
    exact isBlank_of_conditionOf hc

private theorem forall_reaches_cons (hm : m.IsFaithful)
    (hchildren : ∀ n, Reaches m.children n → n.IsFaithful)
    (hnodes : ∀ n, Reaches nodes n → n.IsFaithful) :
    ∀ n, Reaches (m :: nodes) n → n.IsFaithful := by
  intro n h
  cases h with
  | here hmem =>
      rcases List.mem_cons.mp hmem with rfl | hmem
      · exact hm
      · exact hnodes n (.here hmem)
  | inside houter h =>
      rcases List.mem_cons.mp houter with rfl | houter
      · exact hchildren n h
      · exact hnodes n (.inside houter h)

private theorem not_reaches_nil : ¬Reaches [] n := by
  rintro (hmem | ⟨hmem, -⟩) <;> exact List.not_mem_nil hmem

/-- By the recursion of the reading: the nodes inside a media block are those of its content. -/
theorem isFaithful_of_ofRules (h : ofRules rules = .ok nodes) :
    ∀ n, Reaches nodes n → n.IsFaithful := by
  have hleaf {n : Node} (hn : n.children = []) : ∀ m, Reaches n.children m → m.IsFaithful := by
    intro m hm
    rw [hn] at hm
    exact absurd hm not_reaches_nil
  fun_induction ofRules rules generalizing nodes with
  | case1 =>
      obtain rfl := Except.ok.inj h
      exact fun n hn => absurd hn not_reaches_nil
  | case2 => cases h
  | case3 keyword prelude rest ih =>
      obtain ⟨following, hfollowing, h⟩ := bind_eq_ok.mp h
      split at h
      · rename_i hmedia
        obtain rfl := Except.ok.inj h
        exact forall_reaches_cons (isFaithful_media prelude none [] hmedia) (hleaf rfl)
          (ih hfollowing)
      · rename_i hmedia
        obtain rfl := Except.ok.inj h
        exact forall_reaches_cons (isFaithful_rule (by simp) (Bool.not_eq_true _ ▸ hmedia)) (hleaf rfl)
          (ih hfollowing)
  | case4 keyword prelude content rest hmedia ihinside ih =>
      obtain ⟨children, hchildren, h⟩ := bind_eq_ok.mp h
      obtain ⟨following, hfollowing, h⟩ := bind_eq_ok.mp h
      obtain rfl := Except.ok.inj h
      exact forall_reaches_cons (isFaithful_media prelude _ children hmedia) (ihinside hchildren)
        (ih hfollowing)
  | case5 keyword prelude content rest hmedia ih =>
      obtain ⟨following, hfollowing, h⟩ := bind_eq_ok.mp h
      obtain rfl := Except.ok.inj h
      exact forall_reaches_cons (isFaithful_rule (by simp) (Bool.not_eq_true _ ▸ hmedia)) (hleaf rfl)
        (ih hfollowing)
  | case6 text rest ih | case7 text rest ih | case8 prelude content rest ih =>
      obtain ⟨following, hfollowing, h⟩ := bind_eq_ok.mp h
      obtain rfl := Except.ok.inj h
      exact forall_reaches_cons (isFaithful_rule (by simp) rfl) (hleaf rfl) (ih hfollowing)

end Faithful

end Node

namespace Stylesheet

/-- The rule lists that are looked at in a text. A text with an integer that is too long is not
cut into rules at all. -/
def Visits (source : String) (visited : List Css.Rule) : Prop :=
  ∃ tokens, tokensOf (Css.normalize source.toList) = .ok tokens ∧
    Node.Visits (Css.Rule.ofTokens .top tokens) visited

/-- What the reading of a text finds out about the rules in it. -/
structure IsChecked (path source : String) : Prop where
  malformed_iff : (∃ e, parse path source = .error (.malformed e)) ↔
    ∃ visited place, Visits source visited ∧ .unfinished place ∈ visited
  /-- No other unfinished rule stands before the one that is reported. -/
  first : ∀ e, parse path source = .error (.malformed e) →
    ∃ visited place position, Visits source visited ∧ .unfinished place ∈ visited ∧
      position = place.position (Css.normalize source.toList) ∧
      e = ⟨unfinishedRule, some position.line, some position.column, path⟩ ∧
      ∀ others other, Visits source others → .unfinished other ∈ others →
        position.IsUpTo (other.position (Css.normalize source.toList))
  faithful : ∀ sheet, parse path source = .ok sheet →
    ∀ n, Node.Reaches sheet.nodes n → n.IsFaithful

section Parse

variable {path source : String}

theorem visits_iff {tokens : List Css.Token} {visited : List Css.Rule}
    (h : tokensOf (Css.normalize source.toList) = .ok tokens) :
    Visits source visited ↔ Node.Visits (Css.Rule.ofTokens .top tokens) visited := by
  constructor
  · rintro ⟨tokens', htokens, hvisits⟩
    obtain rfl := Except.ok.inj (h.symm.trans htokens)
    exact hvisits
  · exact fun hvisits => ⟨tokens, h, hvisits⟩

/-- Every text is checked, whatever stands in it. -/
theorem checked_of_parse (path source : String) : IsChecked path source := by
  obtain ⟨digits, htokens, hparse⟩ | ⟨tokens, place, position, htokens, hplace, hposition, hparse⟩ |
    ⟨tokens, nodes, htokens, hnodes, hparse⟩ := parse_cases path source
  · refine ⟨⟨?_, ?_⟩, fun e he => ?_, fun sheet hsheet => ?_⟩
    · rintro ⟨e, he⟩
      exact nomatch hparse.symm.trans he
    · rintro ⟨_, _, ⟨tokens, hok, -⟩, -⟩
      exact nomatch htokens.symm.trans hok
    · exact nomatch hparse.symm.trans he
    · exact nomatch hparse.symm.trans hsheet
  · have hfirst : Node.IsFirstUnfinished (Css.Rule.ofTokens .top tokens) place := by
      refine Node.isFirstUnfinished_of_ofRules hplace ?_
      rw [eq_of_tokensOf htokens]
      exact Css.Rule.pairwise_places .top _
    obtain ⟨visited, hvisits, hmem⟩ := hfirst.unfinished
    rw [← visits_iff htokens] at hvisits
    refine ⟨⟨fun _ => ⟨visited, place, hvisits, hmem⟩, fun _ => ⟨_, hparse⟩⟩, fun e he => ?_,
      fun sheet hsheet => nomatch hparse.symm.trans hsheet⟩
    obtain rfl := ParseFault.malformed.inj (Except.error.inj (he.symm.trans hparse))
    refine ⟨visited, place, position, hvisits, hmem, hposition, rfl, ?_⟩
    intro others other hothers hother
    rw [visits_iff htokens] at hothers
    rw [hposition]
    rcases hfirst.first other ⟨others, hothers, hother⟩ with rfl | hbefore
    · exact .refl _
    · exact hbefore.position _
  · have haccepted := (Node.accepted_of_ofRules hnodes).1
    refine ⟨⟨?_, ?_⟩, fun e he => (nomatch hparse.symm.trans he), fun sheet hsheet => ?_⟩
    · rintro ⟨e, he⟩
      exact nomatch hparse.symm.trans he
    · rintro ⟨visited, place, hvisits, hmem⟩
      rw [visits_iff htokens] at hvisits
      exact absurd ⟨visited, hvisits, hmem⟩ (haccepted.not_isUnfinishedAt place)
    · obtain rfl := Except.ok.inj (hparse.symm.trans hsheet)
      exact Node.isFaithful_of_ofRules hnodes

end Parse

end Stylesheet

end MediaSplit
