import Mathlib.Data.List.Basic
import MediaSplit.Partition

/-!
What the nodes of a stripped file are. They are the nodes that match neither set of widths, in
order, and after them the nodes promoted out of the blocks that are taken apart. Promotion goes
one level down and is not followed by another look at the conditions, so a block that was nested
in a block taken apart may match. This is the only way in which a matching block is left, and it
decides whether stripping a second time changes anything.
-/

namespace MediaSplit.Node

variable (widths unwrap : List String) (nodes : List Node)

/-- Whether a node is a block for neither of two sets of widths. -/
def isUntouched (n : Node) : Bool :=
  !n.isMatching widths && !n.isMatching unwrap

def promoted : List Node :=
  (matching unwrap (unmatched widths nodes)).flatMap children

theorem isUntouched_iff (n : Node) :
    isUntouched widths unwrap n = true ↔
      n.isMatching widths = false ∧ n.isMatching unwrap = false := by
  simp [isUntouched]

theorem isMatching_nil (n : Node) : n.isMatching [] = false := by
  cases n <;> rfl

theorem unmatched_unmatched :
    unmatched unwrap (unmatched widths nodes) = nodes.filter (isUntouched widths unwrap) := by
  simp only [unmatched, List.filter_filter]
  congr 1
  funext n
  exact Bool.and_comm _ _

theorem matching_unmatched :
    matching unwrap (unmatched widths nodes) =
      nodes.filter fun n => !n.isMatching widths && n.isMatching unwrap := by
  simp only [matching, unmatched, List.filter_filter]
  congr 1
  funext n
  exact Bool.and_comm _ _

/-- The shortcut without widths to unwrap and the general way agree. -/
theorem stripped_eq_append :
    stripped widths unwrap nodes =
      nodes.filter (isUntouched widths unwrap) ++ promoted widths unwrap nodes := by
  unfold stripped
  cases unwrap with
  | nil =>
      have hpromoted : promoted widths [] nodes = [] := by
        simp [promoted, matching, isMatching_nil]
      have hkept : isUntouched widths [] = fun n : Node => !n.isMatching widths := by
        funext n
        simp [isUntouched, isMatching_nil]
      simp [hpromoted, hkept, unmatched]
  | cons width rest =>
      simp only [List.isEmpty_cons, Bool.false_eq_true, if_false]
      rw [unmatchedUnwrapped, unmatched_unmatched]
      rfl

mutual

def size : Node → Nat
  | .rule _ => 1
  | .media _ inside _ => 1 + sizes inside

def sizes : List Node → Nat
  | [] => 0
  | n :: ns => n.size + sizes ns

end

private theorem size_pos (n : Node) : 0 < n.size := by
  cases n <;> simp only [size] <;> omega

private theorem sizes_append (left right : List Node) :
    sizes (left ++ right) = sizes left + sizes right := by
  induction left with
  | nil => simp [sizes]
  | cons n ns ih => simp only [List.cons_append, sizes, ih]; omega

private theorem sizes_children_lt (n : Node) : sizes n.children < n.size := by
  cases n <;> simp only [children, size, sizes] <;> omega

private theorem sizes_flatMap_children_le (ns : List Node) :
    sizes (ns.flatMap children) + ns.length ≤ sizes ns := by
  induction ns with
  | nil => simp [sizes]
  | cons n ns ih =>
      have hn := sizes_children_lt n
      rw [List.flatMap_cons, sizes_append, sizes, List.length_cons]
      omega

private theorem sizes_filter_add_filter_not (p : Node → Bool) (ns : List Node) :
    sizes (ns.filter p) + sizes (ns.filter fun n => !p n) = sizes ns := by
  induction ns with
  | nil => rfl
  | cons n ns ih =>
      cases h : p n <;> simp only [List.filter_cons, h, sizes, Bool.not_true, Bool.not_false,
        Bool.false_eq_true, if_true, if_false] <;> omega

private theorem sizes_le_of_sublist {left right : List Node} (h : left.Sublist right) :
    sizes left ≤ sizes right := by
  induction h with
  | slnil => exact Nat.le_refl _
  | cons n _ ih => simp only [sizes]; omega
  | cons_cons n _ ih => simp only [sizes]; omega

private theorem eq_nil_of_sizes_eq_zero {ns : List Node} (h : sizes ns = 0) : ns = [] := by
  cases ns with
  | nil => rfl
  | cons n ns =>
      have hn := size_pos n
      simp only [sizes] at h
      omega

/-- A row that stripping does not change has no matching block. Otherwise the blocks that are
dropped would have to come back as children of some of them, which are smaller. -/
theorem isUntouched_of_stripped_eq_self (h : stripped widths unwrap nodes = nodes) :
    ∀ n ∈ nodes, isUntouched widths unwrap n = true := by
  rw [stripped_eq_append] at h
  have hsplit := sizes_filter_add_filter_not (isUntouched widths unwrap) nodes
  have hsame : sizes (nodes.filter fun n => !isUntouched widths unwrap n) =
      sizes (promoted widths unwrap nodes) := by
    have hsizes := congrArg sizes h
    rw [sizes_append] at hsizes
    omega
  have hapart := sizes_flatMap_children_le (matching unwrap (unmatched widths nodes))
  have hless : sizes (matching unwrap (unmatched widths nodes)) ≤
      sizes (nodes.filter fun n => !isUntouched widths unwrap n) := by
    rw [matching_unmatched]
    apply sizes_le_of_sublist
    apply List.monotone_filter_right
    intro n hn
    simp only [Bool.and_eq_true] at hn
    simp [isUntouched, hn.2]
  have hnone : matching unwrap (unmatched widths nodes) = [] := by
    apply List.eq_nil_of_length_eq_zero
    unfold promoted at hsame
    omega
  have hdropped : (nodes.filter fun n => !isUntouched widths unwrap n) = [] := by
    apply eq_nil_of_sizes_eq_zero
    rw [hsame, promoted, hnone]
    rfl
  intro n hn
  have hkept := List.filter_eq_nil_iff.mp hdropped n hn
  simpa using hkept

theorem stripped_eq_self_of_isUntouched
    (h : ∀ n ∈ nodes, isUntouched widths unwrap n = true) :
    stripped widths unwrap nodes = nodes := by
  have hnone : matching unwrap (unmatched widths nodes) = [] := by
    rw [matching_unmatched, List.filter_eq_nil_iff]
    intro n hn
    have hu := h n hn
    simp only [isUntouched, Bool.and_eq_true, Bool.not_eq_true'] at hu
    simp [hu.2]
  rw [stripped_eq_append, promoted, hnone, List.filter_eq_self.mpr h]
  simp

theorem isUntouched_stripped_iff :
    (∀ n ∈ stripped widths unwrap nodes, isUntouched widths unwrap n = true) ↔
      ∀ n ∈ promoted widths unwrap nodes, isUntouched widths unwrap n = true := by
  rw [stripped_eq_append]
  constructor
  · intro h n hn
    exact h n (List.mem_append_right _ hn)
  · intro h n hn
    rcases List.mem_append.mp hn with hkept | hpromoted
    · exact (List.mem_filter.mp hkept).2
    · exact h n hpromoted

/-- Where matching blocks are left. The nodes of a stripped file are the ones that match neither
set, followed by the promoted ones, and only these can match. It depends on them alone whether a
matching block is left at the top level, and whether stripping once more changes the nodes. -/
theorem matching_left_only_by_promotion :
    stripped widths unwrap nodes =
        nodes.filter (isUntouched widths unwrap) ++ promoted widths unwrap nodes ∧
      (∀ n ∈ nodes.filter (isUntouched widths unwrap),
        n.isMatching widths = false ∧ n.isMatching unwrap = false) ∧
      ((∀ n ∈ stripped widths unwrap nodes,
          n.isMatching widths = false ∧ n.isMatching unwrap = false) ↔
        ∀ n ∈ promoted widths unwrap nodes,
          n.isMatching widths = false ∧ n.isMatching unwrap = false) ∧
      (stripped widths unwrap (stripped widths unwrap nodes) = stripped widths unwrap nodes ↔
        ∀ n ∈ promoted widths unwrap nodes,
          n.isMatching widths = false ∧ n.isMatching unwrap = false) := by
  have hleft := isUntouched_stripped_iff widths unwrap nodes
  have hfixed : stripped widths unwrap (stripped widths unwrap nodes) =
      stripped widths unwrap nodes ↔
        ∀ n ∈ stripped widths unwrap nodes, isUntouched widths unwrap n = true :=
    ⟨isUntouched_of_stripped_eq_self widths unwrap _, stripped_eq_self_of_isUntouched widths unwrap _⟩
  simp only [isUntouched_iff] at hleft hfixed
  refine ⟨stripped_eq_append widths unwrap nodes, ?_, hleft, hfixed.trans hleft⟩
  intro n hn
  exact (isUntouched_iff widths unwrap n).mp (List.mem_filter.mp hn).2

/-- Blocks nested in a block that is taken apart come to the top level whatever their conditions
are. -/
theorem nested_match_is_left :
    ∃ sheet : Stylesheet,
      Stylesheet.parse "" "@media (width:8px){@media (width:4px){a{}}@media (width:8px){b{}}}" =
        .ok sheet ∧
      (∃ n ∈ stripped ["4"] ["8"] sheet.nodes, n.isMatching ["4"] = true) ∧
      (∃ n ∈ stripped ["4"] ["8"] sheet.nodes, n.isMatching ["8"] = true) ∧
      stripped ["4"] ["8"] (stripped ["4"] ["8"] sheet.nodes) ≠ stripped ["4"] ["8"] sheet.nodes := by
  have hleft : (Stylesheet.parse ""
        "@media (width:8px){@media (width:4px){a{}}@media (width:8px){b{}}}").toOption.any
      (fun sheet => (stripped ["4"] ["8"] sheet.nodes).any (isMatching ["4"]) &&
        (stripped ["4"] ["8"] sheet.nodes).any (isMatching ["8"])) = true := by decide +kernel
  cases hparse : Stylesheet.parse ""
      "@media (width:8px){@media (width:4px){a{}}@media (width:8px){b{}}}" with
  | error fault => simp [hparse, Except.toOption] at hleft
  | ok sheet =>
      simp only [hparse, Except.toOption, Option.any_some, Bool.and_eq_true, List.any_eq_true]
        at hleft
      obtain ⟨⟨n, hn, hmatch⟩, hother⟩ := hleft
      refine ⟨sheet, rfl, ⟨n, hn, hmatch⟩, hother, ?_⟩
      intro hsame
      have hu := isUntouched_of_stripped_eq_self ["4"] ["8"] _ hsame n hn
      simp [isUntouched, hmatch] at hu

end MediaSplit.Node
