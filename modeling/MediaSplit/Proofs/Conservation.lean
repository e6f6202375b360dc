import Mathlib.Data.List.FinRange
import Mathlib.Data.List.Perm.Basic
import MediaSplit.Proofs.Files.CopyNames
import MediaSplit.Proofs.Partition

/-!
What becomes of each node of a style sheet. The positions of the nodes fall into three parts: the
blocks that go to the combined file, the nodes that stay as they are, and the blocks that are taken
apart, of which only the nodes inside them stay. Nothing else happens to a node, so the rules of
both files together are the rules of the style sheet, with the blocks that were taken apart left out
and the nodes inside them counted instead.
-/

namespace MediaSplit.Node

theorem isMatching_iff {widths : List String} {n : Node} :
    n.isMatching widths = true ↔ ∃ condition inside source, n = .media condition inside source ∧
      ∃ width ∈ widths, width.toList ++ ['p', 'x'] <:+: condition.toList := by
  cases n with
  | rule source => simp [isMatching]
  | media condition inside source =>
      simp [isMatching, conditionMatches, List.any_eq_true, Text.occursIn_iff]

/-- A block is a rule, whatever is inside it. -/
theorem isTrivia_of_isMatching {widths : List String} {n : Node} (h : n.isMatching widths = true) :
    n.isTrivia = false := by
  obtain ⟨condition, inside, source, rfl, -⟩ := isMatching_iff.mp h
  rfl

section Positions

variable (p q : Node → Bool) (nodes : List Node)

def positions : List (Fin nodes.length) :=
  (List.finRange nodes.length).filter fun i => p nodes[i]

theorem mem_positions {i : Fin nodes.length} : i ∈ positions p nodes ↔ p nodes[i] = true := by
  simp [positions]

theorem pairwise_positions : (positions p nodes).Pairwise (· < ·) :=
  (List.pairwise_lt_finRange _).filter _

theorem map_get_positions : (positions p nodes).map nodes.get = nodes.filter p := by
  have hall : (List.finRange nodes.length).map nodes.get = nodes := List.map_get_finRange nodes
  have hcomp : (fun i : Fin nodes.length => p nodes[i]) = p ∘ nodes.get := rfl
  rw [positions, hcomp, ← List.filter_map, hall]

theorem positions_perm :
    (positions p nodes ++ positions (fun n => !p n) nodes).Perm (List.finRange nodes.length) :=
  List.filter_append_perm _ _

/-- The positions where a condition holds are those where a second one holds as well, and the
others. -/
theorem positions_and_perm :
    (positions (fun n => p n && !q n) nodes ++ positions (fun n => p n && q n) nodes).Perm
      (positions p nodes) := by
  have hsplit : ∀ r : Node → Bool, positions (fun n => p n && r n) nodes =
      (positions p nodes).filter fun i => r nodes[i] := by
    intro r
    rw [positions, positions, List.filter_filter]
    exact List.filter_congr fun i _ => Bool.and_comm _ _
  rw [hsplit, hsplit]
  exact List.perm_append_comm.trans (List.filter_append_perm _ _)

end Positions

variable (widths unwrap : List String) (nodes : List Node)

/-- Whether a node is a block that is taken apart: one for the widths to unwrap that does not go to
the combined file. -/
def isTakenApart (n : Node) : Bool :=
  !n.isMatching widths && n.isMatching unwrap

theorem promoted_eq_flatMap :
    promoted widths unwrap nodes =
      (positions (isTakenApart widths unwrap) nodes).flatMap fun i => nodes[i].children := by
  have hblocks : matching unwrap (unmatched widths nodes) =
      nodes.filter (isTakenApart widths unwrap) := matching_unmatched widths unwrap nodes
  rw [promoted, hblocks, ← map_get_positions, List.flatMap_map]
  rfl

theorem countRules_append (first second : List Node) :
    countRules (first ++ second) = countRules first + countRules second :=
  List.countP_append

/-- All blocks that match count. -/
theorem countRules_of_isMatching {blocks : List Node}
    (h : ∀ n ∈ blocks, n.isMatching widths = true) : countRules blocks = blocks.length := by
  rw [countRules, List.countP_eq_length]
  intro n hn
  simp [isTrivia_of_isMatching (h n hn)]

theorem countRules_eq_add_filter (p : Node → Bool) :
    countRules nodes = countRules (nodes.filter p) + countRules (nodes.filter fun n => !p n) := by
  rw [← countRules_append]
  exact ((List.filter_append_perm p nodes).countP_eq _).symm

/-- How the nodes of a style sheet are shared out. What goes to the combined file does not depend on
the widths to unwrap, and every position is that of a node which goes there, stays or is taken
apart; what stays keeps its order, and the nodes that were inside blocks follow it in theirs. -/
structure AreSharedOut : Prop where
  matching_iff : ∀ (given : List String) (n : Node), n.isMatching given = true ↔
    ∃ condition inside source, n = .media condition inside source ∧
      ∃ width ∈ given, width.toList ++ ['p', 'x'] <:+: condition.toList
  combined : matching widths nodes = (positions (isMatching widths) nodes).map nodes.get
  left : unmatched widths nodes = (positions (fun n => !n.isMatching widths) nodes).map nodes.get
  once : ∀ i, i ∈ positions (isMatching widths) nodes ↔
    i ∉ positions (fun n => !n.isMatching widths) nodes
  remaining : stripped widths unwrap nodes =
    (positions (isUntouched widths unwrap) nodes).map nodes.get ++
      (positions (isTakenApart widths unwrap) nodes).flatMap fun i => nodes[i].children
  shortcut : stripped widths unwrap nodes = unmatchedUnwrapped widths unwrap nodes
  ascending : ∀ p : Node → Bool, (positions p nodes).Pairwise (· < ·)
  parts : (positions (isMatching widths) nodes ++ (positions (isUntouched widths unwrap) nodes ++
    positions (isTakenApart widths unwrap) nodes)).Perm (List.finRange nodes.length)
  blocks : ∀ i ∈ positions (isTakenApart widths unwrap) nodes, nodes[i].isMedia = true
  count : countRules (matching widths nodes) + countRules (stripped widths unwrap nodes) +
      (positions (isTakenApart widths unwrap) nodes).length =
    countRules nodes + countRules
      ((positions (isTakenApart widths unwrap) nodes).flatMap fun i => nodes[i].children)

theorem stripped_eq_unmatchedUnwrapped :
    stripped widths unwrap nodes = unmatchedUnwrapped widths unwrap nodes := by
  unfold stripped
  split
  · rename_i hnone
    rw [List.isEmpty_iff.mp hnone]
    simp [unmatchedUnwrapped, unmatched, matching, isMatching_nil]
  · rfl

/-- Of the rules that do not go to the combined file, all are left but the blocks that are taken
apart. -/
theorem countRules_unmatched :
    countRules (unmatched widths nodes) =
      countRules (nodes.filter (isUntouched widths unwrap)) +
        (positions (isTakenApart widths unwrap) nodes).length := by
  have hstay : (unmatched widths nodes).filter (fun n => !n.isMatching unwrap) =
      nodes.filter (isUntouched widths unwrap) := unmatched_unmatched widths unwrap nodes
  have hapart : (unmatched widths nodes).filter (isMatching unwrap) =
      nodes.filter (isTakenApart widths unwrap) := matching_unmatched widths unwrap nodes
  have hblocks : countRules ((unmatched widths nodes).filter (isMatching unwrap)) =
      (positions (isTakenApart widths unwrap) nodes).length := by
    rw [countRules_of_isMatching unwrap fun n hn => (List.mem_filter.mp hn).2, hapart,
      ← map_get_positions, List.length_map]
  rw [countRules_eq_add_filter (unmatched widths nodes) (isMatching unwrap), hblocks, hstay,
    Nat.add_comm]

/-- No node is lost, doubled or made up, and no node inside a block that is taken apart. -/
theorem areSharedOut : AreSharedOut widths unwrap nodes := by
  have hstripped := stripped_eq_append widths unwrap nodes
  rw [promoted_eq_flatMap] at hstripped
  constructor
  case matching_iff => exact fun given n => isMatching_iff
  case combined => exact (map_get_positions _ nodes).symm
  case left => exact (map_get_positions _ nodes).symm
  case once =>
    intro i
    rw [mem_positions, mem_positions]
    simp
  case remaining => rw [hstripped, map_get_positions]
  case shortcut => exact stripped_eq_unmatchedUnwrapped widths unwrap nodes
  case ascending => exact fun p => pairwise_positions p nodes
  case parts =>
    have hleft := positions_and_perm (fun n => !n.isMatching widths) (isMatching unwrap) nodes
    exact (hleft.append_left _).trans (positions_perm _ nodes)
  case blocks =>
    intro i hi
    rw [mem_positions, isTakenApart, Bool.and_eq_true] at hi
    obtain ⟨condition, inside, source, hmedia, -⟩ := isMatching_iff.mp hi.2
    rw [hmedia]
    rfl
  case count =>
    have hall : countRules nodes =
        countRules (matching widths nodes) + countRules (unmatched widths nodes) :=
      countRules_eq_add_filter nodes (isMatching widths)
    rw [hstripped, countRules_append, hall, countRules_unmatched widths unwrap nodes]
    omega

end MediaSplit.Node
