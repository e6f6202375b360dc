import MediaSplit.Proofs.Combining
import MediaSplit.Proofs.Conservation
import MediaSplit.Proofs.Unfinished

/-!
The text of a style sheet, node by node. Nothing is written between two nodes, wherever they were
read and whichever of them stands first, so each node of a style sheet has a stretch of the text to
itself. The first phase of a run takes the stretches of the matching blocks out of the text, and the
second phase writes what is left of it.
-/

namespace MediaSplit

/-- A stretch of a text: it begins at the place `first` and ends before the place `next`. A place
is the number of characters before it. -/
structure Stretch where
  first : Nat
  next : Nat
  deriving DecidableEq, Repr

namespace Stretch

def covers (place : Nat) (s : Stretch) : Bool :=
  s.first ≤ place && place < s.next

def read (s : Stretch) (text : String) : String :=
  String.ofList (text.toList.extract s.first s.next)

def cutOut (stretches : List Stretch) (text : String) : String :=
  String.ofList ((text.toList.zipIdx.filter fun c => !stretches.any (covers c.2)).map Prod.fst)

end Stretch

namespace Node

structure Placed where
  node : Node
  stretch : Stretch

/-- Where nodes are written one behind the other, the first of them at the place `start`. -/
def layOut (start : Nat) : List Node → List Placed
  | [] => []
  | n :: ns =>
      let next := start + (write [n]).length
      ⟨n, ⟨start, next⟩⟩ :: layOut next ns

def placed (p : Node → Bool) (start : Nat) (nodes : List Node) : List Placed :=
  (layOut start nodes).filter fun n => p n.node

section Writing

variable (n : Node) (nodes ns : List Node)

theorem write_singleton : write [n] = String.ofList n.source.text := by
  rw [write_eq_ofList, List.flatMap_singleton]

theorem write_append : write (nodes ++ ns) = write nodes ++ write ns := by
  rw [write_eq_ofList, write_eq_ofList, write_eq_ofList, List.flatMap_append, String.ofList_append]

theorem write_cons : write (n :: ns) = write [n] ++ write ns :=
  write_append [n] ns

theorem write_flatMap {α : Type} (inside : α → List Node) (as : List α) :
    write (as.flatMap inside) = String.join (as.map fun a => write (inside a)) := by
  induction as with
  | nil => rfl
  | cons a as ih => rw [List.flatMap_cons, write_append, ih, List.map_cons, String.join_cons]

theorem write_eq_join : write nodes = String.join (nodes.map fun n => write [n]) := by
  rw [← write_flatMap, List.flatMap_singleton']

end Writing

section Places

variable {p : Node → Bool} {start place : Nat} {m : Placed} {n : Node} {nodes ns : List Node}

theorem map_node_layOut (start : Nat) (nodes : List Node) :
    (layOut start nodes).map Placed.node = nodes := by
  induction nodes generalizing start with
  | nil => rfl
  | cons n ns ih => rw [layOut, List.map_cons, ih]

theorem map_node_placed (p : Node → Bool) (start : Nat) (nodes : List Node) :
    (placed p start nodes).map Placed.node = nodes.filter p := by
  conv_rhs => rw [← map_node_layOut start nodes, List.filter_map]
  rfl

theorem le_of_mem_layOut (h : m ∈ layOut start nodes) : start ≤ m.stretch.first := by
  induction nodes generalizing start with
  | nil => exact absurd h List.not_mem_nil
  | cons n ns ih =>
      rcases List.mem_cons.mp h with rfl | h
      · exact Nat.le_refl start
      · exact Nat.le_trans (Nat.le_add_right _ _) (ih h)

/-- Each node is found in its stretch, whatever stands before the first of them. -/
theorem extract_of_mem_layOut {before : List Char} (h : m ∈ layOut before.length nodes) :
    (before ++ (write nodes).toList).extract m.stretch.first m.stretch.next =
      (write [m.node]).toList := by
  induction nodes generalizing before with
  | nil => exact absurd h List.not_mem_nil
  | cons n ns ih =>
      rw [write_cons, String.toList_append]
      rcases List.mem_cons.mp h with rfl | h
      · rw [List.extract_eq_take_drop, List.drop_left, Nat.add_sub_cancel_left,
          ← String.length_toList, List.take_left]
      · rw [← List.append_assoc]
        apply ih
        rwa [List.length_append, String.length_toList]

theorem read_of_mem_layOut (h : m ∈ layOut 0 nodes) :
    m.stretch.read (write nodes) = write [m.node] := by
  have hextract : ([] ++ (write nodes).toList).extract m.stretch.first m.stretch.next =
      (write [m.node]).toList := extract_of_mem_layOut h
  rw [Stretch.read, ← List.nil_append (write nodes).toList, hextract, String.ofList_toList]

/-- The stretches of the nodes that meet a condition are, in order, what is written for them. -/
theorem join_read_placed (p : Node → Bool) (nodes : List Node) :
    String.join ((placed p 0 nodes).map fun m => m.stretch.read (write nodes)) =
      write (nodes.filter p) := by
  rw [← map_node_placed p 0, write_eq_join (List.map _ _), List.map_map]
  congr 1
  apply List.map_congr_left
  intro m hm
  exact read_of_mem_layOut (List.mem_filter.mp hm).1

/-- Whether a place is in a stretch of one of the nodes that meet a condition. -/
def isTaken (p : Node → Bool) (start : Nat) (nodes : List Node) (place : Nat) : Bool :=
  ((placed p start nodes).map Placed.stretch).any (Stretch.covers place)

theorem isTaken_cons : isTaken p start (n :: ns) place =
    (p n && Stretch.covers place ⟨start, start + (write [n]).length⟩ ||
      isTaken p (start + (write [n]).length) ns place) := by
  rw [isTaken, placed, layOut, List.filter_cons]
  cases p n with
  | false => rw [if_neg (by decide), Bool.false_and, Bool.false_or]; rfl
  | true => rw [if_pos rfl, List.map_cons, List.any_cons, Bool.true_and]; rfl

theorem isTaken_of_lt (h : place < start) : isTaken p start nodes place = false := by
  simp only [isTaken, List.any_eq_false, List.mem_map]
  rintro _ ⟨m, hm, rfl⟩
  have hfirst := le_of_mem_layOut (List.mem_filter.mp hm).1
  simp only [Stretch.covers, Bool.and_eq_true, decide_eq_true_eq]
  omega

/-- The places of the first node are taken by that node or by none. -/
theorem isTaken_first (hle : start ≤ place) (hlt : place < start + (write [n]).length) :
    isTaken p start (n :: ns) place = p n := by
  have hcovers : Stretch.covers place ⟨start, start + (write [n]).length⟩ = true := by
    simp only [Stretch.covers, Bool.and_eq_true, decide_eq_true_eq]
    exact ⟨hle, hlt⟩
  rw [isTaken_cons, hcovers, isTaken_of_lt hlt, Bool.and_true, Bool.or_false]

/-- The places behind the first node are not taken by it. -/
theorem isTaken_behind (h : start + (write [n]).length ≤ place) :
    isTaken p start (n :: ns) place = isTaken p (start + (write [n]).length) ns place := by
  have hcovers : Stretch.covers place ⟨start, start + (write [n]).length⟩ = false := by
    simp only [Stretch.covers, Bool.and_eq_false_iff, decide_eq_false_iff_not, Nat.not_lt]
    exact .inr h
  rw [isTaken_cons, hcovers, Bool.and_false, Bool.false_or]

/-- Without the characters of the nodes that meet a condition, what is written for the others is
left. -/
theorem filter_zipIdx_write (p : Node → Bool) (start : Nat) (nodes : List Node) :
    (((write nodes).toList.zipIdx start).filter fun c => !isTaken p start nodes c.2).map Prod.fst =
      (write (nodes.filter fun n => !p n)).toList := by
  -- Places are those of the whole text, so the text of the nodes may begin at any of them.
  induction nodes generalizing start with
  | nil => rfl
  | cons n ns ih =>
      have hlength : (write [n]).toList.length = (write [n]).length := String.length_toList
      have hfirst : ∀ c ∈ (write [n]).toList.zipIdx start,
          (!isTaken p start (n :: ns) c.2) = !p n := by
        intro c hc
        obtain ⟨hle, hlt, -⟩ := List.mem_zipIdx hc
        rw [isTaken_first hle (hlength ▸ hlt)]
      have hbehind : ∀ c ∈ (write ns).toList.zipIdx (start + (write [n]).length),
          (!isTaken p start (n :: ns) c.2) =
            !isTaken p (start + (write [n]).length) ns c.2 := by
        intro c hc
        rw [isTaken_behind (List.mem_zipIdx hc).1]
      rw [write_cons, String.toList_append, List.zipIdx_append, hlength, List.filter_append,
        List.map_append, List.filter_congr hfirst, List.filter_congr hbehind, ih, List.filter_cons]
      cases p n with
      | false =>
          rw [if_pos (by decide), write_cons n (ns.filter _), String.toList_append]
          simp
      | true => simp

/-- What is left of the text of all nodes is what is written for those that do not meet the
condition. -/
theorem cutOut_placed (p : Node → Bool) (nodes : List Node) :
    Stretch.cutOut ((placed p 0 nodes).map Placed.stretch) (write nodes) =
      write (nodes.filter fun n => !p n) := by
  have hleft := filter_zipIdx_write p 0 nodes
  apply String.toList_inj.mp
  rw [← hleft, Stretch.cutOut, String.toList_ofList]
  rfl

end Places

/-- Nodes that are written one after the other. None of them stands for an unfinished rule, which
has no written form, and nothing comes between any two of them, in either order. -/
structure AreWrittenInTurn (nodes : List Node) : Prop where
  finished : ∀ n ∈ nodes, ∀ place, n.source ≠ .unfinished place
  apart : ∀ m ∈ nodes, ∀ n ∈ nodes,
    Css.Piece.separator ⟨m.source.kind, m.source.text⟩ ⟨n.source.kind, n.source.text⟩ = []
  alone : ∀ n ∈ nodes, write [n] = String.ofList n.source.text
  text : write nodes = String.join (nodes.map fun n => write [n])

end Node

namespace Splitter

open Node

/-- What the phases of a run make of a style sheet, as parts of the text of all its nodes. Blocks
for the widths to unwrap are cut out as well, and what is inside them is written at the end. -/
structure IsCutFrom (s : Splitter) (sheet : Stylesheet) : Prop where
  nodes : (layOut 0 sheet.nodes).map Placed.node = sheet.nodes
  stretch : ∀ m ∈ layOut 0 sheet.nodes, m.stretch.read sheet.write = write [m.node]
  combined : (s.pieceOf .extract sheet).text =
    String.join ((placed (isMatching s.configuration.widths.tokens) 0 sheet.nodes).map fun m =>
      m.stretch.read sheet.write)
  stripped : s.configuration.extract.tokens = [] → (s.pieceOf .strip sheet).text =
    Stretch.cutOut ((placed (isMatching s.configuration.widths.tokens) 0 sheet.nodes).map
      Placed.stretch) sheet.write
  unwrapped : (s.pieceOf .strip sheet).text =
    Stretch.cutOut ((placed (fun n => !isUntouched s.configuration.widths.tokens
      s.configuration.extract.tokens n) 0 sheet.nodes).map Placed.stretch) sheet.write ++
    String.join ((sheet.nodes.filter (isTakenApart s.configuration.widths.tokens
      s.configuration.extract.tokens)).map fun n => write n.children)

theorem isCutFrom (s : Splitter) (sheet : Stylesheet) : s.IsCutFrom sheet where
  nodes := map_node_layOut 0 sheet.nodes
  stretch _ hm := read_of_mem_layOut hm
  combined := (join_read_placed _ sheet.nodes).symm
  stripped hnone := by
    rw [Stylesheet.write, cutOut_placed]
    simp only [pieceOf, nodesFor, hnone, Node.stripped]
    rfl
  unwrapped := by
    rw [Stylesheet.write, cutOut_placed]
    simp only [pieceOf, nodesFor, stripped_eq_append, write_append, Bool.not_not, promoted,
      matching_unmatched, write_flatMap]
    rfl

/-- Nodes of accepted texts, from any depth, are written one after the other. So what a run makes
of each text are parts of what is written for all its nodes, and the blocks of one text after the
other, each in its place, are the combined file. -/
theorem written_in_turn (s : Splitter) {texts : List String} {sources : List (String × Stylesheet)}
    (hparse : List.Forall₂ (fun text source => Stylesheet.parse source.1 text = .ok source.2)
      texts sources) {nodes : List Node}
    (hnodes : ∀ n ∈ nodes, ∃ source ∈ sources, Reaches source.2.nodes n) :
    AreWrittenInTurn nodes ∧
      (∀ source ∈ sources, s.IsCutFrom source.2) ∧
      combinedText (sources.map fun source => (source.1, s.pieceOf .extract source.2)) =
        "\n".intercalate (sources.map fun source => String.join
          ((placed (isMatching s.configuration.widths.tokens) 0 source.2.nodes).map fun m =>
            m.stretch.read source.2.write)) := by
  have hfinished : ∀ n ∈ nodes, ∀ place, n.source ≠ .unfinished place := by
    intro n hn
    obtain ⟨source, hsource, hreaches⟩ := hnodes n hn
    obtain ⟨text, -, htext⟩ := exists_of_mem_right hparse hsource
    obtain ⟨-, hread, -⟩ := Stylesheet.parse_eq_ok_iff.mp htext
    exact (isFaithful_of_ofRules hread n hreaches).finished
  refine ⟨?_, fun source _ => isCutFrom s source.2, ?_⟩
  · exact ⟨hfinished, fun _ _ _ _ => Css.Rule.separator_rules_eq_nil _ _,
      fun n _ => write_singleton n, write_eq_join nodes⟩
  · rw [combinedText, List.map_map]
    congr 1
    apply List.map_congr_left
    intro source _
    exact (isCutFrom s source.2).combined

/-- The same splitter, but that it takes the blocks for a width apart. -/
def unwrapping (s : Splitter) (width : String) : Splitter :=
  { s with configuration := { s.configuration with extract := WidthSet.ofList [width] } }

/-- The nodes of the second text, and behind them those inside the blocks of the first one. Both
texts end early, in a comment and inside a block. -/
theorem written_in_turn_mixed :
    ∃ first second : Stylesheet,
      Stylesheet.parse "a.css"
        "p\x7b\x7d@media (width:8px)\x7bq\x7b\x7d\x7d@media (width:4px)\x7b r\x7b\x7d\x7d/*s" =
          .ok first ∧
      Stylesheet.parse "b.css" "<!--@media (width:8px)\x7bt\x7bu:1" = .ok second ∧
      write (second.nodes ++ first.nodes.flatMap children) =
        "@media (width:8px)\x7bt\x7bu:1\x7d\x7dq\x7b\x7d r\x7b\x7d" ∧
      (((forWidth "8").unwrapping "4").pieceOf .strip first).text = "p\x7b\x7d/*s*/ r\x7b\x7d" ∧
      combinedText ([("a.css", first), ("b.css", second)].map fun source =>
        (source.1, ((forWidth "8").unwrapping "4").pieceOf .extract source.2)) =
          "@media (width:8px)\x7bq\x7b\x7d\x7d\n@media (width:8px)\x7bt\x7bu:1\x7d\x7d" := by
  have hsheets : (Stylesheet.parse "a.css"
      "p\x7b\x7d@media (width:8px)\x7bq\x7b\x7d\x7d@media (width:4px)\x7b r\x7b\x7d\x7d/*s"
      ).toOption.any (fun first => (Stylesheet.parse "b.css"
        "<!--@media (width:8px)\x7bt\x7bu:1").toOption.any fun second =>
      String.join ((second.nodes ++ first.nodes.flatMap children).map fun n => write [n]) ==
        "@media (width:8px)\x7bt\x7bu:1\x7d\x7dq\x7b\x7d r\x7b\x7d" &&
      Stretch.cutOut ((placed (fun n => !isUntouched ["8"] ["4"] n) 0 first.nodes).map
          Placed.stretch) first.write ++
        String.join ((first.nodes.filter (isTakenApart ["8"] ["4"])).map fun n =>
          write n.children) == "p\x7b\x7d/*s*/ r\x7b\x7d" &&
      "\n".intercalate ([first, second].map fun sheet => String.join
        ((placed (isMatching ["8"]) 0 sheet.nodes).map fun m => m.stretch.read sheet.write)) ==
          "@media (width:8px)\x7bq\x7b\x7d\x7d\n@media (width:8px)\x7bt\x7bu:1\x7d\x7d") =
        true := by
    decide +kernel
  simp only [Option.any_eq_true, Bool.and_eq_true, beq_iff_eq] at hsheets
  obtain ⟨first, hfirst, second, hsecond, ⟨hjoined, hleft⟩, htaken⟩ := hsheets
  have hparse : List.Forall₂ (fun text source => Stylesheet.parse source.1 text = .ok source.2) _
      [("a.css", first), ("b.css", second)] :=
    .cons (eq_ok_of_toOption hfirst) (.cons (eq_ok_of_toOption hsecond) .nil)
  have hnodes : ∀ n ∈ second.nodes ++ first.nodes.flatMap children,
      ∃ source ∈ [("a.css", first), ("b.css", second)], Reaches source.2.nodes n := by
    intro n hn
    rcases List.mem_append.mp hn with hn | hn
    · exact ⟨("b.css", second), by simp, .here hn⟩
    · obtain ⟨outer, houter, hn⟩ := List.mem_flatMap.mp hn
      exact ⟨("a.css", first), by simp, .inside houter (.here hn)⟩
  obtain ⟨hturn, hcut, hcombined⟩ :=
    written_in_turn ((forWidth "8").unwrapping "4") hparse hnodes
  have hwidths : ((forWidth "8").unwrapping "4").configuration.widths.tokens = ["8"] := by
    decide +kernel
  have hunwrap : ((forWidth "8").unwrapping "4").configuration.extract.tokens = ["4"] := by
    decide +kernel
  have hstripped := (hcut ("a.css", first) List.mem_cons_self).unwrapped
  rw [hwidths, hunwrap, hleft] at hstripped
  rw [hwidths] at hcombined
  exact ⟨first, second, eq_ok_of_toOption hfirst, eq_ok_of_toOption hsecond,
    hturn.text.trans hjoined, hstripped, hcombined.trans htaken⟩

end Splitter

end MediaSplit
