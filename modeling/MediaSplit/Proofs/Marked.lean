import MediaSplit.Cache
import MediaSplit.Encoding.HostNames
import MediaSplit.Partition
import MediaSplit.Proofs.Css.Marks
import MediaSplit.Proofs.Css.RuleLists
import MediaSplit.Proofs.Nodes

/-!
Style sheets whose files start with a byte-order mark. UTF-8 keeps the mark, so the text that is
read begins with it, and it takes the first rule with a block for itself, together with all that
stands before that block: media blocks among these are media blocks no longer, and where no rule
has a block the text is no style sheet. All nodes behind that rule are those of the text without
the mark.
-/

namespace MediaSplit

namespace Encoding

section Signature

open Utf8

private theorem ok_cons {ε : Type} {x y : Except ε (List Char)} {c : Char} {text : List Char}
    (hxy : ∀ rest, x = .ok rest → y = .ok rest) (h : (do .ok (c :: (← x))) = Except.ok text) :
    (do .ok (c :: (← y))) = Except.ok text := by
  cases x with
  | error e => exact nomatch h
  | ok rest =>
      rw [hxy rest rfl]
      exact h

/-- Positions only matter where bytes are refused. -/
private theorem decodeFrom_eq_ok {start : Nat} {bytes : List UInt8} {text : List Char}
    (h : decodeFrom start bytes = .ok text) (start' : Nat) :
    decodeFrom start' bytes = .ok text := by
  fun_induction decodeFrom start bytes generalizing start' text with
  | case1 =>
      rw [decodeFrom]
      exact h
  | case2 start b bs hascii ih =>
      rw [decodeFrom, if_pos hascii]
      exact ok_cons (fun _ hrest => ih hrest _) h
  | case3 => exact nomatch h
  | case4 start b bs hascii lead hlead read hall =>
      rename_i ih
      rw [decodeFrom, if_neg hascii, hlead]
      simp only
      rw [if_pos hall]
      exact ok_cons (fun _ hrest => ih hrest _) h
  | case5 => exact nomatch h
  | case6 => exact nomatch h

private theorem utf8_eq_ok [Codecs] {bytes : List UInt8} {text : List Char} :
    (Encoding.utf8 false).decode bytes = .ok text ↔ decodeFrom 0 bytes = .ok text := by
  rw [Encoding.decode, Utf8.decode]
  cases decodeFrom 0 bytes <;> simp [reported]

/-- The signature is read as the mark. -/
theorem decode_signature [Codecs] {bytes : List UInt8} {text : List Char}
    (h : (Encoding.utf8 false).decode bytes = .ok text) :
    (Encoding.utf8 false).decode (signature ++ bytes) = .ok (Css.mark :: text) := by
  rw [utf8_eq_ok] at h ⊢
  have hlead : lead? (0xEF : UInt8).toNat = some ⟨0x0F, 2, 0x80, 0xBF⟩ := rfl
  have hmark : continuation 0x0F 0x80 0xBF 2 ([0xBB, 0xBF] ++ bytes) = (2, 0xFEFF, bytes) := rfl
  change decodeFrom 0 (0xEF :: ([0xBB, 0xBF] ++ bytes)) = _
  rw [decodeFrom, if_neg (by decide), hlead]
  simp only [hmark, if_true]
  rw [decodeFrom_eq_ok h]
  rfl

end Signature

end Encoding

/-- A signature that UTF-8 keeps is a mark in front of the text. -/
theorem TextFile.read_signature [Codecs] {t t' : FileTree} {encoding path : String}
    {bytes : List UInt8} {source : String}
    (hencoding : TextFile.encodingOf encoding = .ok (.utf8 false))
    (hbytes : t.read path = .ok bytes)
    (hsigned : t'.read path = .ok (Encoding.signature ++ bytes))
    (h : TextFile.read t encoding path = .ok source) :
    TextFile.read t' encoding path = .ok (String.ofList (Css.mark :: source.toList)) := by
  unfold TextFile.read at h ⊢
  cases hname : TextFile.checkName encoding with
  | error fault =>
      rw [hname] at h
      exact nomatch h
  | ok =>
      rw [hname, hbytes, hencoding] at h
      rw [hsigned, hencoding]
      change (((Encoding.utf8 false).decode _).mapError Fault.undecodable >>= _) = _ at h ⊢
      cases htext : (Encoding.utf8 false).decode bytes with
      | error fault =>
          rw [htext] at h
          exact nomatch h
      | ok text =>
          rw [htext] at h
          obtain rfl := Except.ok.inj h
          rw [Encoding.decode_signature htext, String.toList_ofList]
          rfl

namespace Node

def hasBlock (n : Node) : Bool :=
  n.source.content?.isSome

section Rules

variable {r : Css.Rule} {rules rules' : List Css.Rule} {nodes : List Node}

/-- Each rule becomes one node, and the others become what they become without it. -/
theorem ofRules_cons (h : ofRules (r :: rules) = .ok nodes) :
    ∃ n following, nodes = n :: following ∧ n.source = r ∧ ofRules rules = .ok following := by
  cases r with
  | unfinished place =>
      rw [ofRules] at h
      cases h
  | whitespace | comment | qualified =>
      rw [ofRules] at h
      obtain ⟨following, hfollowing, h⟩ := bind_eq_ok.mp h
      obtain rfl := Except.ok.inj h
      exact ⟨_, following, rfl, rfl, hfollowing⟩
  | atRule keyword prelude ends =>
      cases ends with
      | none =>
          rw [ofRules] at h
          obtain ⟨following, hfollowing, h⟩ := bind_eq_ok.mp h
          split at h <;> obtain rfl := Except.ok.inj h <;>
            exact ⟨_, following, rfl, rfl, hfollowing⟩
      | some content =>
          rw [ofRules] at h
          split at h
          · obtain ⟨children, -, h⟩ := bind_eq_ok.mp h
            obtain ⟨following, hfollowing, h⟩ := bind_eq_ok.mp h
            obtain rfl := Except.ok.inj h
            exact ⟨_, following, rfl, rfl, hfollowing⟩
          · obtain ⟨following, hfollowing, h⟩ := bind_eq_ok.mp h
            obtain rfl := Except.ok.inj h
            exact ⟨_, following, rfl, rfl, hfollowing⟩

theorem ofRules_append {before after : List Css.Rule} (h : ofRules (before ++ after) = .ok nodes) :
    ∃ earlier later, nodes = earlier ++ later ∧ earlier.map source = before ∧
      ofRules after = .ok later := by
  induction before generalizing nodes with
  | nil => exact ⟨[], nodes, rfl, rfl, h⟩
  | cons r rules ih =>
      obtain ⟨n, following, rfl, hsource, hfollowing⟩ := ofRules_cons h
      obtain ⟨earlier, later, rfl, hearlier, hlater⟩ := ih hfollowing
      exact ⟨n :: earlier, later, rfl, by rw [List.map_cons, hsource, hearlier], hlater⟩

def beforeBlock (nodes : List Node) : List Node :=
  nodes.takeWhile fun n => !n.hasBlock

def fromBlock (nodes : List Node) : List Node :=
  nodes.dropWhile fun n => !n.hasBlock

theorem beforeBlock_append_fromBlock (nodes : List Node) :
    beforeBlock nodes ++ fromBlock nodes = nodes :=
  List.takeWhile_append_dropWhile

theorem fromBlock_eq_nil (h : ∀ n ∈ nodes, n.hasBlock = false) : fromBlock nodes = [] :=
  List.dropWhile_eq_nil_iff.mpr fun n hn => by simp [h n hn]

theorem fromBlock_append {before after : List Node} {first : Node}
    (h : ∀ n ∈ before, n.hasBlock = false) (hfirst : first.hasBlock = true) :
    fromBlock (before ++ first :: after) = first :: after := by
  rw [fromBlock, List.dropWhile_append_of_pos fun n hn => by simp [h n hn]]
  simp [hfirst]

/-- The rule that takes the place of the first one with a block becomes a node that is no media
block. -/
theorem ofRules_firstReplaced (h : ofRules rules = .ok nodes)
    (hreplaced : Css.Rule.FirstReplaced rules rules') :
    (fromBlock nodes = [] ∧ ∃ place, ofRules rules' = .error place) ∨
      ∃ first after prelude content, fromBlock nodes = first :: after ∧
        ofRules rules' = .ok (.rule (.qualified prelude content) :: after) := by
  cases hreplaced with
  | unfinished hblocks place =>
      refine .inl ⟨fromBlock_eq_nil fun n hn => ?_, place, by rw [ofRules]⟩
      have hsource : n.source ∈ rules :=
        map_source_of_stands (accepted_of_ofRules h).2 ▸ List.mem_map_of_mem hn
      rw [hasBlock, hblocks _ hsource]
      rfl
  | @block before r content hbefore hr prelude after =>
      obtain ⟨earlier, later, rfl, rfl, hlater⟩ := ofRules_append h
      obtain ⟨first, following, rfl, rfl, hfollowing⟩ := ofRules_cons hlater
      refine .inr ⟨first, following, prelude, content, fromBlock_append (fun n hn => ?_) ?_, ?_⟩
      · rw [hasBlock, hbefore _ (List.mem_map_of_mem hn)]
        rfl
      · rw [hasBlock, hr]
        rfl
      · rw [ofRules, hfollowing]
        rfl

/-- A media block is never written as nothing. -/
theorem text_ne_nil_of_isMatching {widths : List String} {n : Node} (hstands : Stands r n)
    (h : n.isMatching widths = true) : n.source.text ≠ [] := by
  cases hstands with
  | rule => exact nomatch h
  | media prelude ends children =>
      cases ends <;> exact List.cons_ne_nil _ _

end Rules

end Node

namespace Stylesheet

/-- What becomes of a style sheet when a mark stands in front of its text. -/
structure IsMarked (sheet : Stylesheet) (marked : Except Fault Stylesheet) : Prop where
  /-- If no rule has a block, the text is no style sheet. -/
  unfinished : Node.fromBlock sheet.nodes = [] → ∃ e, marked = .error (.parse (.malformed e))
  /-- The first rule with a block takes all rules before it and is no media block. -/
  replaced : ∀ first after, Node.fromBlock sheet.nodes = first :: after →
    ∃ prelude content,
      marked = .ok ⟨.rule (.qualified prelude content) :: after, sheet.path⟩
  /-- The same goes to the combined file only if there is such a rule and neither it nor one of
  those before it goes there. -/
  unchanged_iff : ∀ widths, (∃ after, marked = .ok after ∧
      Node.write (Node.matching widths after.nodes) =
        Node.write (Node.matching widths sheet.nodes)) ↔
    ∃ first after, Node.fromBlock sheet.nodes = first :: after ∧
      ∀ n ∈ Node.beforeBlock sheet.nodes ++ [first], n.isMatching widths = false

section IsMarked

variable {sheet : Stylesheet} {marked : Except Fault Stylesheet}

private theorem matching_eq_nil {widths : List String} {nodes left : List Node}
    (hstands : ∀ n ∈ nodes, ∃ r, Node.Stands r n)
    (h : Node.write (Node.matching widths left) =
      Node.write (Node.matching widths (nodes ++ left))) :
    ∀ n ∈ nodes, n.isMatching widths = false := by
  rw [Node.write_eq_ofList, Node.write_eq_ofList, Node.matching, Node.matching,
    List.filter_append, List.flatMap_append, String.ofList_inj] at h
  have hnil := List.self_eq_append_left.mp h
  intro n hn
  rw [← Bool.not_eq_true]
  intro hmatching
  obtain ⟨r, hr⟩ := hstands n hn
  exact Node.text_ne_nil_of_isMatching hr hmatching
    (List.flatMap_eq_nil_iff.mp hnil n (List.mem_filter.mpr ⟨hn, hmatching⟩))

/-- What becomes of the nodes decides what goes to the combined file. -/
theorem isMarked_of_nodes (hstands : ∀ n ∈ sheet.nodes, ∃ r, Node.Stands r n)
    (h : (Node.fromBlock sheet.nodes = [] ∧ ∃ e, marked = .error (.parse (.malformed e))) ∨
      ∃ first after prelude content, Node.fromBlock sheet.nodes = first :: after ∧
        marked = .ok ⟨.rule (.qualified prelude content) :: after, sheet.path⟩) :
    sheet.IsMarked marked := by
  rcases h with ⟨hnone, e, rfl⟩ | ⟨first, after, prelude, content, hsome, rfl⟩
  · refine ⟨fun _ => ⟨e, rfl⟩, fun first after h => ?_, fun widths => ⟨?_, ?_⟩⟩
    · exact nomatch hnone.symm.trans h
    · rintro ⟨_, h, -⟩
      exact nomatch h
    · rintro ⟨first, after, h, -⟩
      exact nomatch hnone.symm.trans h
  · have hnodes : Node.beforeBlock sheet.nodes ++ [first] ++ after = sheet.nodes := by
      rw [List.append_assoc, List.singleton_append, ← hsome, Node.beforeBlock_append_fromBlock]
    refine ⟨fun h => ?_, fun first' after' h => ?_, fun widths => ⟨?_, ?_⟩⟩
    · exact nomatch hsome.symm.trans h
    · obtain ⟨-, rfl⟩ := List.cons.inj (hsome.symm.trans h)
      exact ⟨prelude, content, rfl⟩
    · rintro ⟨_, h, hwrite⟩
      obtain rfl := Except.ok.inj h
      refine ⟨first, after, hsome, @matching_eq_nil widths _ after (fun n hn => hstands n ?_) ?_⟩
      · exact hnodes ▸ List.mem_append_left after hn
      · rw [hnodes]
        exact hwrite
    · rintro ⟨first', after', h, hfirst⟩
      obtain ⟨rfl, rfl⟩ := List.cons.inj (hsome.symm.trans h)
      refine ⟨_, rfl, congrArg Node.write ?_⟩
      have hnil : Node.matching widths (Node.beforeBlock sheet.nodes ++ [first]) = [] :=
        List.filter_eq_nil_iff.mpr fun n hn => by simp [hfirst n hn]
      calc Node.matching widths (.rule (.qualified prelude content) :: after)
          = Node.matching widths (Node.beforeBlock sheet.nodes ++ [first]) ++
              Node.matching widths after := by rw [hnil]; rfl
        _ = Node.matching widths sheet.nodes :=
            (List.filter_append _ _).symm.trans (congrArg (Node.matching widths) hnodes)

/-- Without a file: the text itself, with a mark in front of it. -/
theorem isMarked_parse {path source : String} (h : parse path source = .ok sheet)
    (hbegins : Css.beginsSteadily (Css.normalize source.toList) = true) :
    sheet.IsMarked ((parse path (String.ofList (Css.mark :: source.toList))).mapError .parse) := by
  obtain ⟨hsized, hrules, rfl⟩ := parse_eq_ok_iff.mp h
  have hmeets := Css.meets_of_beginsSteadily hbegins
  have htext : Css.normalize (String.ofList (Css.mark :: source.toList)).toList =
      Css.mark :: Css.normalize source.toList := by
    rw [String.toList_ofList, Css.normalize_mark]
  have htokens := tokensOf_eq_ok (Css.oversizedDigits?_of_meets hmeets hsized)
  rw [← htext] at htokens
  have hreplaced := Css.Rule.firstReplaced_of_sameBehind (Css.Token.sameBehind_of_meets hmeets)
  rw [← htext] at hreplaced
  have hstands (n : Node) (hn : n ∈ sheet.nodes) : ∃ r, Node.Stands r n := by
    obtain ⟨r, -, hr⟩ := Node.exists_of_mem_right (Node.accepted_of_ofRules hrules).2 hn
    exact ⟨r, hr⟩
  refine isMarked_of_nodes hstands ?_
  rcases Node.ofRules_firstReplaced hrules hreplaced with
    ⟨hnone, place, hplace⟩ | ⟨first, after, prelude, content, hsome, hnodes⟩
  · refine .inl ⟨hnone, ?_⟩
    simp only [parse, htokens, hplace]
    exact ⟨_, rfl⟩
  · refine .inr ⟨first, after, prelude, content, hsome, ?_⟩
    simp only [parse, htokens, hnodes]
    rfl

end IsMarked

end Stylesheet

/-- A file and the same file with the signature of UTF-8 in front, under an encoding that keeps
it. -/
theorem Cache.isMarked_of_read [Codecs] {t t' : FileTree} {encoding path : String}
    {bytes : List UInt8} {source : String} {sheet : Stylesheet}
    (hencoding : TextFile.encodingOf encoding = .ok (.utf8 false))
    (hbytes : t.read path = .ok bytes)
    (hsigned : t'.read path = .ok (Encoding.signature ++ bytes))
    (hsource : TextFile.read t encoding path = .ok source)
    (hparse : Stylesheet.parse path source = .ok sheet)
    (hbegins : Css.beginsSteadily (Css.normalize source.toList) = true) :
    sheet.IsMarked (Cache.load t' encoding path) := by
  have hload : Cache.load t' encoding path =
      (Stylesheet.parse path (String.ofList (Css.mark :: source.toList))).mapError .parse := by
    unfold Cache.load
    rw [TextFile.read_signature hencoding hbytes hsigned hsource]
    rfl
  rw [hload]
  exact Stylesheet.isMarked_parse hparse hbegins

namespace Cache

def oneFile (bytes : List UInt8) : FileTree :=
  ⟨[(["a.css"], .file bytes)], []⟩

/-- A media block behind another rule is kept. -/
theorem isMarked_of_read_second :
    ∃ sheet after : Stylesheet,
      Stylesheet.parse "a.css" "a{}@media (width:8px){b{}}" = .ok sheet ∧
      sheet.IsMarked (load (oneFile (Encoding.signature ++ Encoding.Utf8.encode
        "a{}@media (width:8px){b{}}".toList)) "utf-8" "a.css") ∧
      load (oneFile (Encoding.signature ++ Encoding.Utf8.encode
        "a{}@media (width:8px){b{}}".toList)) "utf-8" "a.css" = .ok after ∧
      Node.write (Node.matching ["8"] after.nodes) = "@media (width:8px){b{}}" := by
  have hparse : (Stylesheet.parse "a.css" "a{}@media (width:8px){b{}}").toOption.any (fun sheet =>
      Node.write (Node.matching ["8"] sheet.nodes) == "@media (width:8px){b{}}" &&
        (Node.fromBlock sheet.nodes).head?.any fun first =>
          (Node.beforeBlock sheet.nodes ++ [first]).all fun n => !n.isMatching ["8"]) = true := by
    decide +kernel
  simp only [Option.any_eq_true, Bool.and_eq_true, beq_iff_eq, List.head?_eq_some_iff,
    List.all_eq_true, Bool.not_eq_true'] at hparse
  obtain ⟨sheet, hparse, hwrite, first, ⟨behind, hfrom⟩, hfirst⟩ := hparse
  have hmarked := @isMarked_of_read _
    (oneFile (Encoding.Utf8.encode "a{}@media (width:8px){b{}}".toList))
    (oneFile (Encoding.signature ++ Encoding.Utf8.encode "a{}@media (width:8px){b{}}".toList))
    "utf-8" "a.css" _ "a{}@media (width:8px){b{}}" sheet rfl rfl rfl (by decide +kernel)
    (eq_ok_of_toOption hparse) (by decide +kernel)
  obtain ⟨after, hafter, hkept⟩ := (hmarked.unchanged_iff ["8"]).mpr ⟨first, behind, hfrom, hfirst⟩
  exact ⟨sheet, after, eq_ok_of_toOption hparse, hmarked, hafter, hkept.trans hwrite⟩

/-- A media block at the beginning is lost, and a text without blocks is no style sheet. -/
theorem not_kept_behind_signature :
    ∃ sheet after : Stylesheet,
      load (oneFile (Encoding.Utf8.encode "@media (width:8px){a{}}".toList)) "utf-8" "a.css" =
        .ok sheet ∧
      load (oneFile (Encoding.signature ++ Encoding.Utf8.encode
        "@media (width:8px){a{}}".toList)) "utf-8" "a.css" = .ok after ∧
      Node.write (Node.matching ["8"] sheet.nodes) = "@media (width:8px){a{}}" ∧
      Node.write (Node.matching ["8"] after.nodes) = "" := by
  have hlost : (load (oneFile (Encoding.Utf8.encode "@media (width:8px){a{}}".toList)) "utf-8"
      "a.css").toOption.any (fun sheet => (load (oneFile (Encoding.signature ++
        Encoding.Utf8.encode "@media (width:8px){a{}}".toList)) "utf-8" "a.css").toOption.any
          fun after =>
            Node.write (Node.matching ["8"] sheet.nodes) == "@media (width:8px){a{}}" &&
              Node.write (Node.matching ["8"] after.nodes) == "") = true := by
    decide +kernel
  simp only [Option.any_eq_true, Bool.and_eq_true, beq_iff_eq] at hlost
  obtain ⟨sheet, hsheet, after, hafter, hwrite, hempty⟩ := hlost
  exact ⟨sheet, after, eq_ok_of_toOption hsheet, eq_ok_of_toOption hafter, hwrite, hempty⟩

end Cache

end MediaSplit
