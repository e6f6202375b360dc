import MediaSplit.Proofs.Css.RuleLists
import MediaSplit.Proofs.Css.Splitting
import MediaSplit.Proofs.Results
import MediaSplit.Stylesheet

/-!
Which rule lists become nodes. A list is accepted if no rule in it is unfinished and the contents
of its media blocks are accepted, at every depth. Comments between rules do not matter for that,
so a list that was accepted is accepted again where it is read anew.
-/

namespace MediaSplit

namespace Node

def makesMedia : Css.Rule → Bool
  | .atRule keyword _ _ => isMediaKeyword keyword
  | _ => false

inductive Accepted : List Css.Rule → Prop
  | nil : Accepted []
  | cons {r : Css.Rule} {rules : List Css.Rule} (hr : ∀ place, r ≠ .unfinished place)
      (hinside : ∀ keyword prelude content, r = .atRule keyword prelude (some content) →
        isMediaKeyword keyword = true → Accepted (Css.Rule.ofTokens .nested content))
      (h : Accepted rules) : Accepted (r :: rules)

/-- The node that a rule becomes. -/
inductive Stands : Css.Rule → Node → Prop
  | rule {r : Css.Rule} (h : makesMedia r = false) : Stands r (.rule r)
  | media {keyword : List Char} (prelude : List Css.Token) (ends : Option (List Css.Token))
      (children : List Node) (h : isMediaKeyword keyword = true) :
      Stands (.atRule keyword prelude ends)
        (.media (conditionOf prelude) children (.atRule keyword prelude ends))

theorem Stands.source_eq {r : Css.Rule} {n : Node} (h : Stands r n) : n.source = r := by
  cases h <;> rfl

theorem map_source_of_stands {rules : List Css.Rule} {nodes : List Node}
    (h : List.Forall₂ Stands rules nodes) : nodes.map source = rules := by
  induction h with
  | nil => rfl
  | cons hfirst _ ih => rw [List.map_cons, hfirst.source_eq, ih]

/-- Nodes are written one after the other, as their rules are. -/
theorem write_eq_ofList (nodes : List Node) :
    write nodes = String.ofList (nodes.flatMap fun n => n.source.text) := by
  rw [write, Css.Rule.write_eq_flatMap, List.flatMap_map]

theorem conditionOf_eq {prelude prelude' : List Css.Token}
    (h : Css.Token.write prelude' = Css.Token.write prelude) :
    conditionOf prelude' = conditionOf prelude := by
  rw [conditionOf, h, conditionOf]

theorem exists_of_mem_right {α β : Type} {r : α → β → Prop} {as : List α} {bs : List β}
    {b : β} (h : List.Forall₂ r as bs) (hb : b ∈ bs) : ∃ a ∈ as, r a b := by
  induction h with
  | nil => exact absurd hb List.not_mem_nil
  | cons hfirst _ ih =>
      rcases List.mem_cons.mp hb with rfl | hb
      · exact ⟨_, List.mem_cons_self, hfirst⟩
      · obtain ⟨a, ha, hr⟩ := ih hb
        exact ⟨a, List.mem_cons_of_mem _ ha, hr⟩

section Rules

variable {rules rules' : List Css.Rule} {nodes : List Node}

/-- A rule that is neither unfinished nor a media block with content is accepted by itself. -/
private theorem Accepted.plain {r : Css.Rule} (hr : ∀ place, r ≠ .unfinished place)
    (hplain : ∀ keyword prelude content, r = .atRule keyword prelude (some content) →
      isMediaKeyword keyword = false) (h : Accepted rules) : Accepted (r :: rules) := by
  refine .cons hr (fun keyword prelude content heq hmedia => ?_) h
  rw [hplain keyword prelude content heq] at hmedia
  exact absurd hmedia (by decide)

/-- A list that becomes nodes is accepted, and each of its rules becomes one node. -/
theorem accepted_of_ofRules (h : ofRules rules = .ok nodes) :
    Accepted rules ∧ List.Forall₂ Stands rules nodes := by
  fun_induction ofRules rules generalizing nodes with
  | case1 =>
      obtain rfl := Except.ok.inj h
      exact ⟨.nil, .nil⟩
  | case2 place rest => exact nomatch h
  | case3 keyword prelude rest ih =>
      obtain ⟨following, hfollowing, h⟩ := bind_eq_ok.mp h
      obtain ⟨haccepted, hstands⟩ := ih hfollowing
      refine ⟨haccepted.plain nofun nofun, ?_⟩
      split at h
      · rename_i hmedia
        obtain rfl := Except.ok.inj h
        exact .cons (.media prelude none [] hmedia) hstands
      · rename_i hmedia
        obtain rfl := Except.ok.inj h
        exact .cons (.rule (Bool.not_eq_true _ ▸ hmedia)) hstands
  | case4 keyword prelude content rest hmedia ihinside ih =>
      obtain ⟨children, hchildren, h⟩ := bind_eq_ok.mp h
      obtain ⟨following, hfollowing, h⟩ := bind_eq_ok.mp h
      obtain ⟨haccepted, hstands⟩ := ih hfollowing
      obtain rfl := Except.ok.inj h
      refine ⟨.cons nofun ?_ haccepted, .cons (.media prelude _ children hmedia) hstands⟩
      rintro _ _ _ ⟨⟩ -
      exact (ihinside hchildren).1
  | case5 keyword prelude content rest hmedia ih =>
      obtain ⟨following, hfollowing, h⟩ := bind_eq_ok.mp h
      obtain ⟨haccepted, hstands⟩ := ih hfollowing
      obtain rfl := Except.ok.inj h
      rw [Bool.not_eq_true] at hmedia
      refine ⟨haccepted.plain nofun ?_, .cons (.rule hmedia) hstands⟩
      rintro _ _ _ ⟨⟩
      exact hmedia
  | case6 text rest ih | case7 text rest ih | case8 prelude content rest ih =>
      obtain ⟨following, hfollowing, h⟩ := bind_eq_ok.mp h
      obtain ⟨haccepted, hstands⟩ := ih hfollowing
      obtain rfl := Except.ok.inj h
      exact ⟨haccepted.plain nofun nofun, .cons (.rule rfl) hstands⟩

/-- A media rule becomes a media block if its content is accepted. -/
theorem ofRules_media {keyword : List Char} {prelude : List Css.Token}
    {ends : Option (List Css.Token)} (hmedia : isMediaKeyword keyword = true)
    (hinside : ∀ content ∈ ends, ∃ children,
      ofRules (Css.Rule.ofTokens .nested content) = .ok children)
    (h : ofRules rules = .ok nodes) :
    ∃ children, ofRules (.atRule keyword prelude ends :: rules) =
      .ok (.media (conditionOf prelude) children (.atRule keyword prelude ends) :: nodes) := by
  cases ends with
  | none =>
      rw [ofRules, h]
      exact ⟨[], if_pos hmedia⟩
  | some content =>
      obtain ⟨children, hchildren⟩ := hinside content rfl
      rw [ofRules, h, if_pos hmedia, hchildren]
      exact ⟨children, rfl⟩

/-- An accepted list becomes nodes. -/
theorem Accepted.exists_nodes (h : Accepted rules) : ∃ nodes, ofRules rules = .ok nodes := by
  induction h with
  | nil => exact ⟨[], by rw [ofRules]⟩
  | @cons r rules hr _ _ ihinside ih =>
      obtain ⟨following, hfollowing⟩ := ih
      cases r with
      | unfinished place => exact absurd rfl (hr place)
      | atRule keyword prelude ends =>
          by_cases hmedia : isMediaKeyword keyword = true
          · obtain ⟨children, hnodes⟩ := @ofRules_media _ _ keyword prelude ends hmedia
              (by rintro content rfl; exact ihinside keyword prelude content rfl hmedia) hfollowing
            exact ⟨_, hnodes⟩
          · cases ends <;>
              · rw [ofRules, hfollowing]
                exact ⟨_, if_neg hmedia⟩
      | _ =>
          rw [ofRules, hfollowing]
          exact ⟨_, rfl⟩

theorem Accepted.inside (h : Accepted rules) {keyword : List Char}
    {prelude content : List Css.Token} (hmem : .atRule keyword prelude (some content) ∈ rules)
    (hmedia : isMediaKeyword keyword = true) : Accepted (Css.Rule.ofTokens .nested content) := by
  induction h with
  | nil => exact absurd hmem List.not_mem_nil
  | cons hr hinside _ _ ih =>
      rcases List.mem_cons.mp hmem with heq | hmem
      · exact hinside keyword prelude content heq.symm hmedia
      · exact ih hmem

/-- A list stays accepted where it is read again. -/
theorem Accepted.areAlike (h : Accepted rules) (halike : Css.Rule.AreAlike rules rules') :
    Accepted rules' := by
  have hcomment {rules : List Css.Rule} (text : List Char) (h : Accepted rules) :
      Accepted (.comment text :: rules) := h.plain nofun nofun
  induction h generalizing rules' with
  | nil =>
      generalize hrules : [] = rules at halike
      induction halike with
      | nil => exact .nil
      | comment text _ ih => exact hcomment text (ih hrules)
      | cons _ _ _ => exact nomatch hrules
  | @cons r rules hr _ _ ihinside ih =>
      generalize hrules : r :: rules = all at halike
      induction halike with
      | nil => exact nomatch hrules
      | comment text _ ihcomment => exact hcomment text (ihcomment hrules)
      | cons hfirst hrest _ =>
          obtain ⟨rfl, rfl⟩ := List.cons.inj hrules
          refine .cons ?_ ?_ (ih hrest)
          · rintro place rfl
            cases hfirst
            exact hr _ rfl
          · rintro keyword prelude content rfl hmedia
            cases hfirst with
            | closed _ prelude' _ hcontent =>
                exact ihinside keyword prelude' _ rfl hmedia
                  (Css.Rule.areAlike_split hcontent .none)

end Rules

end Node

/-- A text is accepted if no integer in it is too long and its rules become nodes. -/
theorem Stylesheet.parse_eq_ok_iff {path source : String} {sheet : Stylesheet} :
    Stylesheet.parse path source = .ok sheet ↔
      (∀ l ∈ Css.lexemes (Css.normalize source.toList), l.2.oversizedDigits? = none) ∧
        Node.ofRules (Css.Rule.ofTokens .top
          (Css.Token.ofLexemes (Css.lexemes (Css.normalize source.toList)))) = .ok sheet.nodes ∧
        sheet.path = path := by
  rw [← List.findSome?_eq_none_iff]
  simp only [Stylesheet.parse, Stylesheet.tokensOf]
  cases (Css.lexemes (Css.normalize source.toList)).findSome? fun l => l.2.oversizedDigits? with
  | some digits => simp
  | none =>
      cases hnodes : Node.ofRules (Css.Rule.ofTokens .top
          (Css.Token.ofLexemes (Css.lexemes (Css.normalize source.toList)))) with
      | error place => simp [hnodes]
      | ok nodes =>
          cases sheet
          simp [hnodes, eq_comm]

namespace Stylesheet

/-- The tokens of a text are nested from its lexemes. -/
theorem eq_of_tokensOf {text : List Char} {tokens : List Css.Token}
    (h : tokensOf text = .ok tokens) : tokens = Css.Token.ofLexemes (Css.lexemes text) := by
  simp only [tokensOf] at h
  split at h
  · exact nomatch h
  · exact (Except.ok.inj h).symm

theorem tokensOf_eq_ok {text : List Char}
    (h : ∀ l ∈ Css.lexemes text, l.2.oversizedDigits? = none) :
    tokensOf text = .ok (Css.Token.ofLexemes (Css.lexemes text)) := by
  simp only [tokensOf, List.findSome?_eq_none_iff.mpr h]

/-- The three ways in which the reading of a text ends. -/
theorem parse_cases (path source : String) :
    (∃ digits, tokensOf (Css.normalize source.toList) = .error digits ∧
      parse path source = .error (.oversizedInteger digits)) ∨
    (∃ tokens place position, tokensOf (Css.normalize source.toList) = .ok tokens ∧
      Node.ofRules (Css.Rule.ofTokens .top tokens) = .error place ∧
      position = place.position (Css.normalize source.toList) ∧
      parse path source = .error
        (.malformed ⟨unfinishedRule, some position.line, some position.column, path⟩)) ∨
    ∃ tokens nodes, tokensOf (Css.normalize source.toList) = .ok tokens ∧
      Node.ofRules (Css.Rule.ofTokens .top tokens) = .ok nodes ∧
      parse path source = .ok ⟨nodes, path⟩ := by
  cases htokens : tokensOf (Css.normalize source.toList) with
  | error digits => exact .inl ⟨digits, rfl, by simp only [parse, htokens]⟩
  | ok tokens =>
      cases hnodes : Node.ofRules (Css.Rule.ofTokens .top tokens) with
      | error place =>
          refine .inr (.inl ⟨tokens, place, _, rfl, hnodes, rfl, ?_⟩)
          simp only [parse, htokens, hnodes]
      | ok nodes =>
          refine .inr (.inr ⟨tokens, nodes, rfl, hnodes, ?_⟩)
          simp only [parse, htokens, hnodes]

end Stylesheet

end MediaSplit
