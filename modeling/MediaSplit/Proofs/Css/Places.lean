import Mathlib.Data.List.Basic
import MediaSplit.Css.Rule

/-!
Where tokens and rules stand in a text. Nesting and cutting keep the order of the text: the places
of the tokens of a text, inner ones behind the token that holds them, are places of its lexemes in
their order, and so are the places that the rules of a list take from its tokens. A place before
another has no later line and column.
-/

namespace MediaSplit.Css

namespace Position

/-- Whether a position is the same as another one or before it. -/
def IsUpTo (p q : Position) : Prop :=
  p.line < q.line ∨ (p.line = q.line ∧ p.column ≤ q.column)

theorem IsUpTo.refl (p : Position) : p.IsUpTo p :=
  .inr ⟨rfl, Nat.le_refl _⟩

theorem IsUpTo.trans {p q r : Position} (h : p.IsUpTo q) (h' : q.IsUpTo r) : p.IsUpTo r := by
  unfold IsUpTo at *
  omega

theorem isUpTo_step (p : Position) (c : Char) : p.IsUpTo (p.step c) := by
  unfold step
  split
  · exact .inl (Nat.lt_succ_self _)
  · exact .inr ⟨rfl, Nat.le_succ _⟩

theorem isUpTo_advance (p : Position) (text : List Char) : p.IsUpTo (p.advance text) := by
  induction text generalizing p with
  | nil => exact .refl p
  | cons c text ih => exact (p.isUpTo_step c).trans (ih (p.step c))

end Position

namespace Place

/-- Whether more is left of the text at the first of two places. -/
def IsBefore (p q : Place) : Prop :=
  q.rest.length < p.rest.length

theorem IsBefore.position {p q : Place} (h : p.IsBefore q) (text : List Char) :
    (p.position text).IsUpTo (q.position text) := by
  have hle : text.length - p.rest.length ≤ text.length - q.rest.length :=
    Nat.sub_le_sub_left (Nat.le_of_lt h) _
  obtain ⟨more, hmore⟩ : text.take (text.length - p.rest.length) <+:
      text.take (text.length - q.rest.length) := List.take_prefix_take_left hle
  unfold Place.position
  rw [← hmore, Position.advance, Position.advance, List.foldl_append]
  exact Position.isUpTo_advance _ more

end Place

/-- The lexemes of a text stand one behind the other. -/
theorem pairwise_lexemes (text : List Char) :
    ((lexemes text).map Prod.fst).Pairwise Place.IsBefore := by
  have hlength (text : List Char) :
      ∀ p ∈ (lexemes text).map Prod.fst, p.rest.length ≤ text.length := by
    fun_induction lexemes text with
    | case1 => simp
    | case2 c cs scanned ih =>
        have hscanned : scanned.2.length ≤ cs.length := scan_length_le c cs
        intro p hp
        rcases List.mem_cons.mp hp with rfl | hp
        · exact Nat.le_refl _
        · exact Nat.le_trans (ih p hp) (Nat.le_trans hscanned (Nat.le_succ _))
  fun_induction lexemes text with
  | case1 => exact .nil
  | case2 c cs scanned ih =>
      have hscanned : scanned.2.length ≤ cs.length := scan_length_le c cs
      refine .cons (fun p hp => ?_) ih
      exact Nat.lt_succ_of_le (Nat.le_trans (hlength _ p hp) hscanned)

namespace Token

mutual

def places : Token → List Place
  | .atom p _ | .stray p _ => [p]
  | .function p _ arguments => p :: allPlaces arguments
  | .block p _ content => p :: allPlaces content

def allPlaces : List Token → List Place
  | [] => []
  | t :: ts => t.places ++ allPlaces ts

end

theorem allPlaces_append (ts us : List Token) :
    allPlaces (ts ++ us) = allPlaces ts ++ allPlaces us := by
  induction ts with
  | nil => rfl
  | cons t ts ih => rw [List.cons_append, allPlaces, ih, allPlaces, List.append_assoc]

theorem start_mem_places (t : Token) : t.start ∈ t.places := by
  cases t <;> simp [start, places]

namespace Opener

theorem places_close (start : Place) (content : List Token) (o : Opener) :
    (o.close start content).places = start :: allPlaces content := by
  cases o <;> rfl

end Opener

namespace Builder

def placesTaken : List Frame → List Token → List Place
  | [], current => allPlaces current.reverse
  | frame :: frames, current =>
      placesTaken frames frame.before ++ frame.start :: allPlaces current.reverse

theorem placesTaken_cons (frames : List Frame) (t : Token) (current : List Token) :
    placesTaken frames (t :: current) = placesTaken frames current ++ t.places := by
  cases frames <;> simp [placesTaken, allPlaces_append, allPlaces]

theorem placesTaken_close (frame : Frame) (frames : List Frame) (current : List Token) :
    placesTaken frames (frame.opener.close frame.start current.reverse :: frame.before) =
      placesTaken (frame :: frames) current := by
  rw [placesTaken_cons, Opener.places_close, placesTaken]

/-- A lexeme adds its place behind all others, or none if it closes what is open. -/
theorem placesTaken_step (b : Builder) (p : Place) (l : Lexeme) :
    (placesTaken (b.step (p, l)).frames (b.step (p, l)).current).Sublist
      (placesTaken b.frames b.current ++ [p]) := by
  have hpush {t : Token} (ht : t.places = [p]) :
      (placesTaken (b.push t).frames (b.push t).current).Sublist
        (placesTaken b.frames b.current ++ [p]) := by
    rw [push, placesTaken_cons, ht]
  cases l with
  | atom a => exact hpush rfl
  | openFunction name => exact .refl _
  | openBlock bracket => exact .refl _
  | close bracket =>
      obtain ⟨frames, current⟩ := b
      cases frames with
      | nil => exact hpush rfl
      | cons frame frames =>
          simp only [step]
          split
          · rw [placesTaken_close]
            exact List.sublist_append_left _ _
          · exact hpush rfl

theorem placesTaken_foldl (lexemes : List (Place × Lexeme)) (b : Builder) :
    let b' := lexemes.foldl Builder.step b
    (placesTaken b'.frames b'.current).Sublist
      (placesTaken b.frames b.current ++ lexemes.map Prod.fst) := by
  induction lexemes generalizing b with
  | nil => simp
  | cons l ls ih =>
      obtain ⟨p, l⟩ := l
      have hstep := (placesTaken_step b p l).append_right (ls.map Prod.fst)
      rw [List.append_assoc] at hstep
      exact (ih (b.step (p, l))).trans hstep

theorem allPlaces_finish (frames : List Frame) (current : List Token) :
    allPlaces (finish frames current) = placesTaken frames current := by
  induction frames generalizing current with
  | nil => rfl
  | cons frame frames ih => rw [finish, ih, placesTaken_close]

end Builder

/-- Nesting keeps lexemes in their order. -/
theorem allPlaces_ofLexemes (lexemes : List (Place × Lexeme)) :
    (allPlaces (ofLexemes lexemes)).Sublist (lexemes.map Prod.fst) := by
  rw [ofLexemes, Builder.allPlaces_finish]
  exact Builder.placesTaken_foldl lexemes Builder.empty

end Token

namespace Rule

def places : Rule → List Place
  | .whitespace _ | .comment _ => []
  | .qualified prelude content => Token.allPlaces prelude ++ Token.allPlaces content
  | .atRule _ prelude content => Token.allPlaces prelude ++ Token.allPlaces (content.getD [])
  | .unfinished place => [place]

namespace Pending

def places : Pending → List Place
  | .atRule _ prelude => Token.allPlaces prelude.reverse
  | .qualified last earlier => Token.allPlaces (last :: earlier).reverse

theorem places_push (pending : Pending) (t : Token) :
    (pending.push t).places = pending.places ++ t.places := by
  cases pending <;> simp [push, places, Token.allPlaces_append, Token.allPlaces]

theorem places_close (pending : Pending) (content : List Token) :
    (pending.close content).places = pending.places ++ Token.allPlaces content := by
  cases pending <;> rfl

theorem places_finish (pending : Pending) : pending.finish.places.Sublist pending.places := by
  cases pending with
  | atRule keyword prelude => simp [finish, places, Rule.places, Token.allPlaces]
  | qualified last earlier =>
      rw [places, List.reverse_cons, Token.allPlaces_append]
      refine .trans ?_ (List.sublist_append_right _ _)
      simpa [finish, Rule.places, Token.allPlaces] using last.start_mem_places

end Pending

section Split

variable {taken taken' : List Place} {t : Token} {ts : List Token} {r : Rule} {rules : List Rule}

/-- A rule that a token ends takes the places up to that of the token. -/
private theorem places_cons (hr : r.places.Sublist (taken ++ t.places))
    (hrules : (rules.flatMap places).Sublist ([] ++ Token.allPlaces ts)) :
    ((r :: rules).flatMap places).Sublist (taken ++ Token.allPlaces (t :: ts)) := by
  rw [List.flatMap_cons, Token.allPlaces, ← List.append_assoc]
  exact hr.append hrules

/-- A token that ends no rule leaves its places to the rule that it belongs to. -/
private theorem places_keep (ht : taken'.Sublist (taken ++ t.places))
    (hrules : (rules.flatMap places).Sublist (taken' ++ Token.allPlaces ts)) :
    (rules.flatMap places).Sublist (taken ++ Token.allPlaces (t :: ts)) := by
  rw [Token.allPlaces, ← List.append_assoc]
  exact hrules.trans (ht.append_right _)

/-- Cutting keeps tokens in their order. -/
theorem places_split (level : Level) (pending : Option Pending) (tokens : List Token) :
    ((split level pending tokens).flatMap places).Sublist
      ((pending.map Pending.places).getD [] ++ Token.allPlaces tokens) := by
  have hfirst (t : Token) :
      (Pending.places (.qualified t [])).Sublist ([] ++ t.places) := by
    simp [Pending.places, Token.allPlaces]
  have hpush (pending : Pending) (t : Token) :
      (pending.push t).places.Sublist (pending.places ++ t.places) := by
    rw [Pending.places_push]
  have hblock (places : List Place) (p : Place) (content : List Token) :
      (places ++ Token.allPlaces content).Sublist
        (places ++ Token.places (.block p .brace content)) :=
    (List.sublist_cons_self _ _).append_left _
  fun_induction split level pending tokens with
  | case1 => exact List.Sublist.refl _
  | case2 pending => simpa [Token.allPlaces] using pending.places_finish
  | case3 p ts text ih => exact places_cons (List.nil_sublist _) ih
  | case4 p ts text ih => exact places_cons (List.nil_sublist _) ih
  | case5 p ts keyword ih => exact places_keep (List.nil_sublist _) ih
  | case6 p ts a _ _ _ _ ih => exact places_keep (List.nil_sublist _) ih
  | case7 p ts a _ _ _ _ ih => exact places_keep (hfirst _) ih
  | case8 p content ts ih => exact places_cons (hblock [] p content) ih
  | case9 p b content ts _ ih => exact places_keep (hfirst _) ih
  | case10 t ts _ _ ih => exact places_keep (hfirst t) ih
  | case11 pending p content ts ih =>
      refine places_cons ?_ ih
      rw [Pending.places_close]
      exact hblock pending.places p content
  | case12 pending p b content ts _ ih => exact places_keep (hpush pending _) ih
  | case13 pending p a ts _ ih =>
      exact places_cons (pending.places_finish.trans (List.sublist_append_left _ _)) ih
  | case14 pending p a ts _ ih => exact places_keep (hpush pending _) ih
  | case15 pending t ts _ _ ih => exact places_keep (hpush pending t) ih

/-- The rules of a text take their places in the order of the text. -/
theorem pairwise_places (level : Level) (text : List Char) :
    ((ofTokens level (Token.ofLexemes (lexemes text))).flatMap places).Pairwise
      Place.IsBefore :=
  (pairwise_lexemes text).sublist
    ((places_split level none _).trans (Token.allPlaces_ofLexemes (lexemes text)))

end Split

end Rule

end MediaSplit.Css
