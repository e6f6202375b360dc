import MediaSplit.Proofs.Css.Rows

/-!
Token trees as rows of lexemes. The tokens of a text are its lexemes again, with the closing
brackets added that its end left out, and nesting the lexemes that are written for tokens gives
the same tokens, up to the comments that keep them apart.
-/

namespace MediaSplit.Css

namespace Token

mutual

def row : Token → List Lexeme
  | .atom _ a => [.atom a]
  | .function _ name arguments => .openFunction name :: (rows arguments ++ [.close .paren])
  | .block _ bracket content => .openBlock bracket :: (rows content ++ [.close bracket])
  | .stray _ bracket => [.close bracket]

def rows : List Token → List Lexeme
  | [] => []
  | t :: ts => t.row ++ rows ts

end

mutual

/-- Whether no closing bracket that stands alone could close what it stands in. -/
def isNestedIn (outer : Option Bracket) : Token → Bool
  | .atom _ _ => true
  | .function _ _ arguments => areNestedIn (some .paren) arguments
  | .block _ bracket content => areNestedIn (some bracket) content
  | .stray _ bracket => outer != some bracket

def areNestedIn (outer : Option Bracket) : List Token → Bool
  | [] => true
  | t :: ts => t.isNestedIn outer && areNestedIn outer ts

end

theorem rows_append (ts us : List Token) : rows (ts ++ us) = rows ts ++ rows us := by
  induction ts with
  | nil => rfl
  | cons t ts ih => rw [List.cons_append, rows, ih, rows, List.append_assoc]

theorem rows_function (p : Place) (name : List Char) (args ts : List Token) :
    rows (.function p name args :: ts) =
      .openFunction name :: (rows args ++ .close .paren :: rows ts) := by
  simp [rows, row]

theorem rows_block (p : Place) (bracket : Bracket) (content ts : List Token) :
    rows (.block p bracket content :: ts) =
      .openBlock bracket :: (rows content ++ .close bracket :: rows ts) := by
  simp [rows, row]

theorem areNestedIn_cons_iff {outer : Option Bracket} {t : Token} {ts : List Token} :
    areNestedIn outer (t :: ts) = true ↔
      t.isNestedIn outer = true ∧ areNestedIn outer ts = true := by
  rw [areNestedIn, Bool.and_eq_true]

theorem areNestedIn_append (outer : Option Bracket) (ts us : List Token) :
    areNestedIn outer (ts ++ us) = (areNestedIn outer ts && areNestedIn outer us) := by
  induction ts with
  | nil => rfl
  | cons t ts ih => rw [List.cons_append, areNestedIn, ih, areNestedIn, Bool.and_assoc]

theorem areNestedIn_reverse (outer : Option Bracket) (ts : List Token) :
    areNestedIn outer ts.reverse = areNestedIn outer ts := by
  induction ts with
  | nil => rfl
  | cons t ts ih =>
      rw [List.reverse_cons, areNestedIn_append, ih, areNestedIn, areNestedIn, areNestedIn,
        Bool.and_true, Bool.and_comm]

def Opener.lexeme : Opener → Lexeme
  | .function name => .openFunction name
  | .block bracket => .openBlock bracket

theorem Opener.row_close (start : Place) (content : List Token) (o : Opener) :
    (o.close start content).row = o.lexeme :: (rows content ++ [.close o.bracket]) := by
  cases o <;> rfl

theorem Opener.isNestedIn_close (outer : Option Bracket) (start : Place) (content : List Token)
    (o : Opener) : (o.close start content).isNestedIn outer = areNestedIn (some o.bracket) content := by
  cases o <;> rfl

namespace Builder

def taken : List Frame → List Token → List Lexeme
  | [], current => rows current.reverse
  | frame :: frames, current => taken frames frame.before ++ frame.opener.lexeme :: rows current.reverse

def outer (frames : List Frame) : Option Bracket :=
  frames.head?.map fun frame => frame.opener.bracket

/-- Whether no closing bracket stands alone in the list that it closes. -/
def isNested : List Frame → List Token → Bool
  | [], current => areNestedIn none current
  | frame :: frames, current =>
      areNestedIn (some frame.opener.bracket) current && isNested frames frame.before

theorem taken_cons (frames : List Frame) (t : Token) (current : List Token) :
    taken frames (t :: current) = taken frames current ++ t.row := by
  cases frames <;> simp [taken, rows_append, rows]

theorem isNested_cons (frames : List Frame) (t : Token) (current : List Token) :
    isNested frames (t :: current) = (t.isNestedIn (outer frames) && isNested frames current) := by
  cases frames <;> simp [isNested, areNestedIn, outer, Bool.and_assoc]

private theorem push_spec (b : Builder) (t : Token) :
    taken (b.push t).frames (b.push t).current = taken b.frames b.current ++ t.row ∧
      (t.isNestedIn (outer b.frames) = true → isNested b.frames b.current = true →
        isNested (b.push t).frames (b.push t).current = true) := by
  refine ⟨taken_cons _ _ _, fun ht h => ?_⟩
  rw [push, isNested_cons, ht, h]
  rfl

private theorem openToken_spec (b : Builder) (p : Place) (o : Opener) :
    taken (b.openToken p o).frames (b.openToken p o).current =
        taken b.frames b.current ++ [o.lexeme] ∧
      (isNested b.frames b.current = true →
        isNested (b.openToken p o).frames (b.openToken p o).current = true) := by
  refine ⟨rfl, fun h => ?_⟩
  simpa [openToken, isNested, areNestedIn] using h

private theorem close_spec (frame : Frame) (frames : List Frame) (current : List Token) :
    taken frames (frame.opener.close frame.start current.reverse :: frame.before) =
        taken (frame :: frames) current ++ [.close frame.opener.bracket] ∧
      (isNested (frame :: frames) current = true →
        isNested frames (frame.opener.close frame.start current.reverse :: frame.before) = true) := by
  constructor
  · rw [taken_cons, Opener.row_close, taken]
    simp
  · intro h
    rw [isNested, Bool.and_eq_true] at h
    rw [isNested_cons, Opener.isNestedIn_close, areNestedIn_reverse, h.1, h.2]
    rfl

/-- A step takes its lexeme and keeps the lists nested. -/
theorem step_spec (b : Builder) (p : Place) (l : Lexeme) :
    taken (b.step (p, l)).frames (b.step (p, l)).current = taken b.frames b.current ++ [l] ∧
      (isNested b.frames b.current = true →
        isNested (b.step (p, l)).frames (b.step (p, l)).current = true) := by
  cases l with
  | atom a =>
      obtain ⟨htaken, hnested⟩ := push_spec b (.atom p a)
      exact ⟨htaken, hnested rfl⟩
  | openFunction name => exact openToken_spec b p (.function name)
  | openBlock bracket => exact openToken_spec b p (.block bracket)
  | close bracket =>
      obtain ⟨htaken, hnested⟩ := push_spec b (.stray p bracket)
      obtain ⟨frames, current⟩ := b
      cases frames with
      | nil => exact ⟨htaken, hnested rfl⟩
      | cons frame frames =>
          by_cases h : frame.opener.bracket = bracket
          · simp only [step, h, if_true]
            have hclose := close_spec frame frames current
            rwa [h] at hclose
          · simp only [step, h, if_false]
            exact ⟨htaken, hnested (by simpa [isNestedIn, outer] using h)⟩

theorem foldl_step_spec (lexemes : List (Place × Lexeme)) (b : Builder) :
    let b' := lexemes.foldl Builder.step b
    taken b'.frames b'.current = taken b.frames b.current ++ lexemes.map Prod.snd ∧
      (isNested b.frames b.current = true → isNested b'.frames b'.current = true) := by
  induction lexemes generalizing b with
  | nil => simp
  | cons l ls ih =>
      obtain ⟨p, l⟩ := l
      obtain ⟨htaken, hnested⟩ := step_spec b p l
      obtain ⟨htaken', hnested'⟩ := ih (b.step (p, l))
      refine ⟨?_, fun h => hnested' (hnested h)⟩
      rw [List.foldl_cons, htaken', htaken, List.map_cons]
      simp

/-- Closing what is open adds closing brackets only. -/
theorem finish_spec (frames : List Frame) (current : List Token) :
    rows (finish frames current) = taken frames current ++
        frames.map (fun frame => Lexeme.close frame.opener.bracket) ∧
      (isNested frames current = true → areNestedIn none (finish frames current) = true) := by
  induction frames generalizing current with
  | nil =>
      refine ⟨by simp [finish, taken], fun h => ?_⟩
      rw [finish, areNestedIn_reverse]
      exact h
  | cons frame frames ih =>
      obtain ⟨htaken, hnested⟩ := close_spec frame frames current
      obtain ⟨hrows, hfinish⟩ := ih (frame.opener.close frame.start current.reverse :: frame.before)
      refine ⟨?_, fun h => hfinish (hnested h)⟩
      rw [finish, hrows, htaken]
      simp

end Builder

/-- The tokens of a text are its lexemes, with closing brackets added at the end. -/
theorem rows_ofLexemes (lexemes : List (Place × Lexeme)) :
    (∃ closers : List Bracket,
      rows (ofLexemes lexemes) = lexemes.map Prod.snd ++ closers.map Lexeme.close) ∧
      areNestedIn none (ofLexemes lexemes) = true := by
  obtain ⟨htaken, hnested⟩ := Builder.foldl_step_spec lexemes Builder.empty
  obtain ⟨hrows, hfinish⟩ := Builder.finish_spec
    (lexemes.foldl Builder.step Builder.empty).frames
    (lexemes.foldl Builder.step Builder.empty).current
  refine ⟨⟨(lexemes.foldl Builder.step Builder.empty).frames.map fun frame => frame.opener.bracket,
    ?_⟩, hfinish (hnested rfl)⟩
  rw [ofLexemes, hrows, htaken, List.map_map]
  rfl

end Token

inductive Spaced : List Lexeme → List Lexeme → Prop
  | nil : Spaced [] []
  | cons (l : Lexeme) {ls ls' : List Lexeme} (h : Spaced ls ls') : Spaced (l :: ls) (l.reread :: ls')
  | comment {l : Lexeme} {ls ls' : List Lexeme} (hl : ∀ b, l ≠ .close b) (h : Spaced (l :: ls) ls') :
      Spaced (l :: ls) (.atom (.comment []) :: ls')

theorem spaced_settle (ls : List Lexeme) : Spaced ls (settle ls) := by
  induction ls with
  | nil => exact .nil
  | cons l ls ih =>
      refine .cons l ?_
      cases ls with
      | nil => exact ih
      | cons m ms =>
          by_cases hrun : l.kind.runsInto m.kind = true
          · have hcomment : separators l (m :: ms) = [.atom (.comment [])] := if_pos hrun
            rw [hcomment]
            refine .comment ?_ ih
            rintro b rfl
            exact absurd hrun (by simp [Lexeme.kind, Kind.runsInto, Kind.isSign, Kind.isNumeric,
              Kind.startsWithName])
          · have hnone : separators l (m :: ms) = [] := if_neg hrun
            rw [hnone]
            exact ih

theorem Spaced.split {xs ys zs : List Lexeme} (h : Spaced (xs ++ ys) zs) :
    ∃ zs₁ zs₂, zs = zs₁ ++ zs₂ ∧ Spaced xs zs₁ ∧ Spaced ys zs₂ := by
  generalize hls : xs ++ ys = ls at h
  induction h generalizing xs with
  | nil =>
      obtain ⟨rfl, rfl⟩ := List.append_eq_nil_iff.mp hls
      exact ⟨[], [], rfl, .nil, .nil⟩
  | cons l h ih =>
      cases xs with
      | nil => exact ⟨[], _, rfl, .nil, (show ys = _ from hls) ▸ .cons l h⟩
      | cons x xs =>
          obtain ⟨rfl, rfl⟩ := List.cons.inj hls
          obtain ⟨zs₁, zs₂, rfl, h₁, h₂⟩ := ih rfl
          exact ⟨x.reread :: zs₁, zs₂, rfl, .cons x h₁, h₂⟩
  | comment hl h ih =>
      cases xs with
      | nil => exact ⟨[], _, rfl, .nil, (show ys = _ from hls) ▸ .comment hl h⟩
      | cons x xs =>
          obtain ⟨zs₁, zs₂, rfl, h₁, h₂⟩ := ih hls
          obtain ⟨rfl, rfl⟩ := List.cons.inj hls
          exact ⟨.atom (.comment []) :: zs₁, zs₂, rfl, .comment hl h₁, h₂⟩

/-- A spaced row starts with its first lexeme or with a comment before that. -/
theorem Spaced.cons_cases {l : Lexeme} {ls : List Lexeme} {lexemes : List (Place × Lexeme)}
    (h : Spaced (l :: ls) (lexemes.map Prod.snd)) :
    ∃ p rest, (lexemes = (p, l.reread) :: rest ∧ Spaced ls (rest.map Prod.snd)) ∨
      (lexemes = (p, .atom (.comment [])) :: rest ∧ (∀ b, l ≠ .close b) ∧
        Spaced (l :: ls) (rest.map Prod.snd)) := by
  cases lexemes with
  | nil => cases h
  | cons first rest =>
      obtain ⟨p, m⟩ := first
      refine ⟨p, rest, ?_⟩
      rw [List.map_cons] at h
      generalize hm : (p, m).2 = m' at h
      generalize hrest : rest.map Prod.snd = rest' at h ⊢
      cases h with
      | cons _ h => exact .inl ⟨by rw [← hm], h⟩
      | comment hl h => exact .inr ⟨by rw [← hm], hl, h⟩

/-- A closing bracket comes right behind what it closes. -/
theorem Spaced.exists_close {lexemes : List (Place × Lexeme)} {xs ys : List Lexeme}
    {bracket : Bracket} (h : Spaced (xs ++ .close bracket :: ys) (lexemes.map Prod.snd)) :
    ∃ inside q after, lexemes = inside ++ (q, .close bracket) :: after ∧
      Spaced xs (inside.map Prod.snd) ∧ Spaced ys (after.map Prod.snd) := by
  obtain ⟨zs₁, zs₂, hzs, h₁, h₂⟩ := h.split
  obtain ⟨inside, rest, rfl, rfl, rfl⟩ := List.map_eq_append_iff.mp hzs
  obtain ⟨q, after, ⟨rfl, hafter⟩ | ⟨-, hclose, -⟩⟩ := h₂.cons_cases
  · exact ⟨inside, q, after, rfl, h₁, hafter⟩
  · exact absurd rfl (hclose bracket)

namespace Token

/-- The tokens that are read where tokens are written: the same tokens at other places, with empty
comments before some of them. -/
inductive Settled : List Token → List Token → Prop
  | nil : Settled [] []
  | comment (p : Place) {t : Token} {ts ts' : List Token} (h : Settled (t :: ts) ts') :
      Settled (t :: ts) (.atom p (.comment []) :: ts')
  | atom (p p' : Place) (a : Atom) {ts ts' : List Token} (h : Settled ts ts') :
      Settled (.atom p a :: ts) (.atom p' a.reread :: ts')
  | function (p p' : Place) (name : List Char) {args args' ts ts' : List Token}
      (hargs : Settled args args') (h : Settled ts ts') :
      Settled (.function p name args :: ts) (.function p' name args' :: ts')
  | block (p p' : Place) (bracket : Bracket) {content content' ts ts' : List Token}
      (hcontent : Settled content content') (h : Settled ts ts') :
      Settled (.block p bracket content :: ts) (.block p' bracket content' :: ts')
  | stray (p p' : Place) (bracket : Bracket) {ts ts' : List Token} (h : Settled ts ts') :
      Settled (.stray p bracket :: ts) (.stray p' bracket :: ts')

namespace Builder

private theorem step_close (frame : Frame) (frames : List Frame) (current : List Token) (p : Place) :
    step ⟨frame :: frames, current⟩ (p, .close frame.opener.bracket) =
      ⟨frames, frame.opener.close frame.start current.reverse :: frame.before⟩ := by
  simp [step]

private theorem step_stray {b : Builder} {bracket : Bracket} (p : Place)
    (h : outer b.frames ≠ some bracket) : b.step (p, .close bracket) = b.push (.stray p bracket) := by
  obtain ⟨frames, current⟩ := b
  cases frames with
  | nil => rfl
  | cons frame frames =>
      have hne : frame.opener.bracket ≠ bracket := fun heq => h (congrArg some heq)
      simp [step, hne]

/-- What is read inside an opened token closes with it. -/
theorem foldl_step_opened {b : Builder} {o : Opener} {args' : List Token}
    {inside after : List (Place × Lexeme)} (p q : Place)
    (hinside : inside.foldl Builder.step (b.openToken p o) =
      ⟨(b.openToken p o).frames, args'.reverse ++ (b.openToken p o).current⟩) :
    (inside ++ (q, .close o.bracket) :: after).foldl Builder.step (b.openToken p o) =
      after.foldl Builder.step (b.push (o.close p args')) := by
  rw [List.foldl_append, hinside, List.foldl_cons]
  have hclose := step_close ⟨p, o, b.current⟩ b.frames args'.reverse q
  simp only [openToken, List.append_nil]
  rw [hclose, List.reverse_reverse]
  rfl

/-- Nesting what is written for nested tokens gives the tokens again. -/
theorem foldl_step_spaced {ts : List Token} {lexemes : List (Place × Lexeme)} {b : Builder}
    (h : Spaced (rows ts) (lexemes.map Prod.snd)) (hnested : areNestedIn (outer b.frames) ts = true) :
    ∃ ts', Settled ts ts' ∧
      lexemes.foldl Builder.step b = ⟨b.frames, ts'.reverse ++ b.current⟩ := by
  induction hn : lexemes.length using Nat.strongRecOn generalizing ts lexemes b with
  | ind n ih =>
      -- The first lexeme is a comment that has been added, or the first one of a token.
      have after_comment {t : Token} {ts : List Token} {p : Place} {rest : List (Place × Lexeme)}
          (hlexemes : lexemes = (p, .atom (.comment [])) :: rest)
          (hrest : Spaced (rows (t :: ts)) (rest.map Prod.snd))
          (hnested : areNestedIn (outer b.frames) (t :: ts) = true) :
          ∃ ts', Settled (t :: ts) ts' ∧
            lexemes.foldl Builder.step b = ⟨b.frames, ts'.reverse ++ b.current⟩ := by
        subst hlexemes
        obtain ⟨ts', hsettled, hfold⟩ := ih rest.length (by rw [← hn]; simp)
          (b := b.push (.atom p (.comment []))) hrest hnested rfl
        refine ⟨_, .comment p hsettled, ?_⟩
        rw [List.foldl_cons]
        exact hfold.trans (by simp [push])
      have after_token {t t' : Token} {ts : List Token} {rest : List (Place × Lexeme)}
          (hrest : Spaced (rows ts) (rest.map Prod.snd)) (hlength : rest.length < n)
          (hnested : areNestedIn (outer b.frames) ts = true)
          (hsettled : ∀ ts', Settled ts ts' → Settled (t :: ts) (t' :: ts'))
          (hfold : lexemes.foldl Builder.step b = rest.foldl Builder.step (b.push t')) :
          ∃ ts', Settled (t :: ts) ts' ∧
            lexemes.foldl Builder.step b = ⟨b.frames, ts'.reverse ++ b.current⟩ := by
        obtain ⟨ts', hts', hfold'⟩ := ih rest.length hlength (b := b.push t') hrest hnested rfl
        refine ⟨_, hsettled ts' hts', ?_⟩
        rw [hfold, hfold']
        simp [push]
      cases ts with
      | nil =>
          cases lexemes with
          | nil => exact ⟨[], .nil, rfl⟩
          | cons l ls => cases h
      | cons t ts =>
          obtain ⟨ht, hts⟩ := areNestedIn_cons_iff.mp hnested
          cases t with
          | atom p a =>
              obtain ⟨q, rest, ⟨rfl, hrest⟩ | ⟨hlexemes, -, hrest⟩⟩ := Spaced.cons_cases h
              · exact after_token hrest (by rw [← hn]; simp) hts (fun _ => .atom p q a) rfl
              · exact after_comment hlexemes hrest hnested
          | stray p bracket =>
              obtain ⟨q, rest, ⟨rfl, hrest⟩ | ⟨-, hclose, -⟩⟩ := Spaced.cons_cases h
              · refine after_token hrest (by rw [← hn]; simp) hts (fun _ => .stray p q bracket) ?_
                rw [List.foldl_cons, ← step_stray q (by simpa [isNestedIn] using ht)]
                rfl
              · exact absurd rfl (hclose bracket)
          | function p name args =>
              rw [rows_function] at h
              obtain ⟨q, rest, ⟨rfl, hrest⟩ | ⟨hlexemes, -, hrest⟩⟩ := Spaced.cons_cases h
              · obtain ⟨inside, q', after, rfl, hinside, hafter⟩ := Spaced.exists_close hrest
                obtain ⟨args', hargs, hfold⟩ := ih inside.length (by rw [← hn]; simp)
                  (b := b.openToken q (.function name)) hinside ht rfl
                refine after_token hafter (by rw [← hn]; simp; omega) hts
                  (fun _ => .function p q name hargs) ?_
                exact foldl_step_opened q q' hfold
              · exact after_comment hlexemes (by rwa [rows_function]) hnested
          | block p bracket content =>
              rw [rows_block] at h
              obtain ⟨q, rest, ⟨rfl, hrest⟩ | ⟨hlexemes, -, hrest⟩⟩ := Spaced.cons_cases h
              · obtain ⟨inside, q', after, rfl, hinside, hafter⟩ := Spaced.exists_close hrest
                obtain ⟨content', hcontent, hfold⟩ := ih inside.length (by rw [← hn]; simp)
                  (b := b.openToken q (.block bracket)) hinside ht rfl
                refine after_token hafter (by rw [← hn]; simp; omega) hts
                  (fun _ => .block p q bracket hcontent) ?_
                exact foldl_step_opened q q' hfold
              · exact after_comment hlexemes (by rwa [rows_block]) hnested

end Builder

end Token

end MediaSplit.Css
