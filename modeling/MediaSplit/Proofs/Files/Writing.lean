import MediaSplit.Proofs.Files.Opening

/-!
How an attempt to write a text ends. There are three ways: the file was not opened and nothing is
lost, it was opened but the text has no bytes in the encoding and the file is empty, or the file
holds all the bytes of the text. After any number of attempts each place still has its old content
or what the last attempt on it has left.
-/

namespace MediaSplit

namespace FileTree

open MediaSplit.Path

def content? (t : FileTree) (place : Location) : Option (List UInt8) :=
  match t.entry? place with
  | some (.file content) => some content
  | _ => none

theorem Changes.content? {files directories : List Location} {t t' : FileTree}
    (h : Changes files directories t t') {place : Location} (hplace : place ∉ files) :
    t'.content? place = t.content? place := by
  unfold FileTree.content?
  rcases h.kept place hplace with hsame | ⟨hnone, hdir, -⟩
  · rw [hsame]
  · rw [hnone, hdir]

theorem read_eq_ok_iff (t : FileTree) (path : String) (content : List UInt8) :
    t.read path = .ok content ↔
      path.toList.contains '\x00' = false ∧ asksForDirectory path = false ∧
        t.locate path = .ok (t.placeOf path) ∧
        t.entry? (t.placeOf path) = some (.file content) := by
  unfold read onPath
  cases hnul : path.toList.contains '\x00' with
  | true => simp
  | false =>
      simp only [find]
      cases hlocate : t.locate path with
      | error trouble => simp [bind, Except.bind]
      | ok place =>
          have hplace := ((locate_eq_ok_iff t path place).mp hlocate).1
          subst hplace
          cases hentry : t.entry? (t.placeOf path) with
          | none => simp [hentry, bind, Except.bind]
          | some e =>
              cases e with
              | directory => simp [hentry, bind, Except.bind]
              | file bytes =>
                  cases hasks : asksForDirectory path <;> simp [hentry, bind, Except.bind]

/-- Files that can be read at one place have one content. -/
theorem content_eq_of_placeOf_eq {t : FileTree} {path other : String}
    {content content' : List UInt8} (hplace : t.placeOf path = t.placeOf other)
    (h : t.read path = .ok content) (h' : t.read other = .ok content') : content' = content := by
  obtain ⟨-, -, -, hentry⟩ := (read_eq_ok_iff t path content).mp h
  obtain ⟨-, -, -, hentry'⟩ := (read_eq_ok_iff t other content').mp h'
  rw [hplace, hentry'] at hentry
  exact Entry.file.inj (Option.some.inj hentry)

/-- A file that can be read can be written. -/
theorem opens_of_read {t : FileTree} {path : String} {content : List UInt8}
    (h : t.read path = .ok content) : t.Opens path := by
  obtain ⟨hnul, hasks, hlocate, hentry⟩ := (read_eq_ok_iff t path content).mp h
  exact opens_of_locate hnul hasks hlocate (by simp [hentry])

/-- The way to a file that can be read starts in a directory. -/
theorem start_of_read {t : FileTree} {path : String} {content : List UInt8}
    (h : t.read path = .ok content) : t.entry? (t.startOf path.toList) = some .directory := by
  obtain ⟨-, hasks, hlocate, -⟩ := (read_eq_ok_iff t path content).mp h
  obtain ⟨-, hne, -, hopen⟩ := (locate_eq_ok_iff t path _).mp hlocate
  rw [names_eq_append, names_of_nameOf (nameOf_ne_nil_of_file hne hasks)] at hopen
  cases hnames : names (directoryOf path.toList) with
  | nil =>
      rw [hnames] at hopen
      exact hopen.1
  | cons first rest =>
      rw [hnames] at hopen
      exact hopen.1

theorem content?_eq_some_iff (t : FileTree) (place : Location) (content : List UInt8) :
    t.content? place = some content ↔ t.entry? place = some (.file content) := by
  unfold content?
  cases t.entry? place with
  | none => simp
  | some e => cases e <;> simp

/-- What is read from a path can still be read as long as the file there keeps its content. -/
theorem Changes.read_of_content? {files directories : List Location} {t t' : FileTree}
    (h : Changes files directories t t') {path : String} {content : List UInt8}
    (hread : t.read path = .ok content)
    (hsame : t'.content? (t.placeOf path) = t.content? (t.placeOf path)) :
    t'.read path = .ok content := by
  rw [read_eq_ok_iff] at hread ⊢
  obtain ⟨hnul, hasks, hlocate, hentry⟩ := hread
  rw [h.placeOf]
  refine ⟨hnul, hasks, h.locate hlocate, ?_⟩
  rw [← content?_eq_some_iff] at hentry ⊢
  rw [hsame, hentry]

/-- A file that no write is about keeps its content. -/
theorem Changes.read {files directories : List Location} {t t' : FileTree}
    (h : Changes files directories t t') {path : String} {content : List UInt8}
    (hread : t.read path = .ok content) (hplace : t.placeOf path ∉ files) :
    t'.read path = .ok content :=
  h.read_of_content? hread (h.content? hplace)

/-- A file that can be read can still be read after changes, whatever it holds then. -/
theorem Changes.readable {files directories : List Location} {t t' : FileTree}
    (h : Changes files directories t t') {path : String} {content : List UInt8}
    (hread : t.read path = .ok content) : ∃ content', t'.read path = .ok content' := by
  obtain ⟨hnul, hasks, hlocate, hentry⟩ := (read_eq_ok_iff t path content).mp hread
  obtain ⟨content', hentry'⟩ := h.fileStays _ content hentry
  refine ⟨content', (read_eq_ok_iff t' path content').mpr ⟨hnul, hasks, ?_, ?_⟩⟩
  · rw [h.placeOf]
    exact h.locate hlocate
  · rw [h.placeOf, hentry']

/-- A file holds what was put there, if the way to it is open. -/
theorem read_put {t : FileTree} {path : String} (hnul : path.toList.contains '\x00' = false)
    (hasks : asksForDirectory path = false) (hlocate : t.locate path = .ok (t.placeOf path))
    (hentry : t.entry? (t.placeOf path) ≠ some .directory) (content : List UInt8) :
    (t.put (t.placeOf path) (.file content)).read path = .ok content := by
  have hchanges := changes_put_file hentry content
  rw [read_eq_ok_iff]
  refine ⟨hnul, hasks, ?_, ?_⟩
  · rw [hchanges.placeOf]
    exact hchanges.locate hlocate
  · rw [hchanges.placeOf, entry?_put t (ne_nil_of_entry?_ne_directory hentry), if_pos rfl]

end FileTree

namespace TextFile

open FileTree

/-- That an encoding keeps back nothing of a text when it is written to a file. -/
def IsWhole [Codecs] (encoding text : String) : Prop :=
  written encoding text = encode encoding text

/-- The encodings that are built in keep nothing back. -/
theorem isWhole_of_builtIn [Codecs] {encoding : String} {e : Encoding}
    (h : encodingOf encoding = .ok e) (hbuiltIn : ∀ name, e ≠ .other name) (text : String) :
    IsWhole encoding text := by
  unfold IsWhole written encode
  rw [h]
  cases e with
  | other name => exact absurd rfl (hbuiltIn name)
  | _ => rfl

/-- That a file holds a text: what its encoding writes of it, and so all of it where the encoding
keeps nothing back. -/
def Holds [Codecs] (t : FileTree) (encoding path text : String) : Prop :=
  ∃ bytes, written encoding text = .ok bytes ∧ t.read path = .ok bytes ∧
    (IsWhole encoding text → encode encoding text = .ok bytes)

theorem holds_of_read [Codecs] {t : FileTree} {encoding path text : String} {bytes : List UInt8}
    (hwritten : written encoding text = .ok bytes) (hread : t.read path = .ok bytes) :
    Holds t encoding path text :=
  ⟨bytes, hwritten, hread, fun hwhole => hwhole.symm.trans hwritten⟩

theorem Holds.imp [Codecs] {t t' : FileTree} {encoding path text : String}
    (h : Holds t encoding path text)
    (hread : ∀ {bytes}, t.read path = .ok bytes → t'.read path = .ok bytes) :
    Holds t' encoding path text := by
  obtain ⟨bytes, hwritten, hholds, -⟩ := h
  exact holds_of_read hwritten (hread hholds)

inductive Outcome [Codecs] (t : FileTree) (encoding path text : String) :
    Except Fault Unit × FileTree → Prop where
  | unopened {fault : Fault} {t' : FileTree}
      (changes : Changes [] (t.parentsOf path) t t')
      (closed : checkName encoding = .error fault ∨ ∃ trouble, fault = .path trouble ∧
        (t.entry? (t.startOf path.toList) = some .directory → ¬ t.Opens path)) :
      Outcome t encoding path text (.error fault, t')
  | emptied {fault : Fault} {t' : FileTree} (opens : t.Opens path)
      (changes : Changes [t.placeOf path] (t.parentsOf path) t t')
      (empty : t'.read path = .ok [])
      (refused : written encoding text = .error fault) :
      Outcome t encoding path text (.error fault, t')
  | written {t' : FileTree} (named : checkName encoding = .ok ()) (opens : t.Opens path)
      (changes : Changes [t.placeOf path] (t.parentsOf path) t t')
      (full : Holds t' encoding path text) :
      Outcome t encoding path text (.ok (), t')

theorem write_outcome [Codecs] (t : FileTree) (encoding path text : String) :
    Outcome t encoding path text (write t encoding path text) := by
  have hparents := changes_makeParents t path
  have hopens (hstart : t.entry? (t.startOf path.toList) = some .directory) (h : t.Opens path) :=
    openForWriting_of_opens hstart h
  unfold write
  cases hmade : makeParents t path with
  | mk made t₁ =>
      simp only [hmade] at hparents hopens ⊢
      cases made with
      | error trouble =>
          refine .unopened hparents (Or.inr ⟨trouble, rfl, fun hstart h => ?_⟩)
          cases (hopens hstart h).1
      | ok _ =>
          simp only
          cases hname : checkName encoding with
          | error fault => exact .unopened hparents (Or.inl hname)
          | ok _ =>
              simp only
              cases hopen : t₁.openForWriting path with
              | error trouble =>
                  refine .unopened hparents (Or.inr ⟨trouble, rfl, fun hstart h => ?_⟩)
                  obtain ⟨-, opened, hopened⟩ := hopens hstart h
                  rw [hopen] at hopened
                  cases hopened
              | ok opened =>
                  obtain ⟨place, t₂⟩ := opened
                  obtain ⟨hnul, hasks, hlocate, hentry, rfl, rfl⟩ := openForWriting_eq_ok hopen
                  have hopens' := hparents.opens (opens_of_locate hnul hasks hlocate hentry)
                  have hsame := hparents.placeOf path
                  have hempty := read_put hnul hasks hlocate hentry []
                  have hopened := changes_put_file hentry []
                  have hne := ne_nil_of_entry?_ne_directory hentry
                  have hentry₂ : FileTree.entry? (t₁.put (t₁.placeOf path) (.file []))
                      (t₁.placeOf path) ≠ some .directory := by
                    rw [entry?_put t₁ hne, if_pos rfl]
                    simp
                  have hbefore : Changes [t.placeOf path] (t.parentsOf path) t
                      (t₁.put (t₁.placeOf path) (.file [])) :=
                    (hparents.mono (List.nil_subset _) (List.Subset.refl _)).trans
                      (hopened.mono (by simp [hsame]) (List.nil_subset _))
                  simp only [fill]
                  cases hwritten : written encoding text with
                  | error fault => exact .emptied hopens' hbefore hempty hwritten
                  | ok bytes =>
                      have hlocate₂ := hopened.locate hlocate
                      have hfull := read_put hnul hasks
                        (by rw [hopened.placeOf]; exact hlocate₂)
                        (by rw [hopened.placeOf]; exact hentry₂) bytes
                      rw [hopened.placeOf] at hfull
                      refine .written hname hopens' (hbefore.trans ?_)
                        (holds_of_read hwritten hfull)
                      exact (changes_put_file hentry₂ bytes).mono (by simp [hsame])
                        (List.nil_subset _)

theorem isOfWriting_of_checkName {encoding : String} {fault : Fault}
    (h : checkName encoding = .error fault) : fault.isOfWriting = false := by
  unfold checkName at h
  split at h
  · rw [← Except.error.inj h]
    rfl
  · cases h

theorem checkName_of_write [Codecs] {t : FileTree} {encoding path text : String}
    (h : (write t encoding path text).1 = .ok ()) : checkName encoding = .ok () := by
  have houtcome := write_outcome t encoding path text
  generalize write t encoding path text = result at h houtcome
  cases houtcome with
  | unopened changes closed => cases h
  | emptied opens changes empty refused => cases h
  | written named opens changes full => exact named

structure Rewritten [Codecs] (orders : List (String × String)) (encoding : String)
    (t t' : FileTree) : Prop where
  changes : Changes (orders.map fun order => t.placeOf order.1)
    (orders.flatMap fun order => t.parentsOf order.1) t t'
  contents : ∀ place, t'.content? place = t.content? place ∨
    ∃ order ∈ orders, t.placeOf order.1 = place ∧
      (Holds t' encoding order.1 order.2 ∨
        t'.read order.1 = .ok [] ∧ ∃ fault, written encoding order.2 = .error fault)

namespace Rewritten

variable {orders : List (String × String)} {encoding : String} {t t' : FileTree}

theorem refl [Codecs] (orders : List (String × String)) (encoding : String) (t : FileTree) :
    Rewritten orders encoding t t :=
  ⟨Changes.refl _ _ _, fun _ => Or.inl rfl⟩

theorem mono [Codecs] {orders' : List (String × String)} (h : Rewritten orders encoding t t')
    (hsub : orders ⊆ orders') : Rewritten orders' encoding t t' where
  changes := by
    refine h.changes.mono (List.map_subset _ hsub) fun place hplace => ?_
    obtain ⟨order, horder, hmem⟩ := List.mem_flatMap.mp hplace
    exact List.mem_flatMap.mpr ⟨order, hsub horder, hmem⟩
  contents place := by
    rcases h.contents place with hsame | ⟨order, horder, hrest⟩
    · exact Or.inl hsame
    · exact Or.inr ⟨order, hsub horder, hrest⟩

/-- Changes elsewhere leave everything at a place as it was left. -/
private theorem contents_of_changes [Codecs] (h : Rewritten orders encoding t t') {t'' : FileTree}
    {files directories : List Location} (hchanges : Changes files directories t' t'')
    {place : Location} (hplace : place ∉ files) :
    t''.content? place = t.content? place ∨
    ∃ order ∈ orders, t.placeOf order.1 = place ∧
      (Holds t'' encoding order.1 order.2 ∨
        t''.read order.1 = .ok [] ∧ ∃ fault, written encoding order.2 = .error fault) := by
  rcases h.contents place with hsame | ⟨order, horder, hat, hleft⟩
  · exact Or.inl ((hchanges.content? hplace).trans hsame)
  · have helsewhere : t'.placeOf order.1 ∉ files := by
      rw [h.changes.placeOf, hat]
      exact hplace
    refine Or.inr ⟨order, horder, hat, ?_⟩
    rcases hleft with hholds | ⟨hread, hrefused⟩
    · exact Or.inl (hholds.imp fun hread => hchanges.read hread helsewhere)
    · exact Or.inr ⟨hchanges.read hread helsewhere, hrefused⟩

theorem write [Codecs] (h : Rewritten orders encoding t t') {path text : String}
    (hmem : (path, text) ∈ orders) :
    Rewritten orders encoding t (TextFile.write t' encoding path text).2 := by
  have hplaces : [t'.placeOf path] ⊆ orders.map fun order => t.placeOf order.1 := by
    intro place hplace
    rw [List.mem_singleton, h.changes.placeOf] at hplace
    exact List.mem_map.mpr ⟨_, hmem, hplace.symm⟩
  have hparents : t'.parentsOf path ⊆ orders.flatMap fun order => t.parentsOf order.1 := by
    intro place hplace
    rw [h.changes.parentsOf] at hplace
    exact List.mem_flatMap.mpr ⟨_, hmem, hplace⟩
  have houtcome := write_outcome t' encoding path text
  generalize TextFile.write t' encoding path text = result at houtcome ⊢
  cases houtcome with
  | unopened changes closed =>
      refine ⟨h.changes.trans (changes.mono (List.nil_subset _) hparents), fun place => ?_⟩
      exact h.contents_of_changes changes List.not_mem_nil
  | emptied opens changes empty refused =>
      refine ⟨h.changes.trans (changes.mono hplaces hparents), fun place => ?_⟩
      by_cases hat : place = t.placeOf path
      · exact Or.inr ⟨_, hmem, hat.symm, Or.inr ⟨empty, _, refused⟩⟩
      · exact h.contents_of_changes changes (by simpa [h.changes.placeOf] using hat)
  | written named opens changes full =>
      refine ⟨h.changes.trans (changes.mono hplaces hparents), fun place => ?_⟩
      by_cases hat : place = t.placeOf path
      · exact Or.inr ⟨_, hmem, hat.symm, Or.inl full⟩
      · exact h.contents_of_changes changes (by simpa [h.changes.placeOf] using hat)

theorem trans [Codecs] {orders' : List (String × String)} {t'' : FileTree}
    (first : Rewritten orders encoding t t') (second : Rewritten orders' encoding t' t'') :
    Rewritten (orders ++ orders') encoding t t'' where
  changes := by
    have hplaces : (fun order : String × String => t'.placeOf order.1) =
        fun order => t.placeOf order.1 := funext fun order => first.changes.placeOf order.1
    have hparents : (fun order : String × String => t'.parentsOf order.1) =
        fun order => t.parentsOf order.1 := funext fun order => first.changes.parentsOf order.1
    have hsecond := second.changes
    rw [hplaces, hparents] at hsecond
    rw [List.map_append, List.flatMap_append]
    exact (first.changes.mono (List.subset_append_left _ _) (List.subset_append_left _ _)).trans
      (hsecond.mono (List.subset_append_right _ _) (List.subset_append_right _ _))
  contents place := by
    rcases second.contents place with hsame | ⟨order, horder, hat, hleft⟩
    · rcases first.contents place with hsame' | ⟨order, horder, hat, hleft⟩
      · exact Or.inl (hsame.trans hsame')
      · have hat' : t'.placeOf order.1 = place := (first.changes.placeOf order.1).trans hat
        rw [← hat'] at hsame
        refine Or.inr ⟨order, List.mem_append_left _ horder, hat, ?_⟩
        rcases hleft with hholds | ⟨hread, hrefused⟩
        · exact Or.inl (hholds.imp fun hread => second.changes.read_of_content? hread hsame)
        · exact Or.inr ⟨second.changes.read_of_content? hread hsame, hrefused⟩
    · rw [first.changes.placeOf] at hat
      exact Or.inr ⟨order, List.mem_append_right _ horder, hat, hleft⟩

end Rewritten

end TextFile

end MediaSplit
