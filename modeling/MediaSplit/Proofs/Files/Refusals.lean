import MediaSplit.Proofs.Files.Writing

/-!
What a write can fail with. Only a null character makes a path none at all; with any other path the
fault is one of the files on its way, or else one of the encoding.
-/

namespace MediaSplit

namespace FileTree

open MediaSplit.Path

theorem not_nul_of_ensureDirectory {t t' : FileTree} {path : List Char}
    (hclean : '\x00' ∉ path) : t.ensureDirectory (String.ofList path) ≠ (.error .nul, t') := by
  intro h
  rw [ensureDirectory_eq (by simpa using hclean)] at h
  cases hlocate : t.locate (String.ofList path) with
  | error trouble =>
      rw [hlocate] at h
      cases h
  | ok place =>
      rw [hlocate] at h
      simp only at h
      split at h <;> cases h

theorem not_nul_of_makeDirectories {t t' : FileTree} {path : List Char}
    (hclean : '\x00' ∉ path) : t.makeDirectories path ≠ (.error .nul, t') := by
  rw [makeDirectories]
  split
  · rename_i hmissing
    have hfront : '\x00' ∉ (splitPath path).1 := fun hmem =>
      hclean ((splitPath_sublist path).subset hmem)
    have hshorter := length_splitPath_lt hmissing.2.1
    cases hrun : t.makeDirectories (splitPath path).1 with
    | mk made u =>
        cases made with
        | ok _ =>
            simp only
            split
            · intro h
              cases h
            · exact not_nul_of_ensureDirectory hclean
        | error fault =>
            simp only
            split
            · split
              · intro h
                cases h
              · exact not_nul_of_ensureDirectory hclean
            · intro h
              obtain ⟨hfault, -⟩ := Prod.mk.inj h
              obtain rfl := Except.error.inj hfault
              exact not_nul_of_makeDirectories hfront hrun
  · exact not_nul_of_ensureDirectory hclean
termination_by path.length
decreasing_by exact hshorter

theorem not_nul_of_openForWriting {t : FileTree} {path : String}
    (hclean : '\x00' ∉ path.toList) : t.openForWriting path ≠ .error .nul := by
  intro h
  rw [openForWriting_eq (by simpa using hclean)] at h
  split at h
  · cases h
  · split at h
    · cases h
    · split at h <;> cases h

end FileTree

namespace TextFile

open FileTree

theorem not_nul_of_makeParents {t t' : FileTree} {path : String}
    (hclean : '\x00' ∉ path.toList) : makeParents t path ≠ (.error .nul, t') := by
  unfold makeParents
  simp only
  split
  · exact nofun
  · apply not_nul_of_makeDirectories
    intro hmem
    exact hclean ((Path.sublist_directoryOf path.toList).subset hmem)

/-- With a name that an encoding has, a text can only be one that the encoding does not have. -/
theorem isOfWriting_of_written [Codecs] {encoding text : String} {e : Encoding} {fault : Fault}
    (hencoding : encodingOf encoding = .ok e) (h : written encoding text = .error fault) :
    fault.isOfWriting = true := by
  unfold written at h
  rw [hencoding] at h
  simp only [bind, Except.bind] at h
  cases hbytes : e.written text.toList with
  | ok bytes =>
      rw [hbytes] at h
      cases h
  | error refused =>
      rw [hbytes] at h
      obtain rfl := Except.error.inj h
      rfl

/-- Where the encoding is there, a write fails for the place or for the text, or else its path has a
null character. -/
theorem isOfWriting_or_nul_of_write [Codecs] {t t' : FileTree} {encoding path text : String}
    {e : Encoding} {fault : Fault} (hname : checkName encoding = .ok ())
    (hencoding : encodingOf encoding = .ok e)
    (h : write t encoding path text = (.error fault, t')) :
    fault.isOfWriting = true ∨ fault = .path .nul ∧ '\x00' ∈ path.toList := by
  have hplace : ∀ trouble : PathFault, fault = .path trouble →
      ('\x00' ∉ path.toList → trouble ≠ .nul) →
      fault.isOfWriting = true ∨ fault = .path .nul ∧ '\x00' ∈ path.toList := by
    rintro trouble rfl hnul
    cases trouble with
    | trouble reason place => exact Or.inl rfl
    | nul =>
        refine Or.inr ⟨rfl, ?_⟩
        by_contra hclean
        exact hnul hclean rfl
  unfold write at h
  cases hmade : makeParents t path with
  | mk made t₁ =>
      rw [hmade] at h
      cases made with
      | error trouble =>
          obtain ⟨hfault, -⟩ := Prod.mk.inj h
          refine hplace trouble (Except.error.inj hfault).symm fun hclean heq => ?_
          rw [heq] at hmade
          exact not_nul_of_makeParents hclean hmade
      | ok _ =>
          simp only [hname] at h
          cases hopen : t₁.openForWriting path with
          | error trouble =>
              rw [hopen] at h
              obtain ⟨hfault, -⟩ := Prod.mk.inj h
              refine hplace trouble (Except.error.inj hfault).symm fun hclean heq => ?_
              rw [heq] at hopen
              exact not_nul_of_openForWriting hclean hopen
          | ok opened =>
              obtain ⟨place, t₂⟩ := opened
              rw [hopen] at h
              simp only [fill] at h
              cases hwritten : written encoding text with
              | error refused =>
                  rw [hwritten] at h
                  obtain ⟨hfault, -⟩ := Prod.mk.inj h
                  obtain rfl := Except.error.inj hfault
                  exact Or.inl (isOfWriting_of_written hencoding hwritten)
              | ok bytes =>
                  rw [hwritten] at h
                  cases h

end TextFile

end MediaSplit
