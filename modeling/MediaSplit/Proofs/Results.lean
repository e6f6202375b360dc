/-!
What can be said of a computation that may fail, once its result is known.
-/

namespace MediaSplit

variable {ε ε' α β : Type} {x : Except ε α} {next : α → Except ε β}

theorem bind_eq_ok {b : β} : (x >>= next) = .ok b ↔ ∃ a, x = .ok a ∧ next a = .ok b := by
  cases x <;> simp [bind, Except.bind]

theorem bind_eq_error {fault : ε} : (x >>= next) = .error fault ↔
    x = .error fault ∨ ∃ a, x = .ok a ∧ next a = .error fault := by
  cases x <;> simp [bind, Except.bind]

theorem mapError_eq_ok {f : ε → ε'} {a : α} : x.mapError f = .ok a ↔ x = .ok a := by
  cases x with
  | error fault => exact iff_of_false nofun nofun
  | ok found =>
      constructor
      · exact fun h => congrArg Except.ok (Except.ok.inj h)
      · exact fun h => congrArg Except.ok (Except.ok.inj h)

theorem eq_ok_of_toOption {a : α} (h : x.toOption = some a) : x = .ok a := by
  cases x with
  | error fault => cases h
  | ok found => exact congrArg Except.ok (Option.some.inj h)

/-- A value that is known to be there is known by what is made of it. -/
theorem exists_of_toOption_map {f : α → β} {b : β} (h : x.toOption.map f = some b) :
    ∃ a, x = .ok a ∧ f a = b := by
  obtain ⟨a, ha, hb⟩ := Option.map_eq_some_iff.mp h
  exact ⟨a, eq_ok_of_toOption ha, hb⟩

end MediaSplit
