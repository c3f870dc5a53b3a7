/-! A sequence of steps that may fail succeeds only where all of its steps do. -/

namespace CivilTime

variable {ε α β : Type} {first : Except ε α} {rest : α → Except ε β}

/-- A sequence succeeds where its first step and what follows it succeed. -/
theorem bind_eq_ok {result : β}
    : (first >>= rest) = .ok result ↔ ∃ value, first = .ok value ∧ rest value = .ok result := by
  cases first <;> simp [bind, Except.bind]

/-- A sequence fails where its first step or what follows it fails. -/
theorem bind_eq_error {fault : ε}
    : (first >>= rest) = .error fault
      ↔ first = .error fault ∨ ∃ value, first = .ok value ∧ rest value = .error fault := by
  cases first <;> simp [bind, Except.bind]

/-- A step that only returns a value succeeds with it. -/
theorem pure_eq_ok {value result : α}
    : (pure value : Except ε α) = .ok result ↔ value = result := by
  simp [pure, Except.pure]

/-- A step that only returns a value never fails. -/
theorem pure_ne_error {value : α} {fault : ε} : (pure value : Except ε α) ≠ .error fault := by
  simp [pure, Except.pure]

/-- A step whose value is changed afterwards succeeds where it does. -/
theorem map_eq_ok {change : α → β} {result : β}
    : first.map change = .ok result ↔ ∃ value, first = .ok value ∧ change value = result := by
  cases first <;> simp [Except.map]

/-- The value that is left of an outcome is what it succeeds with. -/
theorem mem_toOption {outcome : Except ε α} {value : α}
    : value ∈ outcome.toOption ↔ outcome = .ok value := by
  cases outcome <;> simp [Except.toOption]

/-- What is left of a sequence is what is left of its steps. -/
theorem toOption_bind (first : Except ε α) (rest : α → Except ε β)
    : (first >>= rest).toOption = first.toOption.bind fun value => (rest value).toOption := by
  cases first <;> rfl

end CivilTime
