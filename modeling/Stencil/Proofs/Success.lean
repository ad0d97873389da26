/-!
# Runs that succeed

What a run that can fail and has succeeded says of the runs it is made of.
-/

namespace Stencil

theorem exists_of_bind_eq_ok {ε α β : Type} {x : Except ε α} {f : α → Except ε β} {b : β}
    (h : x >>= f = .ok b) : ∃ a, x = .ok a ∧ f a = .ok b := by
  cases x with
  | error e => cases h
  | ok a => exact ⟨a, rfl, h⟩

theorem exists_ok_of_map_eq_ok {ε α β : Type} {x : Except ε α} {f : α → β} {b : β}
    (h : x.map f = .ok b) : ∃ a, x = .ok a ∧ f a = b := by
  cases x with
  | error e => simp [Except.map] at h
  | ok a => exact ⟨a, rfl, Except.ok.inj h⟩

theorem eq_ok_of_toOption {ε α : Type} {x : Except ε α} {a : α} (h : x.toOption = some a) :
    x = .ok a := by
  cases x with
  | error e => cases h
  | ok b => rw [Option.some.inj h]

theorem exists_ok_of_bind_toOption {ε δ α β γ : Type} {x : Except ε α} {y : α → Except δ β}
    {f : α → β → γ} {c : γ}
    (h : (do let a ← x.toOption; let b ← (y a).toOption; return f a b) = some c) :
    ∃ a b, x = .ok a ∧ y a = .ok b ∧ f a b = c := by
  obtain ⟨a, ha, h⟩ := Option.bind_eq_some_iff.mp h
  obtain ⟨b, hb, h⟩ := Option.bind_eq_some_iff.mp h
  exact ⟨a, b, eq_ok_of_toOption ha, eq_ok_of_toOption hb, Option.some.inj h⟩

end Stencil
