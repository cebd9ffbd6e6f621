namespace EmbedScript

theorem Except.bind_eq_ok {f : α → Except ε β} (ran : (x >>= f) = .ok b) : ∃ a, x = .ok a ∧ f a = .ok b := by
  cases x with
  | error e => cases ran
  | ok a => exact ⟨a,rfl,ran⟩

end EmbedScript
