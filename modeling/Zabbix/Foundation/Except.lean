/-!
# Results with errors

What follows from a successful result of a composition.
-/

namespace Zabbix

variable {ε α β : Type} {x : Except ε α} {b : β}

theorem bind_eq_ok {f : α → Except ε β} (h : x.bind f = .ok b) : ∃ a, x = .ok a ∧ f a = .ok b := by
  cases x with
  | error error => contradiction
  | ok a => exact ⟨a, rfl, h⟩

theorem map_eq_ok {f : α → β} (h : x.map f = .ok b) : ∃ a, x = .ok a ∧ f a = b := by
  cases x with
  | error error => contradiction
  | ok a => exact ⟨a, rfl, Except.ok.inj h⟩

end Zabbix
