-- A small program logic over runs: `Leads step P Q` says that from every state of P
-- the machine reaches a state of Q. The rules chain such facts together.
import IcsLabs.Runs

namespace ics_labs.runs

variable {α ι : Type} {step : α → Option α} {P Q R : α → Prop}

/-- From every state of `P` the machine gets to a state of `Q`. -/
def Leads (step : α → Option α) (P Q : α → Prop) : Prop :=
  ∀ a, P a → ∃ n b, iter step n a = some b ∧ Q b

theorem Leads.refl : Leads step P P := fun a ha => ⟨0, a, rfl, ha⟩

/-- No step is needed where one condition gives the other. -/
theorem Leads.of_imp (h : ∀ a, P a → Q a) : Leads step P Q := fun a ha => ⟨0, a, rfl, h a ha⟩

theorem Leads.of_step (h : ∀ a, P a → ∃ b, step a = some b ∧ Q b) : Leads step P Q := by
  intro a ha
  obtain ⟨b, hb, hQ⟩ := h a ha
  exact ⟨1, b, by rw [iter_succ, hb]; rfl, hQ⟩

theorem Leads.trans (h : Leads step P Q) (h' : Leads step Q R) : Leads step P R := by
  intro a ha
  obtain ⟨n, b, hb, hQ⟩ := h a ha
  obtain ⟨k, c, hc, hR⟩ := h' b hQ
  exact ⟨n + k, c, by rw [iter_add, hb]; exact hc, hR⟩

/-- A condition that names a value holds for one of its values. -/
theorem Leads.exists {P : ι → α → Prop} (h : ∀ i, Leads step (P i) Q) :
    Leads step (fun a => ∃ i, P i a) Q := by
  rintro a ⟨i, hi⟩
  exact h i a hi

/-- The rule of a loop: each turn takes one from the number that is left. -/
theorem Leads.loop {P : Nat → α → Prop} (hturn : ∀ n, Leads step (P (n + 1)) (P n)) (n : Nat) :
    Leads step (P n) (P 0) := by
  induction n with
  | zero => exact Leads.refl
  | succ n ih => exact (hturn n).trans ih

end ics_labs.runs
