-- Commands over a state that may have no result, and the counting loop of C. `wp c Q s` says
-- that the command ends, with a result and a state of Q. The rules of `wp` run straight code
-- forwards, and a loop by what holds before each turn.
import Mathlib

namespace ics_labs.commands

variable {σ α β : Type}

/-- A command: from a state to a result and the state after it, or to nothing. -/
abbrev Command (σ α : Type) := StateT σ Option α

/-- From `s` the command ends, and `Q` holds of its result and of the state after it. -/
def wp (c : Command σ α) (Q : α → σ → Prop) (s : σ) : Prop :=
  ∃ a s', c s = some (a, s') ∧ Q a s'

@[simp] theorem wp_pure {Q : α → σ → Prop} {a : α} {s : σ} :
    wp (pure a) Q s ↔ Q a s := by
  constructor
  · rintro ⟨b, t, h, hQ⟩
    cases h
    exact hQ
  · exact fun hQ => ⟨a, s, rfl, hQ⟩

@[simp] theorem wp_bind {c : Command σ α} {f : α → Command σ β} {Q : β → σ → Prop} {s : σ} :
    wp (c >>= f) Q s ↔ wp c (fun a => wp (f a) Q) s := by
  constructor
  · rintro ⟨b, t, h, hQ⟩
    obtain ⟨⟨a, s'⟩, ha, hb⟩ := Option.bind_eq_some_iff.mp h
    exact ⟨a, s', ha, b, t, hb, hQ⟩
  · rintro ⟨a, s', ha, b, t, hb, hQ⟩
    exact ⟨b, t, Option.bind_eq_some_iff.mpr ⟨(a, s'), ha, hb⟩, hQ⟩

theorem wp.mono {c : Command σ α} {P Q : α → σ → Prop} {s : σ} (h : wp c P s)
    (hPQ : ∀ a t, P a t → Q a t) : wp c Q s := by
  obtain ⟨a, t, hc, hP⟩ := h
  exact ⟨a, t, hc, hPQ a t hP⟩

/-! ## The counting loop -/

/-- `for (k = lo; k < hi; k += d) body` -/
def for_loop (lo hi d : Nat) [NeZero d] (body : Nat → Command σ Unit) : Command σ Unit :=
  if lo < hi then do
    body lo
    for_loop (lo + d) hi d body
  else pure ()
termination_by hi - lo
decreasing_by
  have := NeZero.ne d
  omega

/-- The rule of the loop: what holds before a turn, with `k` its counter, holds before the
next one, and behind the loop the counter is past the bound. -/
theorem wp_for {lo hi d : Nat} [NeZero d] {body : Nat → Command σ Unit} {s : σ}
    {I : Nat → σ → Prop} (h0 : I lo s)
    (hturn : ∀ k t, lo ≤ k → k < hi → d ∣ k - lo → I k t → wp (body k) (fun _ => I (k + d)) t) :
    wp (for_loop lo hi d body) (fun _ t => ∃ k, hi ≤ k ∧ I k t) s := by
  induction hn : hi - lo using Nat.strong_induction_on generalizing lo s with
  | _ n ih =>
    rw [for_loop]
    split_ifs with hlt
    · rw [wp_bind]
      have hd := NeZero.ne d
      refine (hturn lo s le_rfl hlt (by simp) h0).mono fun _ t ht => ?_
      refine ih (hi - (lo + d)) (by omega) ht (fun k t hk hki hdiv => ?_) rfl
      refine hturn k t (by omega) hki ?_
      obtain ⟨m, hm⟩ := hdiv
      exact ⟨m + 1, by rw [Nat.mul_succ]; omega⟩
    · exact wp_pure.mpr ⟨lo, by omega, h0⟩

end ics_labs.commands
