-- Two programs that fail together. The second one may stop for other reasons too; as long as it
-- follows the first one it does not, and their results are related.
import Mathlib.Tactic

namespace ics_labs.follows

variable {α β γ δ ε : Type}

/-- The first program gives nothing and the second one stops with `bad`, or both give results,
and these are related. -/
inductive Follows (R : α → β → Prop) (bad : ε) : Option α → Except ε β → Prop
  | failed : Follows R bad none (.error bad)
  | took {a : α} {b : β} (h : R a b) : Follows R bad (some a) (.ok b)

variable {R : α → β → Prop} {S : γ → δ → Prop} {bad : ε}

@[simp] theorem ok_bind (b : β) (g : β → Except ε δ) : (Except.ok b >>= g) = g b := rfl

@[simp] theorem error_bind (e : ε) (g : β → Except ε δ) : (Except.error e >>= g) = .error e := rfl

/-- The programs go on alike. -/
theorem Follows.bind {o : Option α} {x : Except ε β} (h : Follows R bad o x) {f : α → Option γ}
    {g : β → Except ε δ} (hk : ∀ a b, R a b → Follows S bad (f a) (g b)) :
    Follows S bad (o.bind f) (x >>= g) := by
  cases h with
  | failed => exact .failed
  | took hab => exact hk _ _ hab

/-- The programs branch alike. -/
theorem Follows.ite {p q : Prop} [Decidable p] [Decidable q] {o o' : Option α} {x x' : Except ε β}
    (hpq : p ↔ q) (h : q → Follows R bad o x) (h' : ¬ q → Follows R bad o' x') :
    Follows R bad (if p then o else o') (if q then x else x') := by
  by_cases hq : q
  · rw [if_pos hq, if_pos (hpq.mpr hq)]
    exact h hq
  · rw [if_neg hq, if_neg fun hp => hq (hpq.mp hp)]
    exact h' hq

/-- A program that follows another one with the same results is that one. -/
theorem Follows.eq {o : Option α} {x : Except ε α} (h : Follows Eq bad o x) :
    x = o.elim (.error bad) .ok := by
  cases h with
  | failed => rfl
  | took hab =>
    subst hab
    rfl

/-! ## A program that checks what it does -/

variable {σ φ : Type} {fault : φ → ε} {outside : ε}

/-- The first program is the second one where the condition holds, its faults wrapped, and stops
with `outside` elsewhere. -/
def Guarded (fault : φ → ε) (outside : ε) (P : Prop) (x : Except ε α) (y : Except φ α) : Prop :=
  P ∧ x = y.mapError fault ∨ ¬ P ∧ x = .error outside

theorem Guarded.congr {P Q : Prop} {x : Except ε α} {y : Except φ α}
    (h : Guarded fault outside Q x y) (hpq : P ↔ Q) : Guarded fault outside P x y := by
  unfold Guarded
  rwa [hpq]

theorem Guarded.ne_outside_iff (hne : ∀ f, fault f ≠ outside) {P : Prop} {x : Except ε α}
    {y : Except φ α} (h : Guarded fault outside P x y) : x ≠ .error outside ↔ P := by
  rcases h with ⟨hp, rfl⟩ | ⟨hp, rfl⟩
  · refine iff_of_true ?_ hp
    cases y with
    | ok a => exact fun he => by cases he
    | error f => exact fun he => hne f (Except.error.inj he)
  · exact iff_of_false (fun he => he rfl) hp

/-- A loop over a list whose turns check what they do: it stops with `outside` unless every turn
that it comes to meets its condition, in the state that the turns before it leave. -/
theorem guarded_foldlM {f : σ → α → Except ε σ} {g : σ → β → Except φ σ} {m : α → β}
    {P : σ → α → Prop} {l : List α}
    (h : ∀ a ∈ l, ∀ st, Guarded fault outside (P st a) (f st a) (g st (m a))) (st : σ) :
    Guarded fault outside (∀ front a back st', l = front ++ a :: back →
        (front.map m).foldlM g st = .ok st' → P st' a)
      (l.foldlM f st) ((l.map m).foldlM g st) := by
  induction l generalizing st with
  | nil => exact Or.inl ⟨fun front a back st' he => by simp at he, rfl⟩
  | cons a l ih =>
    rw [List.map_cons, List.foldlM_cons, List.foldlM_cons]
    rcases h a (by simp) st with ⟨hp, hf⟩ | ⟨hp, hf⟩
    · rw [hf]
      cases hg : g st (m a) with
      | error e =>
        refine Or.inl ⟨fun front b back st' he hrun => ?_, rfl⟩
        cases front with
        | nil =>
          obtain ⟨rfl, -⟩ := List.cons.inj he
          cases hrun
          exact hp
        | cons c front =>
          obtain ⟨rfl, -⟩ := List.cons.inj he
          rw [List.map_cons, List.foldlM_cons, hg] at hrun
          cases hrun
      | ok st₁ =>
        refine (ih (fun b hb => h b (List.mem_cons_of_mem _ hb)) st₁).congr ?_
        constructor
        · intro hall front b back st' he hrun
          refine hall (a :: front) b back st' (by rw [he]; rfl) ?_
          rw [List.map_cons, List.foldlM_cons, hg]
          exact hrun
        · intro hall front b back st' he hrun
          cases front with
          | nil =>
            obtain ⟨rfl, -⟩ := List.cons.inj he
            cases hrun
            exact hp
          | cons c front =>
            obtain ⟨rfl, hl⟩ := List.cons.inj he
            rw [List.map_cons, List.foldlM_cons, hg] at hrun
            exact hall front b back st' hl hrun
    · rw [hf]
      exact Or.inr ⟨fun hall => hp (hall [] a l st rfl rfl), rfl⟩

end ics_labs.follows
