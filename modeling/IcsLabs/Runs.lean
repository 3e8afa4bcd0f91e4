-- Runs of a machine: what holds of one step holds of any number of steps.
import Mathlib.Tactic

namespace ics_labs.runs

variable {α β : Type}

/-- `n` steps of a machine that may get stuck. -/
def iter (step : α → Option α) : Nat → α → Option α
  | 0, a => some a
  | n + 1, a => (step a).bind (iter step n)

@[simp] theorem iter_zero (step : α → Option α) (a : α) : iter step 0 a = some a := rfl

theorem iter_succ (step : α → Option α) (n : Nat) (a : α) :
    iter step (n + 1) a = (step a).bind (iter step n) := rfl

theorem iter_add (step : α → Option α) (n k : Nat) (a : α) :
    iter step (n + k) a = (iter step n a).bind (iter step k) := by
  induction n generalizing a with
  | zero => simp
  | succ n ih =>
    rw [Nat.succ_add, iter_succ, iter_succ, Option.bind_assoc]
    congr 1
    funext b
    exact ih b

/-- The last step of a run, split off. -/
theorem iter_snoc (step : α → Option α) (n : Nat) (a : α) :
    iter step (n + 1) a = (iter step n a).bind step := by
  rw [iter_add]
  congr 1
  funext b
  show (step b).bind some = step b
  simp

/-- A run gives a state after each of its steps. -/
theorem iter_prefix {step : α → Option α} {n k : Nat} {a c : α} (h : iter step n a = some c)
    (hk : k ≤ n) : ∃ b, iter step k a = some b ∧ iter step (n - k) b = some c := by
  obtain ⟨d, rfl⟩ := Nat.exists_eq_add_of_le hk
  rw [iter_add] at h
  obtain ⟨b, hb, hc⟩ := Option.bind_eq_some_iff.mp h
  exact ⟨b, hb, by simpa using hc⟩

/-- An invariant that a step keeps holds after any run. -/
theorem iter_invariant {step : α → Option α} {P : α → Prop}
    (hstep : ∀ a b, P a → step a = some b → P b) {n : Nat} {a b : α} (ha : P a)
    (h : iter step n a = some b) : P b := by
  induction n generalizing a with
  | zero =>
    cases h
    exact ha
  | succ n ih =>
    obtain ⟨c, hc, hb⟩ := Option.bind_eq_some_iff.mp h
    exact ih (hstep a c ha hc) hb

/-- Where one step of `f` is matched by one of `g`, a run of `f` is matched by a run of
`g` of the same length. -/
theorem iter_simulates {f : α → Option α} {g : β → Option β} {R : α → β → Prop}
    (hstep : ∀ a b a', R a b → f a = some a' → ∃ b', g b = some b' ∧ R a' b')
    {n : Nat} {a a' : α} {b : β} (hR : R a b) (h : iter f n a = some a') :
    ∃ b', iter g n b = some b' ∧ R a' b' := by
  induction n generalizing a b with
  | zero =>
    cases h
    exact ⟨b, rfl, hR⟩
  | succ n ih =>
    obtain ⟨c, hc, h⟩ := Option.bind_eq_some_iff.mp h
    obtain ⟨d, hd, hcd⟩ := hstep a b c hR hc
    obtain ⟨b', hb, hR'⟩ := ih hcd h
    exact ⟨b', by rw [iter_succ, hd]; exact hb, hR'⟩

/-- A machine that gets stuck after `n` steps makes no more. -/
theorem le_of_stuck {step : α → Option α} {n k : Nat} {a b c : α} (hc : iter step n a = some c)
    (hstuck : step c = none) (hb : iter step k a = some b) : k ≤ n := by
  by_contra hlt
  obtain ⟨j, rfl⟩ : ∃ j, k = n + (j + 1) := ⟨k - n - 1, by omega⟩
  rw [iter_add, hc, Option.bind_some, iter_succ, hstuck] at hb
  cases hb

/-- A machine that gets stuck at `c` passes every state of its run on the way to `c`. -/
theorem iter_stuck {step : α → Option α} {n k : Nat} {a b c : α} (hc : iter step n a = some c)
    (hstuck : step c = none) (hb : iter step k a = some b) : ∃ j, iter step j b = some c := by
  obtain ⟨b', hb', hj⟩ := iter_prefix hc (le_of_stuck hc hstuck hb)
  rw [hb] at hb'
  cases hb'
  exact ⟨n - k, hj⟩

/-- Where every step that does not end the run lowers a rank, the run ends. -/
theorem iter_ends {step : α → Option α} {P : Nat → α → Prop} {D : α → Prop}
    (hstep : ∀ n a, P n a → D a ∨ ∃ b k, step a = some b ∧ k < n ∧ P k b) {n : Nat} {a : α}
    (h : P n a) : ∃ k b, iter step k a = some b ∧ D b := by
  induction n using Nat.strong_induction_on generalizing a with
  | _ n ih =>
    rcases hstep n a h with hD | ⟨b, k, hb, hk, hP⟩
    · exact ⟨0, a, rfl, hD⟩
    · obtain ⟨j, c, hc, hD⟩ := ih k hk hP
      exact ⟨j + 1, c, by rw [iter_succ, hb]; exact hc, hD⟩

/-! ## Machines with inputs -/

variable {ι : Type}

/-- The run of a machine on a row of inputs. -/
def exec (step : α → ι → Option α) : α → List ι → Option α
  | a, [] => some a
  | a, i :: is => (step a i).bind fun b => exec step b is

theorem exec_append (step : α → ι → Option α) (a : α) (is js : List ι) :
    exec step a (is ++ js) = (exec step a is).bind fun b => exec step b js := by
  induction is generalizing a with
  | nil => rfl
  | cons i is ih =>
    rw [List.cons_append, exec, exec, Option.bind_assoc]
    congr 1
    funext b
    exact ih b

theorem exec_snoc {step : α → ι → Option α} {a b : α} {is : List ι} {i : ι} :
    exec step a (is ++ [i]) = some b ↔ ∃ c, exec step a is = some c ∧ step c i = some b := by
  rw [exec_append, Option.bind_eq_some_iff]
  apply exists_congr
  intro c
  change _ ∧ (step c i).bind some = some b ↔ _
  simp

/-- At every step of the run on `is`, the state and the input satisfy `C`. -/
def Along (step : α → ι → Option α) (C : α → ι → Prop) (a : α) (is : List ι) : Prop :=
  ∀ js i ks b, is = js ++ i :: ks → exec step a js = some b → C b i

/-- Every state that the run on `is` reaches satisfies `P`. -/
def Reaches (step : α → ι → Option α) (P : α → Prop) (a : α) (is : List ι) : Prop :=
  ∀ js ks b, is = js ++ ks → exec step a js = some b → P b

theorem Along.left {step : α → ι → Option α} {C : α → ι → Prop} {a : α} {is ks : List ι}
    (h : Along step C a (is ++ ks)) : Along step C a is :=
  fun js i ls b hj he => h js i (ls ++ ks) b (by rw [hj]; simp) he

theorem along_cons {step : α → ι → Option α} {C : α → ι → Prop} {a : α} {i : ι} {is : List ι}
    (hC : C a i) (h : ∀ b, step a i = some b → Along step C b is) : Along step C a (i :: is) := by
  intro js j ks b hj hb
  cases js with
  | nil =>
    cases hb
    cases hj
    exact hC
  | cons k js =>
    simp only [List.cons_append, List.cons.injEq] at hj
    obtain ⟨rfl, hj⟩ := hj
    obtain ⟨c, hc, hb⟩ := Option.bind_eq_some_iff.mp hb
    exact h c hc js j ks b hj hb

/-- The guard, checked along a run. -/
def checkAlong (step : α → ι → Option α) (C : α → ι → Prop) [∀ a i, Decidable (C a i)] :
    α → List ι → Bool
  | _, [] => true
  | a, i :: is => decide (C a i) && (step a i).all fun b => checkAlong step C b is

theorem along_of_check {step : α → ι → Option α} {C : α → ι → Prop}
    [∀ a i, Decidable (C a i)] {a : α} {is : List ι} (h : checkAlong step C a is = true) :
    Along step C a is := by
  induction is generalizing a with
  | nil =>
    intro js i ks b hj
    simp at hj
  | cons i is ih =>
    unfold checkAlong at h
    rw [Bool.and_eq_true, decide_eq_true_eq] at h
    apply along_cons h.1
    intro b hb
    apply ih
    have := h.2
    rw [hb] at this
    exact this

/-- What a step keeps under the guard `C` holds at the end of every guarded run. -/
theorem exec_invariant {step : α → ι → Option α} {P : α → Prop} {C : α → ι → Prop}
    (hstep : ∀ a i b, P a → C a i → step a i = some b → P b) {a b : α} {is : List ι}
    (ha : P a) (hC : Along step C a is) (h : exec step a is = some b) : P b := by
  induction is using List.reverseRecOn generalizing b with
  | nil =>
    cases h
    exact ha
  | append_singleton is i ih =>
    obtain ⟨c, hc, hb⟩ := exec_snoc.mp h
    exact hstep c i b (ih hC.left hc) (hC is i [] c rfl hc) hb

/-- And so it holds of every state on the way. -/
theorem reaches_invariant {step : α → ι → Option α} {P : α → Prop} {C : α → ι → Prop}
    (hstep : ∀ a i b, P a → C a i → step a i = some b → P b) {a : α} {is : List ι}
    (ha : P a) (hC : Along step C a is) : Reaches step P a is := by
  intro js ks b hjs hb
  subst hjs
  exact exec_invariant hstep ha hC.left hb

/-- Where every guarded step goes on and keeps the property, every guarded run goes on. -/
theorem exec_goes_on {step : α → ι → Option α} {P : α → Prop} {C : α → ι → Prop}
    (hstep : ∀ a i, P a → C a i → ∃ b, step a i = some b ∧ P b) {a : α} {is : List ι} (ha : P a)
    (hC : Along step C a is) : ∃ b, exec step a is = some b ∧ P b := by
  induction is using List.reverseRecOn with
  | nil => exact ⟨a, rfl, ha⟩
  | append_singleton is i ih =>
    obtain ⟨c, hc, hP⟩ := ih hC.left
    obtain ⟨b, hb, hPb⟩ := hstep c i hP (hC is i [] c rfl hc)
    exact ⟨b, exec_snoc.mpr ⟨c, hc, hb⟩, hPb⟩

/-! ## Partial correctness -/

/-- Every result of a computation that may fail satisfies `P`. -/
def Ends (P : α → Prop) (x : Option α) : Prop := ∀ a, x = some a → P a

theorem ends_some {P : α → Prop} {a : α} (h : P a) : Ends P (some a) := by
  rintro _ ⟨⟩
  exact h

theorem ends_none (P : α → Prop) : Ends P none := by
  rintro _ ⟨⟩

/-- The rule for a sequence. -/
theorem ends_bind {Q : β → Prop} {P : α → Prop} {x : Option β} {f : β → Option α} (hx : Ends Q x)
    (hf : ∀ b, Q b → Ends P (f b)) : Ends P (x.bind f) := by
  intro a ha
  obtain ⟨b, hb, hfa⟩ := Option.bind_eq_some_iff.mp ha
  exact hf b (hx b hb) a hfa

/-- The rule for a value of which nothing has to be known. -/
theorem ends_read {P : α → Prop} {x : Option β} {f : β → Option α} (hf : ∀ b, Ends P (f b)) :
    Ends P (x.bind f) := ends_bind (Q := fun _ => True) (fun _ _ => trivial) fun b _ => hf b

/-! ## Folds that may fail -/

theorem map_eq_ok {ε : Type} {x : Except ε α} {f : α → β} {b : β} (h : x.map f = .ok b) :
    ∃ a, x = .ok a ∧ f a = b := by
  cases x with
  | error e => cases h
  | ok a =>
    cases h
    exact ⟨a, rfl, rfl⟩

/-- What each turn of a loop keeps holds when the loop ends without an error. -/
theorem foldlM_invariant {ε : Type} {f : α → ι → Except ε α} {P : α → Prop} {is : List ι}
    (hstep : ∀ a, ∀ i ∈ is, ∀ b, P a → f a i = .ok b → P b) {a b : α} (ha : P a)
    (h : is.foldlM f a = .ok b) : P b := by
  induction is generalizing a with
  | nil =>
    cases h
    exact ha
  | cons i is ih =>
    rw [List.foldlM_cons] at h
    cases hf : f a i with
    | error e =>
      rw [hf] at h
      cases h
    | ok c =>
      rw [hf] at h
      exact ih (fun a j hj => hstep a j (List.mem_cons_of_mem i hj))
        (hstep a i List.mem_cons_self c ha hf) h

end ics_labs.runs
