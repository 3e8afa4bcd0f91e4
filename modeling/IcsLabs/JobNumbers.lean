-- The job numbers of tsh.c over every row of additions and deletions. A number is
-- given out twice only when addjob counts on past a number that is still in use.
import IcsLabs.JobTable
import IcsLabs.Runs

open ics_labs.runs

namespace ics_labs.tsh

/-- A change of the job table. -/
inductive JobChange
  | add (pid : Int) (state : JobState) (cmdline : String)
  | delete (pid : Int)

/-- The table after a change. -/
def change (t : Table) : JobChange → Option Table
  | .add pid state cmdline => some (addjob t pid state cmdline).1
  | .delete pid => some (deletejob t pid).1

/-- The table after `initjobs`, with `nextjid = 1`. -/
def noJobs : Table := ⟨initjobs, 1⟩

/-- The slot holds a job. -/
def Occupied (t : Table) (i : Fin MAXJOBS) : Prop := (t.jobs i).pid ≠ 0

/-- A job is added with a pid that no job has. -/
def NewPid (t : Table) : JobChange → Prop
  | .add pid _ _ => 1 ≤ pid ∧ ∀ i, (t.jobs i).pid ≠ pid
  | .delete _ => True

instance (t : Table) (c : JobChange) : Decidable (NewPid t c) :=
  match c with
  | .add pid _ _ => inferInstanceAs (Decidable (1 ≤ pid ∧ ∀ i, (t.jobs i).pid ≠ pid))
  | .delete _ => inferInstanceAs (Decidable True)

/-- The jobs have numbers of their own from 1 on, and are found by them. -/
structure JidsOk (t : Table) : Prop where
  apart : ∀ i j, Occupied t i → Occupied t j → (t.jobs i).jid = (t.jobs j).jid → i = j
  pos : ∀ i, Occupied t i → 1 ≤ (t.jobs i).jid
  found : ∀ i, Occupied t i → getjobjid t.jobs (t.jobs i).jid = some i

/-- When a job goes into a slot, `nextjid` is a job number that no job has. -/
def FreshJid (t : Table) : JobChange → Prop
  | .add pid _ _ => 1 ≤ pid → (∃ i, ¬ Occupied t i) →
      1 ≤ t.nextjid ∧ ∀ i, Occupied t i → (t.jobs i).jid ≠ t.nextjid
  | .delete _ => True

/-- What every change keeps: the numbers, and an empty slot has none. -/
structure Numbered (t : Table) : Prop where
  apart : ∀ i j, Occupied t i → Occupied t j → (t.jobs i).jid = (t.jobs j).jid → i = j
  pos : ∀ i, Occupied t i → 1 ≤ (t.jobs i).jid
  empty : ∀ i, ¬ Occupied t i → (t.jobs i).jid = 0

theorem numbered_noJobs : Numbered noJobs :=
  ⟨fun _ _ hi => absurd rfl hi, fun _ hi => absurd rfl hi, fun _ _ => rfl⟩

theorem Numbered.jidsOk {t : Table} (h : Numbered t) : JidsOk t := by
  refine ⟨h.apart, h.pos, fun i hi => ?_⟩
  have hpos := h.pos i hi
  unfold getjobjid
  rw [if_neg (by omega)]
  cases hf : firstSlot fun j => (t.jobs j).jid == (t.jobs i).jid with
  | none =>
    have := firstSlot_none hf i
    simp at this
  | some j =>
    have hj : (t.jobs j).jid = (t.jobs i).jid := by simpa using firstSlot_some hf
    have ho : Occupied t j := by
      intro hp
      have := h.empty j (by simpa [Occupied] using hp)
      omega
    rw [h.apart j i ho hi hj]

/-! ## One change -/

theorem addjob_cases (t : Table) (pid : Int) (state : JobState) (cmdline : String) :
    (addjob t pid state cmdline).1 = t ∧ ((pid < 1) ∨ ∀ i, Occupied t i) ∨
    ∃ i n, 1 ≤ pid ∧ ¬ Occupied t i ∧ (addjob t pid state cmdline).1 =
      ⟨Function.update t.jobs i ⟨pid, t.nextjid, state, cmdline⟩, n⟩ := by
  unfold addjob
  split
  · rename_i hpid
    exact Or.inl ⟨rfl, Or.inl hpid⟩
  · rename_i hpid
    split
    · rename_i i hi
      have h0 : (t.jobs i).pid = 0 := by simpa using firstSlot_some hi
      exact Or.inr ⟨i, _, by omega, fun ho => ho h0, rfl⟩
    · rename_i hnone
      refine Or.inl ⟨rfl, Or.inr fun i => ?_⟩
      simpa [Occupied] using firstSlot_none hnone i

theorem deletejob_cases (t : Table) (pid : Int) :
    (deletejob t pid).1 = t ∨
    ∃ i n, (deletejob t pid).1 = ⟨Function.update t.jobs i clearjob, n⟩ := by
  unfold deletejob
  split
  · exact Or.inl rfl
  · split
    · rename_i i _
      exact Or.inr ⟨i, _, rfl⟩
    · exact Or.inl rfl

/-- A job with a new number goes into an empty slot. -/
theorem Numbered.fill {t : Table} {i : Fin MAXJOBS} {x : Job} (h : Numbered t) (hx : x.pid ≠ 0)
    (hpos : 1 ≤ x.jid) (hnew : ∀ j, Occupied t j → (t.jobs j).jid ≠ x.jid) (n : Int) :
    Numbered ⟨Function.update t.jobs i x, n⟩ := by
  have hself : Function.update t.jobs i x i = x := Function.update_self _ _ _
  have hother : ∀ {j : Fin MAXJOBS}, j ≠ i → Function.update t.jobs i x j = t.jobs j :=
    fun hj => Function.update_of_ne hj _ _
  refine ⟨fun j k hj hk he => ?_, fun j hj => ?_, fun j hj => ?_⟩
  · unfold Occupied at hj hk
    simp only at hj hk he
    by_cases hji : j = i <;> by_cases hki : k = i
    · rw [hji, hki]
    · subst hji
      rw [hself, hother hki] at he
      rw [hother hki] at hk
      exact absurd he.symm (hnew k hk)
    · subst hki
      rw [hself, hother hji] at he
      rw [hother hji] at hj
      exact absurd he (hnew j hj)
    · rw [hother hji] at hj he
      rw [hother hki] at hk he
      exact h.apart j k hj hk he
  · unfold Occupied at hj
    simp only at hj ⊢
    by_cases hji : j = i
    · rw [hji, hself]
      exact hpos
    · rw [hother hji] at hj ⊢
      exact h.pos j hj
  · unfold Occupied at hj
    simp only at hj ⊢
    by_cases hji : j = i
    · rw [hji, hself] at hj
      exact absurd hx hj
    · rw [hother hji] at hj ⊢
      exact h.empty j hj

theorem Numbered.clear {t : Table} (h : Numbered t) (i : Fin MAXJOBS) (n : Int) :
    Numbered ⟨Function.update t.jobs i clearjob, n⟩ := by
  have hself : Function.update t.jobs i clearjob i = clearjob := Function.update_self _ _ _
  have hother : ∀ {j : Fin MAXJOBS}, j ≠ i → Function.update t.jobs i clearjob j = t.jobs j :=
    fun hj => Function.update_of_ne hj _ _
  have hne : ∀ j, Occupied ⟨Function.update t.jobs i clearjob, n⟩ j → j ≠ i := by
    rintro j hj rfl
    unfold Occupied at hj
    simp only [hself] at hj
    exact hj rfl
  refine ⟨fun j k hj hk he => ?_, fun j hj => ?_, fun j hj => ?_⟩
  · have h1 := hne j hj
    have h2 := hne k hk
    unfold Occupied at hj hk
    simp only [hother h1, hother h2] at hj hk he
    exact h.apart j k hj hk he
  · have h1 := hne j hj
    unfold Occupied at hj
    simp only [hother h1] at hj ⊢
    exact h.pos j hj
  · by_cases hji : j = i
    · subst hji
      simp only [hself]
      rfl
    · unfold Occupied at hj
      simp only [hother hji] at hj ⊢
      exact h.empty j hj

/-- A change with a fresh number keeps the numbers in order. -/
theorem change_numbered {t t' : Table} {c : JobChange} (h : Numbered t) (hf : FreshJid t c)
    (hs : change t c = some t') : Numbered t' := by
  cases c with
  | add pid state cmdline =>
    cases hs
    rcases addjob_cases t pid state cmdline with ⟨he, -⟩ | ⟨i, n, hpid, hi, he⟩
    · rw [he]
      exact h
    · rw [he]
      obtain ⟨h1, h2⟩ := hf hpid ⟨i, hi⟩
      exact h.fill (x := ⟨pid, t.nextjid, state, cmdline⟩) (by simp only; omega) h1 h2 n
  | delete pid =>
    cases hs
    rcases deletejob_cases t pid with he | ⟨i, n, he⟩
    · rw [he]
      exact h
    · rw [he]
      exact h.clear i n

/-- And one without a fresh number breaks it. -/
theorem change_breaks {t t' : Table} {c : JobChange} (hs : change t c = some t')
    (hok : JidsOk t') : FreshJid t c := by
  cases c with
  | delete pid => trivial
  | add pid state cmdline =>
    cases hs
    rintro hpid ⟨k, hk⟩
    rcases addjob_cases t pid state cmdline with ⟨-, hp | hall⟩ | ⟨i, n, -, hi, he⟩
    · omega
    · exact absurd (hall k) hk
    · rw [he] at hok
      have hself : Function.update t.jobs i ⟨pid, t.nextjid, state, cmdline⟩ i =
        ⟨pid, t.nextjid, state, cmdline⟩ := Function.update_self _ _ _
      have hocc : Occupied ⟨Function.update t.jobs i ⟨pid, t.nextjid, state, cmdline⟩, n⟩ i := by
        unfold Occupied
        simp only [hself]
        omega
      refine ⟨?_, fun j hj hjid => ?_⟩
      · have := hok.pos i hocc
        simpa only [hself] using this
      · have hji : j ≠ i := by
          rintro rfl
          exact hi hj
        have hother : Function.update t.jobs i ⟨pid, t.nextjid, state, cmdline⟩ j = t.jobs j :=
          Function.update_of_ne hji _ _
        apply hji
        apply hok.apart j i
        · show (Function.update t.jobs i _ j).pid ≠ 0
          rw [hother]
          exact hj
        · exact hocc
        · simp only [hself, hother]
          exact hjid

/-! ## The law -/

/-- In every run of additions and deletions, the numbers are in order in every state reached
exactly when each job added finds a `nextjid` from 1 on that no job has. -/
theorem the_job_numbers_are_apart_iff (changes : List JobChange) :
    Reaches change JidsOk noJobs changes ↔ Along change FreshJid noJobs changes := by
  constructor
  · intro hr js c ks t hsplit ht
    cases hs : change t c with
    | none => cases c <;> cases hs
    | some t' =>
      apply change_breaks hs
      exact hr (js ++ [c]) ks t' (by rw [hsplit]; simp) (exec_snoc.mpr ⟨t, ht, hs⟩)
  · intro hf js ks t hsplit ht
    exact (reaches_invariant (fun _ _ _ h hc hs => change_numbered h hc hs) numbered_noJobs hf js
      ks t hsplit ht).jidsOk

/-- Sixteen jobs fill the table and the jobs 2 and 3 end: the next job is number 17, and the
one after it is number 1 again. -/
def wrapAround : List JobChange :=
  (List.range 16).map (fun k => .add (100 + k) .BG "") ++
    [.delete 101, .delete 102, .add 200 .BG "", .add 201 .BG ""]

theorem two_jobs_get_number_one : ¬ ∀ changes, Along change NewPid noJobs changes →
    Reaches change JidsOk noJobs changes := by
  intro hall
  have hnew : Along change NewPid noJobs wrapAround := by
    apply along_of_check
    decide +kernel
  have hrun : (exec change noJobs wrapAround).any (fun t => decide ((t.jobs 0).pid ≠ 0 ∧
      (t.jobs 2).pid ≠ 0 ∧ (t.jobs 0).jid = (t.jobs 2).jid)) = true := by
    decide +kernel
  obtain ⟨t, ht, hbad⟩ := (Option.any_eq_true _ _).mp hrun
  obtain ⟨h0, h2, he⟩ := of_decide_eq_true hbad
  have := (hall wrapAround hnew wrapAround [] t (List.append_nil _).symm ht).apart 0 2 h0 h2 he
  exact absurd this (by decide)

end ics_labs.tsh
