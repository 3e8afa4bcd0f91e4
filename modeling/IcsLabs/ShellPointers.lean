-- The pointers to jobs that eval and the SIGCHLD handler follow without a test. They are
-- null after a launch into a full table, and where a child ends before eval looks it up.
import IcsLabs.ShellNews

open ics_labs.runs

namespace ics_labs.tsh

open JobState

/-- A background launch finds a free slot; no background child ends before `eval` has looked
it up; and no child that found the table full is stopped. -/
def SparesPointers (w : Watched) : Act → Prop
  | .next =>
    match w.shell.pc with
    | .forked true _ _ => ¬ Full w.shell.table.jobs
    | _ => True
  | .sigchld reports =>
    (∀ r ∈ reports, r.2 = .stopped → r.1 ∉ w.unlisted) ∧
    match w.shell.pc with
    | .evalFind pid _ => ∀ r ∈ reports, r.1 = pid → r.2 = .stopped
    | _ => True
  | _ => True

instance (w : Watched) (a : Act) : Decidable (SparesPointers w a) := by
  unfold SparesPointers
  split
  · split <;> infer_instance
  · refine @instDecidableAnd _ _ inferInstance ?_
    split <;> infer_instance
  · infer_instance

/-- While the shell runs, every child has a slot, or is remembered as one without; and a
child that `eval` still has to look up has a slot that the look-up has not passed. -/
structure Pointed (s : Shell) (unlisted : List Int) : Prop where
  listed : Listed s
  known : s.pc ≠ .exited → ∀ pid ∈ s.children, (∃ i, (s.table.jobs i).pid = pid) ∨ pid ∈ unlisted ∨
    ∃ bg buf, s.pc = .forked bg buf pid
  added : ∀ pid, s.pc = .added true pid → ∃ i, (s.table.jobs i).pid = pid ∧ 1 ≤ pid
  finding : ∀ pid i, s.pc = .evalFind pid i →
    ∃ k : Fin MAXJOBS, i ≤ k.val ∧ (s.table.jobs k).pid = pid ∧ 1 ≤ pid
  alive : s.pc ≠ .crashed

theorem pointed_init : Pointed init [] := by
  refine ⟨kept_init.listed, ?_, ?_, ?_, ?_⟩
  · simp [init]
  · intro pid h
    cases h
  · intro pid i h
    cases h
  · intro h
    cases h

/-! ## The handler -/

theorem report_pointed {s s' : Shell} {r : Int × Change} {unlisted : List Int}
    (hp : Pointed s unlisted) (hsig : s.pc.takesSignals = true)
    (hstop : r.2 = .stopped → r.1 ∉ unlisted)
    (hend : ∀ pid i, s.pc = .evalFind pid i → r.1 = pid → r.2 = .stopped)
    (h : report s r = some s') :
    Pointed s' (forget unlisted r) ∧ s'.pc = s.pc := by
  have hnf : ∀ bg buf pid, s.pc ≠ .forked bg buf pid := by
    intro bg buf pid he
    rw [he] at hsig
    cases hsig
  have hna : ∀ pid, s.pc ≠ .added true pid := by
    intro pid he
    rw [he] at hsig
    cases hsig
  have hne : s.pc ≠ .exited := by
    intro he
    rw [he] at hsig
    cases hsig
  have hl' := report_listed hp.listed hnf h
  have hlisted : ∀ pid ∈ s.children, pid ∉ unlisted → ∃ i, (s.table.jobs i).pid = pid := by
    intro pid hc hu
    rcases hp.known hne pid hc with hi | hi | ⟨bg, buf, he⟩
    · exact hi
    · exact absurd hi hu
    · exact absurd he (hnf bg buf pid)
  obtain ⟨hc, ⟨hst, hch, hcase⟩ | ⟨hst, hch, hpc, htab⟩⟩ := report_spec hp.listed h
  · -- a stopped child has a slot, and keeps it
    have hforget : forget unlisted r = unlisted := if_pos hst
    rcases hcase with ⟨i, -, hpc, htab⟩ | ⟨hno, -, -⟩
    · have hpid : ∀ j, (s'.table.jobs j).pid = (s.table.jobs j).pid := by
        intro j
        rw [htab]
        exact setState_pid _ _ _ _
      refine ⟨⟨hl', ?_, ?_, ?_, ?_⟩, hpc⟩
      · intro _ pid hpm
        rw [hch] at hpm
        rw [hforget, hpc]
        simp only [hpid]
        exact hp.known hne pid hpm
      · intro pid he
        rw [hpc] at he
        exact absurd he (hna pid)
      · intro pid k he
        rw [hpc] at he
        simp only [hpid]
        exact hp.finding pid k he
      · rw [hpc]
        exact hp.alive
    · obtain ⟨i, hi⟩ := hlisted r.1 hc (hstop hst)
      exact absurd hi (hno i)
  · have hforget : forget unlisted r = unlisted.filter (· ≠ r.1) := if_neg hst
    have hkeep : ∀ j pid, (s.table.jobs j).pid = pid → pid ≠ r.1 →
        (s'.table.jobs j).pid = pid := by
      intro j pid hj hne
      rw [htab, if_neg (by rw [hj]; exact hne)]
      exact hj
    refine ⟨⟨hl', ?_, ?_, ?_, ?_⟩, hpc⟩
    · intro _ pid hpm
      rw [hch] at hpm
      have hother : pid ≠ r.1 := by
        rintro rfl
        exact hp.listed.nodup.not_mem_erase hpm
      rcases hp.known hne pid (List.mem_of_mem_erase hpm) with ⟨j, hj⟩ | hu | ⟨bg, buf, he⟩
      · exact Or.inl ⟨j, hkeep j pid hj hother⟩
      · right
        left
        rw [hforget]
        exact List.mem_filter.mpr ⟨hu, by simpa using hother⟩
      · exact absurd he (hnf bg buf pid)
    · intro pid he
      rw [hpc] at he
      exact absurd he (hna pid)
    · intro pid k he
      rw [hpc] at he
      obtain ⟨j, hkj, hj, hpos⟩ := hp.finding pid k he
      refine ⟨j, hkj, hkeep j pid hj ?_, hpos⟩
      rintro rfl
      exact hst (hend _ k he rfl)
    · rw [hpc]
      exact hp.alive

theorem handler_pointed {s s' : Shell} {rs : List (Int × Change)} {unlisted : List Int}
    (hp : Pointed s unlisted) (hsig : s.pc.takesSignals = true)
    (hstop : ∀ r ∈ rs, r.2 = .stopped → r.1 ∉ unlisted)
    (hend : ∀ pid i, s.pc = .evalFind pid i → ∀ r ∈ rs, r.1 = pid → r.2 = .stopped)
    (h : sigchld_handler s rs = some s') : Pointed s' (rs.foldl forget unlisted) := by
  induction rs generalizing s unlisted with
  | nil =>
    cases h
    exact hp
  | cons r rs ih =>
    unfold sigchld_handler at h
    rw [if_neg hp.alive] at h
    obtain ⟨t, ht, h⟩ := Option.bind_eq_some_iff.mp h
    obtain ⟨hp', hpc⟩ := report_pointed hp hsig (hstop r (by simp))
      (fun pid i he => hend pid i he r (by simp)) ht
    refine ih hp' (by rw [hpc]; exact hsig) (fun q hq hst hu => ?_) (fun pid i he q hq => ?_) h
    · refine hstop q (by simp [hq]) hst ?_
      unfold forget at hu
      split at hu
      · exact hu
      · exact (List.mem_filter.mp hu).1
    · rw [hpc] at he
      exact hend pid i he q (by simp [hq])

/-! ## The main thread -/

/-- A step that leaves table and children alone, to a place without a pointer at stake. -/
theorem Pointed.move {s s' : Shell} {unlisted : List Int} (hp : Pointed s unlisted)
    (hl : Listed s') (ht : s'.table = s.table) (hc : s'.children = s.children)
    (hfrom : s.pc ≠ .exited ∧ ∀ bg buf pid, s.pc ≠ .forked bg buf pid)
    (hna : ∀ pid, s'.pc ≠ .added true pid)
    (hf : ∀ pid i, s'.pc = .evalFind pid i →
      ∃ k : Fin MAXJOBS, i ≤ k.val ∧ (s.table.jobs k).pid = pid ∧ 1 ≤ pid)
    (ha : s'.pc ≠ .crashed) : Pointed s' unlisted := by
  refine ⟨hl, ?_, fun pid he => absurd he (hna pid), ?_, ha⟩
  · intro _ pid hpm
    rw [hc] at hpm
    rw [ht]
    rcases hp.known hfrom.1 pid hpm with hi | hi | ⟨bg, buf, he⟩
    · exact Or.inl hi
    · exact Or.inr (Or.inl hi)
    · exact absurd he (hfrom.2 bg buf pid)
  · rw [ht]
    exact hf

/-- After `addjob` the new child has a slot, or the table was full. -/
theorem addjob_slot (t : Table) {pid : Int} (hpid : 1 ≤ pid) (st : JobState) (buf : String) :
    (∀ q, (∃ i, (t.jobs i).pid = q) → q ≠ 0 → ∃ i, ((addjob t pid st buf).1.jobs i).pid = q) ∧
    (¬ Full t.jobs → ∃ i, ((addjob t pid st buf).1.jobs i).pid = pid) := by
  rcases addjob_cases t pid st buf with ⟨he, hlt | hfull⟩ | ⟨i, n, -, hi, he⟩
  · omega
  · rw [he]
    exact ⟨fun q hq _ => hq, fun hn => absurd hfull hn⟩
  · rw [he]
    refine ⟨?_, fun _ => ⟨i, by simp⟩⟩
    rintro q ⟨j, hj⟩ hq
    have h0 : (t.jobs i).pid = 0 := by simpa [Occupied] using hi
    have hji : j ≠ i := by
      rintro rfl
      exact hq (hj.symm.trans h0)
    exact ⟨j, by simpa [hji] using hj⟩

/-- Only a child that was just forked can go missing in the table. -/
theorem unlisted_next {w : Watched} (h : ∀ bg buf pid, w.shell.pc ≠ .forked bg buf pid) :
    unlistedAfter w .next = w.unlisted := by
  unfold unlistedAfter
  cases hpc : w.shell.pc with
  | forked bg buf pid => exact absurd hpc (h bg buf pid)
  | _ => rfl

theorem next_pointed {w : Watched} {s' : Shell} (hp : Pointed w.shell w.unlisted)
    (hw : SparesPointers w .next) (h : next w.shell = some s') :
    Pointed s' (unlistedAfter w .next) := by
  have hl' : Listed s' := step_listed (a := .next) hp.listed h
  cases hpc : w.shell.pc with
  | forked bg buf pid =>
    simp only [next, hpc, Option.some.injEq] at h
    obtain ⟨hc, -⟩ := hp.listed.forked bg buf pid hpc
    have hpos := hp.listed.positive pid hc
    obtain ⟨hold, hnew⟩ := addjob_slot w.shell.table hpos (if bg then BG else FG) buf
    subst h
    simp only [unlistedAfter, hpc]
    refine ⟨hl', ?_, ?_, by simp, by simp⟩
    · intro _ q hq
      rcases hp.known (by simp [hpc]) q hq with hi | hi | ⟨b, t, he⟩
      · left
        have := hp.listed.positive q hq
        exact hold q hi (by omega)
      · right
        left
        split
        · exact List.mem_cons_of_mem _ hi
        · exact hi
      · rw [hpc] at he
        cases he
        by_cases hfull : Full w.shell.table.jobs
        · right
          left
          rw [if_pos hfull]
          exact List.mem_cons_self
        · exact Or.inl (hnew hfull)
    · intro q he
      cases he
      simp only [SparesPointers, hpc] at hw
      obtain ⟨i, hi⟩ := hnew hw
      exact ⟨i, hi, hpos⟩
  | added bg pid =>
    simp only [next, hpc, Option.some.injEq] at h
    rw [unlisted_next (by simp [hpc])]
    subst h
    refine hp.move hl' rfl rfl (by simp [hpc]) ?_ ?_ ?_
    · cases bg <;> simp
    · intro q i he
      cases bg with
      | true =>
        cases he
        obtain ⟨k, hk, hpos⟩ := hp.added pid hpc
        exact ⟨k, Nat.zero_le _, hk, hpos⟩
      | false => cases he
    · cases bg <;> simp
  | evalFind pid i =>
    obtain ⟨k, hik, hk, hpos⟩ := hp.finding pid i hpc
    have hlt : i < MAXJOBS := Nat.lt_of_le_of_lt hik k.isLt
    simp only [next, hpc, Option.some.injEq] at h
    rw [if_neg (by omega), dif_pos hlt] at h
    rw [unlisted_next (by simp [hpc])]
    by_cases hi : (w.shell.table.jobs ⟨i, hlt⟩).pid = pid
    · rw [if_pos hi] at h
      subst h
      exact hp.move hl' rfl rfl (by simp [hpc]) (by simp) (by simp) (by simp)
    · rw [if_neg hi] at h
      subst h
      refine hp.move hl' rfl rfl (by simp [hpc]) (by simp) ?_ (by simp)
      intro q j he
      cases he
      refine ⟨k, ?_, hk, hpos⟩
      rcases Nat.lt_or_ge i k.val with hlt' | hge
      · exact hlt'
      · exact absurd hk (by
          have : k = ⟨i, hlt⟩ := Fin.ext (by simp only; omega)
          rw [this]
          exact hi)
  | bgfgWrite fg job pid =>
    simp only [next, hpc, Option.some.injEq] at h
    rw [unlisted_next (by simp [hpc])]
    subst h
    refine ⟨hl', ?_, ?_, ?_, ?_⟩
    · intro _ q hq
      rcases hp.known (by simp [hpc]) q hq with ⟨i, hi⟩ | hi | ⟨b, t, he⟩
      · exact Or.inl ⟨i, (setState_pid _ _ _ _).trans hi⟩
      · exact Or.inr (Or.inl hi)
      · rw [hpc] at he
        cases he
    · cases fg <;> simp
    · cases fg <;> simp
    · cases fg <;> simp
  | evalPrint | bgfgPid | bgfgPrint =>
    simp only [next, hpc, Option.some.injEq] at h
    rw [unlisted_next (by simp [hpc])]
    subst h
    exact hp.move hl' rfl rfl (by simp [hpc]) (by simp) (by simp) (by simp)
  | bgfgFind fg key i =>
    simp only [next, hpc, Option.some.injEq] at h
    rw [unlisted_next (by simp [hpc])]
    subst h
    refine hp.move hl' rfl rfl (by simp [hpc]) ?_ ?_ ?_ <;> simp only <;>
      split_ifs <;> cases key <;> simp
  | waitFind pid i =>
    simp only [next, hpc, Option.some.injEq] at h
    rw [unlisted_next (by simp [hpc])]
    subst h
    refine hp.move hl' rfl rfl (by simp [hpc]) ?_ ?_ ?_ <;> simp only <;> split_ifs <;> simp
  | waitRead pid i =>
    simp only [next, hpc, Option.some.injEq] at h
    rw [unlisted_next (by simp [hpc])]
    subst h
    refine hp.move hl' rfl rfl (by simp [hpc]) ?_ ?_ ?_ <;> simp only <;> split_ifs <;> simp
  | idle | blocked | bgfgKill | exited | crashed =>
    simp only [next, hpc] at h
    cases h

theorem eval_points (argv : List String) (bg : Bool) (buf : String) :
    (∀ pid, eval argv bg buf ≠ .added true pid) ∧ (∀ pid i, eval argv bg buf ≠ .evalFind pid i) ∧
      eval argv bg buf ≠ .crashed := by
  unfold eval
  cases argv with
  | nil => simp
  | cons cmd args => cases args <;> simp only <;> split_ifs <;> simp

theorem watch_pointed {w w' : Watched} {a : Act} (hp : Pointed w.shell w.unlisted)
    (hw : SparesPointers w a) (h : watch w a = some w') : Pointed w'.shell w'.unlisted := by
  obtain ⟨s', hs, rfl⟩ := Option.map_eq_some_iff.mp h
  have hl' : Listed s' := step_listed hp.listed hs
  cases a with
  | read argv bg buf =>
    simp only [step] at hs
    split at hs
    · rename_i hidle
      cases hs
      obtain ⟨h1, h2, h3⟩ := eval_points argv bg buf
      exact hp.move hl' rfl rfl (by simp [hidle]) h1 (fun pid i he => absurd he (h2 pid i)) h3
    · cases hs
  | fork pid =>
    simp only [step] at hs
    split at hs
    · rename_i hpc
      cases hs
      exact hp.move hl' rfl rfl (by simp [hpc]) (by simp) (by simp) (by simp)
    · rename_i bg buf pid hpc
      split at hs
      · cases hs
        refine ⟨hl', ?_, by simp, by simp, by simp⟩
        intro _ q hq
        rcases List.mem_cons.mp hq with rfl | hq
        · exact Or.inr (Or.inr ⟨bg, buf, rfl⟩)
        · rcases hp.known (by simp [hpc]) q hq with hi | hi | ⟨b, t, he⟩
          · exact Or.inl hi
          · exact Or.inr (Or.inl hi)
          · rw [hpc] at he
            cases he
      · cases hs
    · cases hs
  | kill ok =>
    simp only [step] at hs
    split at hs
    · rename_i hpc
      cases hs
      refine hp.move hl' rfl rfl (by simp [hpc]) ?_ ?_ ?_ <;> cases ok <;> simp
    · cases hs
  | next => exact next_pointed hp hw hs
  | sigchld reports =>
    simp only [step] at hs
    split at hs
    · rename_i hsig
      obtain ⟨hstop, hend⟩ := hw
      refine handler_pointed hp hsig hstop (fun pid i he => ?_) hs
      simpa only [he] using hend
    · cases hs
  | keyboard ok =>
    simp only [step] at hs
    split at hs
    · cases hs
    · cases hs
      revert hl'
      unfold sigint_handler
      split_ifs
      · exact fun _ => hp
      · exact fun _ => hp
      · exact fun hl' => ⟨hl', fun he => absurd rfl he, by simp, by simp, by simp⟩

/-! ## The law -/

/-- In every run of the shell in which background launches find a free slot, no background
child ends before `eval` has looked it up, and no child without a slot is stopped, no null
pointer to a job is followed. -/
theorem no_null_job_is_followed (acts : List Act)
    (hC : Along watch SparesPointers watchedInit acts) :
    Reaches watch (fun w => w.shell.pc ≠ .crashed) watchedInit acts := by
  intro js ks w hjs hw
  exact (reaches_invariant (P := fun w => Pointed w.shell w.unlisted)
    (fun _ _ _ hp hc hs => watch_pointed hp hc hs) pointed_init hC js ks w hjs hw).alive

/-- `/bin/sleep 9 &` with a child that is looked up, stopped, continued and reaped. -/
def sleepInBackground : List Act :=
  [.read ["/bin/sleep", "9"] true "/bin/sleep 9 &\n", .fork (some 100), .next, .next, .next,
    .next, .sigchld [(100, .stopped)], .sigchld [(100, .exited)]]

theorem a_sleeping_job_is_followed :
    Reaches watch (fun w => w.shell.pc ≠ .crashed) watchedInit sleepInBackground := by
  apply no_null_job_is_followed
  apply along_of_check
  decide +kernel

/-- `/bin/true &`: the child ends between the unblocking of SIGCHLD and the look-up. -/
def endBeforeLookup : List Act :=
  [.read ["/bin/true"] true "/bin/true &\n", .fork (some 100), .next, .next,
    .sigchld [(100, .exited)]] ++ List.replicate 17 .next

theorem a_fast_child_leaves_a_null_job :
    ¬ ∀ acts, Reaches watch (fun w => w.shell.pc ≠ .crashed) watchedInit acts := by
  intro hall
  have hrun : (exec watch watchedInit endBeforeLookup).any (fun w =>
      decide (w.shell.pc = .crashed)) = true := by
    decide +kernel
  obtain ⟨w, hw, hbad⟩ := (Option.any_eq_true _ _).mp hrun
  exact hall endBeforeLookup endBeforeLookup [] w (List.append_nil _).symm hw
    (of_decide_eq_true hbad)

end ics_labs.tsh
