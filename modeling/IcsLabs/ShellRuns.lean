-- The job table over all runs of the shell, whatever the commands and wherever the
-- handler comes in: it stays in order as long as do_bgfg never writes the state of
-- a slot that the handler has just cleared.
import IcsLabs.Shell

open ics_labs.runs

namespace ics_labs.tsh

open JobState

/-! ## The table in order -/

/-- An empty slot is cleared, a taken one has a state, and at most one job is in the
foreground. -/
structure TableOk (jobs : Fin MAXJOBS → Job) : Prop where
  empty : ∀ i, (jobs i).pid = 0 → (jobs i).jid = 0 ∧ (jobs i).state = UNDEF
  taken : ∀ i, (jobs i).pid ≠ 0 →
    (jobs i).state = FG ∨ (jobs i).state = BG ∨ (jobs i).state = .ST
  oneFg : ∀ i j, (jobs i).state = FG → (jobs j).state = FG → i = j

/-- `fgpid` gives the pid of the foreground job, or 0 when there is none. -/
structure FgpidRight (jobs : Fin MAXJOBS → Job) : Prop where
  some : ∀ i, (jobs i).state = FG → fgpid jobs = (jobs i).pid
  none : (∀ i, (jobs i).state ≠ FG) → fgpid jobs = 0

theorem fgpid_right {jobs : Fin MAXJOBS → Job} (h : TableOk jobs) : FgpidRight jobs := by
  constructor
  · intro i hi
    unfold fgpid
    cases hf : firstSlot fun i => (jobs i).state == FG with
    | none =>
      have := firstSlot_none hf i
      simp [hi] at this
    | some j =>
      have hj := firstSlot_some hf
      rw [h.oneFg i j hi (by simpa using hj)]
  · intro hno
    unfold fgpid
    cases hf : firstSlot fun i => (jobs i).state == FG with
    | none => rfl
    | some j =>
      have hj := firstSlot_some hf
      exact absurd (by simpa using hj) (hno j)

/-- No job is in the foreground. -/
def NoFg (jobs : Fin MAXJOBS → Job) : Prop := ∀ i, (jobs i).state ≠ FG

/-- Every foreground job has this pid. -/
def OnlyFg (jobs : Fin MAXJOBS → Job) (pid : Int) : Prop :=
  ∀ i, (jobs i).state = FG → (jobs i).pid = pid

/-- What the main thread may rely on at each of its points. A foreground job is there only
while `waitfg` waits for it. -/
def Here (jobs : Fin MAXJOBS → Job) : Pc → Prop
  | .forked _ _ pid => NoFg jobs ∧ 1 ≤ pid
  | .added bg pid => 1 ≤ pid ∧ OnlyFg jobs pid ∧ (bg = true → NoFg jobs)
  | .bgfgFind _ key _ => NoFg jobs ∧ 0 < key.num
  | .bgfgKill _ job pid | .bgfgWrite _ job pid =>
    NoFg jobs ∧ ((jobs job).pid ≠ 0 → 1 ≤ pid ∧ (jobs job).pid = pid)
  | .waitFind pid i => 1 ≤ pid ∧ OnlyFg jobs pid ∧ ∀ j : Fin MAXJOBS, j.val < i → (jobs j).state ≠ FG
  | .waitRead pid i => 1 ≤ pid ∧ OnlyFg jobs pid ∧ ∀ j, j ≠ i → (jobs j).state ≠ FG
  | .exited | .crashed => True
  | _ => NoFg jobs

structure Inv (s : Shell) : Prop where
  ok : TableOk s.table.jobs
  pids : ∀ i, 0 ≤ (s.table.jobs i).pid
  here : Here s.table.jobs s.pc

theorem inv_init : Inv init := by
  refine ⟨⟨fun _ _ => ⟨rfl, rfl⟩, fun _ h => absurd rfl h, ?_⟩, fun _ => Int.le_refl 0, ?_⟩
  · intro i j hi
    cases hi
  · intro i hi
    cases hi

/-! ## The handler -/

/-- What the handler does to the table: it clears slots, and stops jobs that are there. -/
def Handled (jobs jobs' : Fin MAXJOBS → Job) : Prop :=
  ∀ i, jobs' i = jobs i ∨ jobs' i = clearjob ∨
    ((jobs i).pid ≠ 0 ∧ jobs' i = { jobs i with state := .ST })

theorem handled_setState {t : Table} {i : Fin MAXJOBS} (h : (t.jobs i).pid ≠ 0) :
    Handled t.jobs (setState t i .ST).jobs := by
  intro j
  by_cases hj : j = i
  · subst hj
    exact Or.inr (Or.inr ⟨h, Function.update_self _ _ _⟩)
  · exact Or.inl (Function.update_of_ne hj _ _)

theorem handled_deletejob (t : Table) (pid : Int) : Handled t.jobs (deletejob t pid).1.jobs := by
  intro j
  unfold deletejob
  split
  · exact Or.inl rfl
  · split
    · rename_i i hi
      by_cases hj : j = i
      · subst hj
        exact Or.inr (Or.inl (Function.update_self _ _ _))
      · exact Or.inl (Function.update_of_ne hj _ _)
    · exact Or.inl rfl

theorem getjobpid_some {jobs : Fin MAXJOBS → Job} {pid : Int} {i : Fin MAXJOBS}
    (h : getjobpid jobs pid = some i) : 1 ≤ pid ∧ (jobs i).pid = pid := by
  unfold getjobpid at h
  split at h
  · cases h
  · exact ⟨by omega, by simpa using firstSlot_some h⟩

/-- Everything that one report can do. -/
theorem report_cases {s s' : Shell} {r : Int × Change} (h : report s r = some s') :
    (s'.pc = s.pc ∧ Handled s.table.jobs s'.table.jobs) ∨
    (s'.pc = .crashed ∧ s'.table = s.table) := by
  unfold report at h
  split at h
  · cases h
  · split at h
    · split at h
      · rename_i i hi
        obtain ⟨h1, h2⟩ := getjobpid_some hi
        cases h
        exact Or.inl ⟨rfl, handled_setState (by omega)⟩
      · cases h
        exact Or.inr ⟨rfl, rfl⟩
    · cases h
      exact Or.inl ⟨rfl, handled_deletejob _ _⟩

theorem Handled.fg {jobs jobs' : Fin MAXJOBS → Job} (h : Handled jobs jobs') {i : Fin MAXJOBS}
    (hi : (jobs' i).state = FG) : jobs' i = jobs i := by
  rcases h i with he | he | ⟨-, he⟩
  · exact he
  · rw [he] at hi
    cases hi
  · rw [he] at hi
    cases hi

theorem Handled.noFg {jobs jobs' : Fin MAXJOBS → Job} (h : Handled jobs jobs') (hn : NoFg jobs) :
    NoFg jobs' := by
  intro i hi
  rw [h.fg hi] at hi
  exact hn i hi

theorem Handled.onlyFg {jobs jobs' : Fin MAXJOBS → Job} {pid : Int} (h : Handled jobs jobs')
    (ho : OnlyFg jobs pid) : OnlyFg jobs' pid := by
  intro i hi
  have he := h.fg hi
  rw [he] at hi ⊢
  exact ho i hi

/-- A slot that the handler leaves taken has its old pid. -/
theorem Handled.pid {jobs jobs' : Fin MAXJOBS → Job} (h : Handled jobs jobs') (i : Fin MAXJOBS) :
    (jobs' i).pid = 0 ∨ (jobs' i).pid = (jobs i).pid := by
  rcases h i with he | he | ⟨-, he⟩
  · exact Or.inr (by rw [he])
  · exact Or.inl (by rw [he]; rfl)
  · exact Or.inr (by rw [he])

theorem Handled.tableOk {jobs jobs' : Fin MAXJOBS → Job} (h : Handled jobs jobs')
    (ok : TableOk jobs) : TableOk jobs' := by
  refine ⟨fun i hi => ?_, fun i hi => ?_, fun i j hi hj => ?_⟩
  · rcases h i with he | he | ⟨hne, he⟩
    · rw [he] at hi ⊢
      exact ok.empty i hi
    · rw [he]
      exact ⟨rfl, rfl⟩
    · rw [he] at hi
      exact absurd hi hne
  · rcases h i with he | he | ⟨hne, he⟩
    · rw [he] at hi ⊢
      exact ok.taken i hi
    · rw [he] at hi
      exact absurd rfl hi
    · rw [he]
      exact Or.inr (Or.inr rfl)
  · rw [h.fg hi] at hi
    rw [h.fg hj] at hj
    exact ok.oneFg i j hi hj

/-- The main thread may still rely on what it relied on before the handler ran. -/
theorem Handled.here {jobs jobs' : Fin MAXJOBS → Job} {pc : Pc} (h : Handled jobs jobs')
    (hh : Here jobs pc) : Here jobs' pc := by
  cases pc <;> simp only [Here] at hh ⊢
  case forked | bgfgFind => exact ⟨h.noFg hh.1, hh.2⟩
  case added => exact ⟨hh.1, h.onlyFg hh.2.1, fun hb => h.noFg (hh.2.2 hb)⟩
  case bgfgKill | bgfgWrite =>
    refine ⟨h.noFg hh.1, fun hne => ?_⟩
    rcases h.pid _ with he | he
    · exact absurd he hne
    · rw [he] at hne ⊢
      exact hh.2 hne
  case waitFind =>
    refine ⟨hh.1, h.onlyFg hh.2.1, fun j hj hi => ?_⟩
    rw [h.fg hi] at hi
    exact hh.2.2 j hj hi
  case waitRead =>
    refine ⟨hh.1, h.onlyFg hh.2.1, fun j hj hi => ?_⟩
    rw [h.fg hi] at hi
    exact hh.2.2 j hj hi
  all_goals exact h.noFg hh

theorem report_inv {s s' : Shell} {r : Int × Change} (hi : Inv s) (h : report s r = some s') :
    Inv s' := by
  rcases report_cases h with ⟨hpc, hh⟩ | ⟨hpc, ht⟩
  · refine ⟨hh.tableOk hi.ok, fun i => ?_, by rw [hpc]; exact hh.here hi.here⟩
    rcases hh.pid i with he | he
    · omega
    · rw [he]
      exact hi.pids i
  · refine ⟨by rw [ht]; exact hi.ok, by rw [ht]; exact hi.pids, ?_⟩
    rw [hpc]
    exact trivial

theorem handler_inv {s s' : Shell} {rs : List (Int × Change)} (hi : Inv s)
    (h : sigchld_handler s rs = some s') : Inv s' := by
  induction rs generalizing s with
  | nil =>
    cases h
    exact hi
  | cons r rs ih =>
    unfold sigchld_handler at h
    split at h
    · cases h
    · obtain ⟨t, ht, h⟩ := Option.bind_eq_some_iff.mp h
      exact ih (report_inv hi ht) h

/-! ## The main thread -/

/-- What the main thread may rely on after it has put a job into a slot. -/
structure Placed (fg : Bool) (pid : Int) (jobs : Fin MAXJOBS → Job) : Prop where
  ok : TableOk jobs
  pids : ∀ i, 0 ≤ (jobs i).pid
  only : OnlyFg jobs pid
  noFg : fg = false → NoFg jobs

/-- With no job in the foreground, a running job can go into any slot. -/
theorem placed_update {jobs : Fin MAXJOBS → Job} {fg : Bool} {x : Job} (ok : TableOk jobs)
    (hn : NoFg jobs) (hp : ∀ i, 0 ≤ (jobs i).pid) (hx : 1 ≤ x.pid)
    (hst : x.state = if fg then FG else BG) (i : Fin MAXJOBS) :
    Placed fg x.pid (Function.update jobs i x) := by
  have hself : Function.update jobs i x i = x := Function.update_self _ _ _
  have hother : ∀ {j : Fin MAXJOBS}, j ≠ i → Function.update jobs i x j = jobs j :=
    fun hj => Function.update_of_ne hj _ _
  -- a foreground job is the one in slot `i`
  have hfg : ∀ {j : Fin MAXJOBS}, (Function.update jobs i x j).state = FG → j = i := by
    intro j hj
    by_contra hji
    rw [hother hji] at hj
    exact hn j hj
  refine ⟨⟨fun j hj => ?_, fun j hj => ?_, fun j k hj hk => by rw [hfg hj, hfg hk]⟩,
    fun j => ?_, fun j hj => by rw [hfg hj, hself], fun hb j hj => ?_⟩
  · by_cases hji : j = i
    · rw [hji, hself] at hj
      omega
    · rw [hother hji] at hj ⊢
      exact ok.empty j hj
  · by_cases hji : j = i
    · rw [hji, hself, hst]
      cases fg
      · exact Or.inr (Or.inl rfl)
      · exact Or.inl rfl
    · rw [hother hji] at hj ⊢
      exact ok.taken j hj
  · by_cases hji : j = i
    · rw [hji, hself]
      omega
    · rw [hother hji]
      exact hp j
  · rw [hfg hj, hself, hst, hb] at hj
    cases hj

theorem addjob_placed {t : Table} {pid : Int} (bg : Bool) (buf : String) (ok : TableOk t.jobs)
    (hn : NoFg t.jobs) (hpid : 1 ≤ pid) (hp : ∀ i, 0 ≤ (t.jobs i).pid) :
    Placed (!bg) pid (addjob t pid (if bg then BG else FG) buf).1.jobs := by
  unfold addjob
  rw [if_neg (by omega)]
  cases hf : firstSlot fun i => (t.jobs i).pid == 0 with
  | none => exact ⟨ok, hp, fun i hi => absurd hi (hn i), fun _ => hn⟩
  | some i =>
    apply placed_update (x := ⟨pid, t.nextjid, if bg then BG else FG, buf⟩) ok hn hp hpid
    cases bg <;> rfl

/-- When `do_bgfg` writes `job->state`, the slot still holds a job. -/
def WritesTaken (s : Shell) (a : Act) : Prop :=
  ∀ fg job pid, s.pc = .bgfgWrite fg job pid → a = .next → (s.table.jobs job).pid ≠ 0

theorem eval_here {jobs : Fin MAXJOBS → Job} (hn : NoFg jobs) (argv : List String) (bg : Bool)
    (buf : String) : Here jobs (eval argv bg buf) := by
  unfold eval
  split
  · exact hn
  · split
    · exact trivial
    · split
      · exact hn
      · split
        · exact hn
        · split
          · split
            · exact hn
            · split
              · exact hn
              · exact ⟨hn, by omega⟩
          · exact hn

/-- A step of the main thread keeps the table in order, if it writes to a taken slot. -/
theorem next_inv {s s' : Shell} (hi : Inv s) (hw : WritesTaken s .next) (h : next s = some s') :
    Inv s' := by
  obtain ⟨ok, hp, hh⟩ := hi
  unfold next at h
  cases hpc : s.pc <;> rw [hpc] at hh <;> simp only [hpc] at h
  case forked bg buf pid =>
    cases h
    have hpl := addjob_placed bg buf ok hh.1 hh.2 hp
    refine ⟨hpl.ok, hpl.pids, hh.2, hpl.only, fun hb => hpl.noFg ?_⟩
    rw [hb]
    rfl
  case added bg pid =>
    cases h
    refine ⟨ok, hp, ?_⟩
    cases bg with
    | true => exact hh.2.2 rfl
    | false => exact ⟨hh.1, hh.2.1, fun j hj => by omega⟩
  case evalFind pid i =>
    cases h
    refine ⟨ok, hp, ?_⟩
    simp only
    split
    · exact trivial
    · split
      · split <;> exact hh
      · exact trivial
  case evalPrint =>
    cases h
    exact ⟨ok, hp, hh⟩
  case bgfgFind fg key i =>
    cases h
    refine ⟨ok, hp, ?_⟩
    simp only
    split
    · rename_i hlt
      split
      · rename_i hnames
        cases key with
        | jid n => exact hh.1
        | pid n =>
          refine ⟨hh.1, fun _ => ⟨?_, by simpa [Key.names] using hnames⟩⟩
          have := hh.2
          simp only [Key.num] at this
          omega
      · exact hh
    · exact hh.1
  case bgfgPid fg job =>
    cases h
    refine ⟨ok, hp, hh, fun hne => ⟨?_, rfl⟩⟩
    have := hp job
    simp only at hne
    omega
  case bgfgWrite fg job pid =>
    cases h
    have hne := hw fg job pid hpc rfl
    obtain ⟨h1, h2⟩ := hh.2 hne
    have hpl : Placed fg pid (setState s.table job (if fg then FG else BG)).jobs := by
      rw [← h2]
      have hpos : 1 ≤ (s.table.jobs job).pid := by omega
      exact placed_update (x := { s.table.jobs job with state := if fg then FG else BG })
        ok hh.1 hp hpos rfl job
    refine ⟨hpl.ok, hpl.pids, ?_⟩
    cases fg with
    | true => exact ⟨h1, hpl.only, fun j hj => by omega⟩
    | false => exact hpl.noFg rfl
  case bgfgPrint =>
    cases h
    exact ⟨ok, hp, hh⟩
  case waitFind pid i =>
    cases h
    refine ⟨ok, hp, ?_⟩
    simp only
    split
    · rename_i hlt
      split
      · rename_i hfg
        exact ⟨hh.1, hh.2.1, fun j hj hjf => hj (ok.oneFg j ⟨i, hlt⟩ hjf hfg)⟩
      · rename_i hfg
        refine ⟨hh.1, hh.2.1, fun j hj => ?_⟩
        by_cases hji : j.val = i
        · have : j = ⟨i, hlt⟩ := Fin.ext hji
          rw [this]
          exact hfg
        · exact hh.2.2 j (by omega)
    · rename_i hge
      rw [if_neg (by have := hh.1; omega)]
      exact fun j => hh.2.2 j (by have := j.isLt; omega)
  case waitRead pid i =>
    cases h
    refine ⟨ok, hp, ?_⟩
    simp only
    split
    · exact ⟨hh.1, hh.2.1, fun j hj => by omega⟩
    · rename_i hne
      intro j hj
      by_cases hji : j = i
      · subst hji
        exact hne (hh.2.1 j hj).symm
      · exact hh.2.2 j hji hj
  all_goals cases h

theorem step_inv {s s' : Shell} {a : Act} (hi : Inv s) (hw : WritesTaken s a)
    (h : step s a = some s') : Inv s' := by
  obtain ⟨ok, hp, hh⟩ := hi
  cases a with
  | read argv bg buf =>
    simp only [step] at h
    split at h
    · rename_i hpc
      rw [hpc] at hh
      cases h
      exact ⟨ok, hp, eval_here hh argv bg buf⟩
    · cases h
  | fork pid =>
    simp only [step] at h
    split at h
    · cases h
      exact ⟨ok, hp, trivial⟩
    · rename_i bg buf pid hpc
      rw [hpc] at hh
      split at h
      · rename_i hpid
        cases h
        exact ⟨ok, hp, hh, hpid.1⟩
      · cases h
    · cases h
  | kill k =>
    simp only [step] at h
    split at h
    · rename_i fg job pid hpc
      rw [hpc] at hh
      cases h
      refine ⟨ok, hp, ?_⟩
      simp only
      split
      · exact hh
      · exact trivial
    · cases h
  | next => exact next_inv ⟨ok, hp, hh⟩ hw h
  | sigchld reports =>
    simp only [step] at h
    split at h
    · exact handler_inv ⟨ok, hp, hh⟩ h
    · cases h
  | keyboard k =>
    simp only [step] at h
    split at h
    · cases h
    · cases h
      unfold sigint_handler
      split
      · exact ⟨ok, hp, hh⟩
      · split
        · exact ⟨ok, hp, hh⟩
        · exact ⟨ok, hp, trivial⟩

/-! ## The law -/

/-- The table is in order, and `fgpid` right. -/
def Ordered (s : Shell) : Prop := TableOk s.table.jobs ∧ FgpidRight s.table.jobs

/-- A write to a cleared slot leaves an empty slot with a state. -/
theorem write_to_cleared {s : Shell} {fg : Bool} {job : Fin MAXJOBS} {pid : Int}
    (hpc : s.pc = .bgfgWrite fg job pid) (hpid : (s.table.jobs job).pid = 0) :
    ∃ s', step s .next = some s' ∧ ¬TableOk s'.table.jobs := by
  simp only [step, next, hpc]
  refine ⟨_, rfl, fun ok => ?_⟩
  have hself := ok.empty job (by simp [setState, hpid])
  simp only [setState, Function.update_self] at hself
  cases fg with
  | true => exact absurd hself.2 (by simp)
  | false => exact absurd hself.2 (by simp)

/-- In every run of the shell, the table is in order in every state reached exactly when
`do_bgfg` only writes the state of jobs that are still there. -/
theorem the_table_is_in_order_iff (acts : List Act) :
    Reaches step Ordered init acts ↔ Along step WritesTaken init acts := by
  constructor
  · intro hr js a ks b hacts hb fg job pid hpc ha hpid
    subst ha
    obtain ⟨s', hs', hbad⟩ := write_to_cleared hpc hpid
    exact hbad (hr (js ++ [Act.next]) ks s' (by rw [hacts]; simp)
      (exec_snoc.mpr ⟨b, hb, hs'⟩)).1
  · intro hw js ks b hacts hb
    have hi := reaches_invariant (fun _ _ _ hi hc hs => step_inv hi hc hs) inv_init hw js ks b
      hacts hb
    exact ⟨hi.ok, fgpid_right hi.ok⟩

/-- `/bin/sleep 9 &`, then `fg %1`: the child ends after SIGCONT was sent, and `do_bgfg`
writes FG into the slot that the handler has cleared. -/
def foreground_a_dead_job : List Act :=
  [.read ["/bin/sleep", "9"] true "/bin/sleep 9 &\n", .fork (some 100), .next, .next, .next,
    .next, .read ["fg", "%1"] false "fg %1\n", .next, .next, .kill true,
    .sigchld [(100, .exited)], .next]

theorem a_dead_job_stays_in_the_foreground :
    ¬∀ acts s, exec step init acts = some s → Ordered s := by
  intro h
  have hrun : (exec step init foreground_a_dead_job).isSome = true := by decide
  obtain ⟨s, hs⟩ := Option.isSome_iff_exists.mp hrun
  have hbad : (exec step init foreground_a_dead_job).all fun s =>
      (s.table.jobs 0).pid = 0 ∧ (s.table.jobs 0).state = FG := by decide
  rw [hs] at hbad
  simp only [Option.all_some, decide_eq_true_eq] at hbad
  have := ((h foreground_a_dead_job s hs).1.empty 0 hbad.1).2
  rw [hbad.2] at this
  cases this

end ics_labs.tsh
