-- The shell with a memory: what waitpid last said of each child since it was last told to
-- go on, and which children found no slot in the job table. Against these, what the table
-- says of a job and what the pointers to jobs point to.
import IcsLabs.JobNumbers
import IcsLabs.ShellRuns

open ics_labs.runs

namespace ics_labs.tsh

open JobState

/-! ## The memory -/

/-- The shell, the last report on each child since it was started or sent SIGCONT, and the
children whose `addjob` found the table full. -/
structure Watched where
  shell : Shell
  news : Int → Option Change
  unlisted : List Int

def watchedInit : Watched := ⟨init, fun _ => none, []⟩

/-- No slot is free. -/
def Full (jobs : Fin MAXJOBS → Job) : Prop := ∀ i, (jobs i).pid ≠ 0

instance (jobs : Fin MAXJOBS → Job) : Decidable (Full jobs) :=
  inferInstanceAs (Decidable (∀ i, (jobs i).pid ≠ 0))

/-- What a report adds to the news. -/
def hear (news : Int → Option Change) (r : Int × Change) : Int → Option Change :=
  Function.update news r.1 (some r.2)

def newsAfter (w : Watched) : Act → Int → Option Change
  | .fork (some pid) => Function.update w.news pid none
  | .kill true =>
    match w.shell.pc with
    | .bgfgKill _ _ pid => Function.update w.news pid none
    | _ => w.news
  | .sigchld reports => reports.foldl hear w.news
  | _ => w.news

/-- A child that ends is no child any more. -/
def forget (unlisted : List Int) (r : Int × Change) : List Int :=
  if r.2 = .stopped then unlisted else unlisted.filter (· ≠ r.1)

def unlistedAfter (w : Watched) : Act → List Int
  | .next =>
    match w.shell.pc with
    | .forked _ _ pid => if Full w.shell.table.jobs then pid :: w.unlisted else w.unlisted
    | _ => w.unlisted
  | .sigchld reports => reports.foldl forget w.unlisted
  | _ => w.unlisted

/-- A step of the shell, remembered. -/
def watch (w : Watched) (a : Act) : Option Watched :=
  (step w.shell a).map fun s => ⟨s, newsAfter w a, unlistedAfter w a⟩

/-- The memory does not change what the shell does. -/
theorem exec_watch (w : Watched) (acts : List Act) :
    (exec watch w acts).map Watched.shell = exec step w.shell acts := by
  induction acts generalizing w with
  | nil => rfl
  | cons a acts ih =>
    show ((watch w a).bind fun v => exec watch v acts).map Watched.shell =
      (step w.shell a).bind fun s => exec step s acts
    unfold watch
    cases hs : step w.shell a with
    | none => rfl
    | some s => exact ih _

/-! ## What the table says of a job -/

/-- The slots that hold a job are apart, and their pids are children. -/
structure Listed (s : Shell) : Prop where
  apart : ∀ i j, (s.table.jobs i).pid ≠ 0 → (s.table.jobs i).pid = (s.table.jobs j).pid → i = j
  child : ∀ i, (s.table.jobs i).pid ≠ 0 → (s.table.jobs i).pid ∈ s.children
  positive : ∀ pid ∈ s.children, 1 ≤ pid
  nodup : s.children.Nodup
  forked : ∀ bg buf pid, s.pc = .forked bg buf pid →
    pid ∈ s.children ∧ ∀ i, (s.table.jobs i).pid ≠ pid

/-- What the handler recorded last is what the table says: a stopped job is ST, an ended
one has no slot, and a slot that was cleared is free. -/
structure Recorded (jobs : Fin MAXJOBS → Job) (news : Int → Option Change) : Prop where
  stopped : ∀ i, (jobs i).pid ≠ 0 → news (jobs i).pid = some .stopped → (jobs i).state = .ST
  ended : ∀ i, (jobs i).pid ≠ 0 → news (jobs i).pid = none ∨ news (jobs i).pid = some .stopped
  cleared : ∀ i, (jobs i).pid = 0 → (jobs i).jid = 0 ∧ (jobs i).state = UNDEF

/-- `waitfg` waits for the job: it is in its loop, and the test of the loop holds. -/
def Waits (s : Shell) (pid : Int) : Prop :=
  ((∃ i, s.pc = .waitFind pid i) ∨ ∃ i, s.pc = .waitRead pid i) ∧ fgpid s.table.jobs = pid

/-- No report is lost, and `waitfg` waits for no job that has stopped or ended. -/
structure NothingLost (w : Watched) : Prop where
  recorded : Recorded w.shell.table.jobs w.news
  waits : ∀ pid, Waits w.shell pid → w.news pid = none

/-- When `do_bgfg` writes `job->state`, the slot holds the job, and nothing was reported of
it since SIGCONT was sent. -/
def WritesUnreported (w : Watched) (a : Act) : Prop :=
  ∀ fg job pid, w.shell.pc = .bgfgWrite fg job pid → a = .next →
    (w.shell.table.jobs job).pid ≠ 0 ∧ w.news (w.shell.table.jobs job).pid = none

/-! ## The handler -/

/-- A report on a child, with what it does to table, children and place. -/
theorem report_spec {s s' : Shell} {r : Int × Change} (hl : Listed s) (h : report s r = some s') :
    r.1 ∈ s.children ∧
    ((r.2 = .stopped ∧ s'.children = s.children ∧
      ((∃ i, (s.table.jobs i).pid = r.1 ∧ s'.pc = s.pc ∧ s'.table = setState s.table i .ST) ∨
       ((∀ i, (s.table.jobs i).pid ≠ r.1) ∧ s'.pc = .crashed ∧ s'.table = s.table))) ∨
     (r.2 ≠ .stopped ∧ s'.children = s.children.erase r.1 ∧ s'.pc = s.pc ∧
      ∀ i, s'.table.jobs i = if (s.table.jobs i).pid = r.1 then clearjob else s.table.jobs i)) := by
  unfold report at h
  split at h
  · cases h
  · rename_i hc
    have hc : r.1 ∈ s.children := by simpa using hc
    have hpos := hl.positive _ hc
    refine ⟨hc, ?_⟩
    split at h
    · rename_i hst
      left
      split at h
      · rename_i i hi
        obtain ⟨-, hp⟩ := getjobpid_some hi
        cases h
        exact ⟨hst, rfl, Or.inl ⟨i, hp, rfl, rfl⟩⟩
      · rename_i hnone
        cases h
        refine ⟨hst, rfl, Or.inr ⟨fun i => ?_, rfl, rfl⟩⟩
        unfold getjobpid at hnone
        rw [if_neg (by omega)] at hnone
        simpa using firstSlot_none hnone i
    · rename_i hst
      right
      cases h
      refine ⟨fun he => hst he, rfl, rfl, fun i => ?_⟩
      unfold deletejob
      rw [if_neg (by omega)]
      cases hf : firstSlot fun i => (s.table.jobs i).pid == r.1 with
      | none =>
        have hi : (s.table.jobs i).pid ≠ r.1 := by simpa using firstSlot_none hf i
        rw [if_neg hi]
      | some j =>
        have hj : (s.table.jobs j).pid = r.1 := by simpa using firstSlot_some hf
        show Function.update s.table.jobs j clearjob i = _
        by_cases hij : i = j
        · rw [hij, Function.update_self, if_pos hj]
        · have hi : (s.table.jobs i).pid ≠ r.1 := by
            intro hi
            exact hij (hl.apart i j (by omega) (by rw [hi, hj]))
          rw [Function.update_of_ne hij, if_neg hi]

theorem setState_pid (t : Table) (i j : Fin MAXJOBS) (st : JobState) :
    ((setState t i st).jobs j).pid = (t.jobs j).pid := by
  unfold setState
  by_cases hj : j = i
  · subst hj
    simp
  · simp [hj]

/-- A change of states alone leaves the slots with their pids. -/
theorem Listed.of_pids {s s' : Shell} (hl : Listed s)
    (hp : ∀ i, (s'.table.jobs i).pid = (s.table.jobs i).pid) (hc : s'.children = s.children)
    (hpc : ∀ bg buf pid, s'.pc = .forked bg buf pid → s.pc = .forked bg buf pid) : Listed s' := by
  refine ⟨fun i j h1 h2 => ?_, fun i h1 => ?_, ?_, ?_, fun bg buf pid h1 => ?_⟩
  · rw [hp, hp] at h2
    rw [hp] at h1
    exact hl.apart i j h1 h2
  · rw [hp, hc]
    rw [hp] at h1
    exact hl.child i h1
  · rw [hc]
    exact hl.positive
  · rw [hc]
    exact hl.nodup
  · obtain ⟨h2, h3⟩ := hl.forked bg buf pid (hpc bg buf pid h1)
    rw [hc]
    refine ⟨h2, fun i => ?_⟩
    rw [hp]
    exact h3 i

theorem report_listed {s s' : Shell} {r : Int × Change} (hl : Listed s)
    (hpc : ∀ bg buf pid, s.pc ≠ .forked bg buf pid) (h : report s r = some s') : Listed s' := by
  obtain ⟨hc, ⟨-, hch, hcase⟩ | ⟨-, hch, hpc', htab⟩⟩ := report_spec hl h
  · rcases hcase with ⟨i, -, hpc', htab⟩ | ⟨-, hpc', htab⟩
    · refine hl.of_pids (fun j => ?_) hch fun bg buf pid he => ?_
      · rw [htab]
        exact setState_pid _ _ _ _
      · rw [hpc'] at he
        exact he
    · refine hl.of_pids (fun j => ?_) hch fun bg buf pid he => ?_
      · rw [htab]
      · rw [hpc'] at he
        cases he
  · have hpid : ∀ i, (s'.table.jobs i).pid ≠ 0 →
        s'.table.jobs i = s.table.jobs i ∧ (s.table.jobs i).pid ≠ r.1 := by
      intro i hi
      rw [htab] at hi ⊢
      split
      · rename_i he
        rw [if_pos he] at hi
        exact absurd rfl hi
      · rename_i he
        exact ⟨rfl, he⟩
    refine ⟨fun i j h1 h2 => ?_, fun i h1 => ?_, ?_, ?_, fun bg buf pid he => ?_⟩
    · obtain ⟨h3, -⟩ := hpid i h1
      obtain ⟨h4, -⟩ := hpid j (by rw [← h2]; exact h1)
      rw [h3, h4] at h2
      rw [h3] at h1
      exact hl.apart i j h1 h2
    · obtain ⟨h3, h4⟩ := hpid i h1
      rw [h3, hch]
      rw [h3] at h1
      exact (List.mem_erase_of_ne h4).mpr (hl.child i h1)
    · intro pid hp
      rw [hch] at hp
      exact hl.positive pid (List.mem_of_mem_erase hp)
    · rw [hch]
      exact hl.nodup.erase _
    · rw [hpc'] at he
      exact absurd he (hpc bg buf pid)

theorem report_recorded {s s' : Shell} {r : Int × Change} {news : Int → Option Change}
    (hl : Listed s) (hr : Recorded s.table.jobs news) (h : report s r = some s') :
    Recorded s'.table.jobs (hear news r) := by
  obtain ⟨hc, ⟨hst, -, hcase⟩ | ⟨-, -, -, htab⟩⟩ := report_spec hl h
  · have hpos := hl.positive _ hc
    rcases hcase with ⟨i, hi, -, htab⟩ | ⟨hno, -, htab⟩
    · rw [htab]
      have hother : ∀ j, j ≠ i → (setState s.table i .ST).jobs j = s.table.jobs j :=
        fun j hj => Function.update_of_ne hj _ _
      have hself : (setState s.table i .ST).jobs i = { s.table.jobs i with state := .ST } :=
        Function.update_self _ _ _
      -- every other job has another pid
      have hnews : ∀ j, j ≠ i → (s.table.jobs j).pid ≠ 0 →
          hear news r (s.table.jobs j).pid = news (s.table.jobs j).pid := by
        intro j hj h0
        apply Function.update_of_ne
        intro he
        exact hj (hl.apart j i h0 (by rw [he, hi]))
      refine ⟨fun j h0 hn => ?_, fun j h0 => ?_, fun j h0 => ?_⟩
      · by_cases hj : j = i
        · rw [hj, hself]
        · rw [hother j hj] at h0 hn ⊢
          rw [hnews j hj h0] at hn
          exact hr.stopped j h0 hn
      · by_cases hj : j = i
        · right
          rw [hj, hself]
          show hear news r (s.table.jobs i).pid = _
          rw [hi, ← hst]
          exact Function.update_self _ _ _
        · rw [hother j hj] at h0 ⊢
          rw [hnews j hj h0]
          exact hr.ended j h0
      · by_cases hj : j = i
        · rw [hj, hself] at h0
          simp only [hi] at h0
          omega
        · rw [hother j hj] at h0 ⊢
          exact hr.cleared j h0
    · rw [htab]
      have hnews : ∀ j, hear news r (s.table.jobs j).pid = news (s.table.jobs j).pid :=
        fun j => Function.update_of_ne (hno j) _ _
      refine ⟨fun j h0 hn => ?_, fun j h0 => ?_, hr.cleared⟩
      · rw [hnews] at hn
        exact hr.stopped j h0 hn
      · rw [hnews]
        exact hr.ended j h0
  · have hpid : ∀ i, s'.table.jobs i = clearjob ∨
        s'.table.jobs i = s.table.jobs i ∧ (s.table.jobs i).pid ≠ r.1 := by
      intro i
      rw [htab]
      split
      · exact Or.inl rfl
      · rename_i he
        exact Or.inr ⟨rfl, he⟩
    refine ⟨fun j h0 hn => ?_, fun j h0 => ?_, fun j h0 => ?_⟩
    · rcases hpid j with he | ⟨he, hne⟩
      · rw [he] at h0
        exact absurd rfl h0
      · rw [he] at h0 hn ⊢
        rw [hear, Function.update_of_ne hne] at hn
        exact hr.stopped j h0 hn
    · rcases hpid j with he | ⟨he, hne⟩
      · rw [he] at h0
        exact absurd rfl h0
      · rw [he] at h0 ⊢
        rw [hear, Function.update_of_ne hne]
        exact hr.ended j h0
    · rcases hpid j with he | ⟨he, -⟩
      · rw [he]
        exact ⟨rfl, rfl⟩
      · rw [he] at h0 ⊢
        exact hr.cleared j h0

theorem report_not_forked {s s' : Shell} {r : Int × Change} (hl : Listed s)
    (hpc : ∀ bg buf pid, s.pc ≠ .forked bg buf pid) (h : report s r = some s') :
    ∀ bg buf pid, s'.pc ≠ .forked bg buf pid := by
  obtain ⟨-, ⟨-, -, ⟨i, -, he, -⟩ | ⟨-, he, -⟩⟩ | ⟨-, -, he, -⟩⟩ := report_spec hl h
  · rw [he]
    exact hpc
  · rw [he]
    exact fun bg buf pid hf => by cases hf
  · rw [he]
    exact hpc

theorem handler_listed {s s' : Shell} {rs : List (Int × Change)} (hl : Listed s)
    (hpc : ∀ bg buf pid, s.pc ≠ .forked bg buf pid) (h : sigchld_handler s rs = some s') :
    Listed s' ∧ ∀ bg buf pid, s'.pc ≠ .forked bg buf pid := by
  induction rs generalizing s with
  | nil =>
    cases h
    exact ⟨hl, hpc⟩
  | cons r rs ih =>
    unfold sigchld_handler at h
    split at h
    · cases h
    · obtain ⟨t, ht, h⟩ := Option.bind_eq_some_iff.mp h
      exact ih (report_listed hl hpc ht) (report_not_forked hl hpc ht) h

theorem handler_recorded {s s' : Shell} {rs : List (Int × Change)} {news : Int → Option Change}
    (hl : Listed s) (hr : Recorded s.table.jobs news)
    (hpc : ∀ bg buf pid, s.pc ≠ .forked bg buf pid) (h : sigchld_handler s rs = some s') :
    Recorded s'.table.jobs (rs.foldl hear news) := by
  induction rs generalizing s news with
  | nil =>
    cases h
    exact hr
  | cons r rs ih =>
    unfold sigchld_handler at h
    split at h
    · cases h
    · obtain ⟨t, ht, h⟩ := Option.bind_eq_some_iff.mp h
      exact ih (report_listed hl hpc ht) (report_recorded hl hr ht) (report_not_forked hl hpc ht) h

/-! ## The main thread -/

/-- Everything that a step of the main thread can do to the table. -/
theorem next_cases {s s' : Shell} (h : next s = some s') :
    s'.children = s.children ∧
    ((∃ bg buf pid, s.pc = .forked bg buf pid ∧ s'.pc = .added bg pid ∧
        s'.table = (addjob s.table pid (if bg then BG else FG) buf).1) ∨
     (∃ fg job pid, s.pc = .bgfgWrite fg job pid ∧
        s'.pc = (if fg then .waitFind pid 0 else .bgfgPrint job pid) ∧
        s'.table = setState s.table job (if fg then FG else BG)) ∨
     (s'.table = s.table ∧ (∀ bg buf pid, s.pc ≠ .forked bg buf pid) ∧
        ∀ bg buf pid, s'.pc ≠ .forked bg buf pid)) := by
  unfold next at h
  cases hpc : s.pc <;> simp only [hpc] at h
  case forked bg buf pid =>
    cases h
    exact ⟨rfl, Or.inl ⟨bg, buf, pid, rfl, rfl, rfl⟩⟩
  case bgfgWrite fg job pid =>
    cases h
    exact ⟨rfl, Or.inr (Or.inl ⟨fg, job, pid, rfl, rfl, rfl⟩)⟩
  case added bg pid =>
    cases h
    refine ⟨rfl, Or.inr (Or.inr ⟨rfl, by simp, ?_⟩)⟩
    cases bg <;> simp
  case evalFind pid i =>
    cases h
    refine ⟨rfl, Or.inr (Or.inr ⟨rfl, by simp, ?_⟩)⟩
    simp only
    split_ifs <;> simp
  case evalPrint | bgfgPid | bgfgPrint =>
    cases h
    exact ⟨rfl, Or.inr (Or.inr ⟨rfl, by simp, by simp⟩)⟩
  case bgfgFind fg key i =>
    cases h
    refine ⟨rfl, Or.inr (Or.inr ⟨rfl, by simp, ?_⟩)⟩
    simp only
    split_ifs <;> cases key <;> simp
  case waitFind pid i =>
    cases h
    refine ⟨rfl, Or.inr (Or.inr ⟨rfl, by simp, ?_⟩)⟩
    simp only
    split_ifs <;> simp
  case waitRead pid i =>
    cases h
    refine ⟨rfl, Or.inr (Or.inr ⟨rfl, by simp, ?_⟩)⟩
    simp only
    split_ifs <;> simp
  all_goals cases h

theorem eval_not_forked (argv : List String) (bg : Bool) (buf : String) :
    ∀ b t p, eval argv bg buf ≠ .forked b t p := by
  intro b t p
  unfold eval
  cases argv with
  | nil => simp
  | cons cmd args =>
    cases args <;> simp only <;> split_ifs <;> simp

/-- A new job in an empty slot keeps the table listed. -/
theorem Listed.addjob {s : Shell} {bg : Bool} {buf : String} {pid : Int} (hl : Listed s)
    (hpc : s.pc = .forked bg buf pid) (st : JobState) :
    Listed { s with pc := .added bg pid, table := (tsh.addjob s.table pid st buf).1 } := by
  obtain ⟨hc, hnew⟩ := hl.forked bg buf pid hpc
  rcases addjob_cases s.table pid st buf with ⟨he, -⟩ | ⟨i, n, hpid, -, he⟩
  · rw [he]
    exact hl.of_pids (fun _ => rfl) rfl fun _ _ _ hf => by cases hf
  · rw [he]
    have hself : Function.update s.table.jobs i ⟨pid, s.table.nextjid, st, buf⟩ i =
      ⟨pid, s.table.nextjid, st, buf⟩ := Function.update_self _ _ _
    have hother : ∀ j, j ≠ i → Function.update s.table.jobs i ⟨pid, s.table.nextjid, st, buf⟩ j =
        s.table.jobs j := fun j hj => Function.update_of_ne hj _ _
    refine ⟨fun j k h0 heq => ?_, fun j h0 => ?_, hl.positive, hl.nodup, fun _ _ _ hf => by cases hf⟩
    · simp only at h0 heq
      by_cases hj : j = i <;> by_cases hk : k = i
      · rw [hj, hk]
      · rw [hj, hself, hother k hk] at heq
        exact absurd heq.symm (hnew k)
      · rw [hk, hself, hother j hj] at heq
        exact absurd heq (hnew j)
      · rw [hother j hj, hother k hk] at heq
        rw [hother j hj] at h0
        exact hl.apart j k h0 heq
    · simp only at h0 ⊢
      by_cases hj : j = i
      · rw [hj, hself]
        exact hc
      · rw [hother j hj] at h0 ⊢
        exact hl.child j h0

theorem Recorded.addjob {t : Table} {news : Int → Option Change} {pid : Int}
    (hr : Recorded t.jobs news) (hnews : news pid = none) (st : JobState) (buf : String) :
    Recorded (tsh.addjob t pid st buf).1.jobs news := by
  rcases addjob_cases t pid st buf with ⟨he, -⟩ | ⟨i, n, hpid, -, he⟩
  · rw [he]
    exact hr
  · rw [he]
    have hself : Function.update t.jobs i ⟨pid, t.nextjid, st, buf⟩ i =
      ⟨pid, t.nextjid, st, buf⟩ := Function.update_self _ _ _
    have hother : ∀ j, j ≠ i → Function.update t.jobs i ⟨pid, t.nextjid, st, buf⟩ j =
        t.jobs j := fun j hj => Function.update_of_ne hj _ _
    refine ⟨fun j h0 hn => ?_, fun j h0 => ?_, fun j h0 => ?_⟩ <;> simp only at *
    · by_cases hj : j = i
      · rw [hj, hself] at hn
        rw [hnews] at hn
        cases hn
      · rw [hother j hj] at h0 hn ⊢
        exact hr.stopped j h0 hn
    · by_cases hj : j = i
      · rw [hj, hself]
        exact Or.inl hnews
      · rw [hother j hj] at h0 ⊢
        exact hr.ended j h0
    · by_cases hj : j = i
      · rw [hj, hself] at h0
        simp only at h0
        omega
      · rw [hother j hj] at h0 ⊢
        exact hr.cleared j h0

/-- A write to a job of which nothing was reported keeps what was recorded. -/
theorem Recorded.setState {t : Table} {news : Int → Option Change} {i : Fin MAXJOBS}
    (hr : Recorded t.jobs news) (h0 : (t.jobs i).pid ≠ 0) (hn : news (t.jobs i).pid = none)
    (st : JobState) : Recorded (tsh.setState t i st).jobs news := by
  have hself : (tsh.setState t i st).jobs i = { t.jobs i with state := st } :=
    Function.update_self _ _ _
  have hother : ∀ j, j ≠ i → (tsh.setState t i st).jobs j = t.jobs j :=
    fun j hj => Function.update_of_ne hj _ _
  refine ⟨fun j hj hs => ?_, fun j hj => ?_, fun j hj => ?_⟩
  · by_cases hji : j = i
    · rw [hji, hself, hn] at hs
      cases hs
    · rw [hother j hji] at hj hs ⊢
      exact hr.stopped j hj hs
  · rw [setState_pid] at hj ⊢
    exact hr.ended j hj
  · by_cases hji : j = i
    · rw [hji, setState_pid] at hj
      exact absurd hj h0
    · rw [hother j hji] at hj ⊢
      exact hr.cleared j hj

/-- SIGCONT, or a new child: what was reported before counts no more. -/
theorem Recorded.update {jobs : Fin MAXJOBS → Job} {news : Int → Option Change}
    (hr : Recorded jobs news) (pid : Int) : Recorded jobs (Function.update news pid none) := by
  refine ⟨fun i h0 hn => ?_, fun i h0 => ?_, hr.cleared⟩
  · by_cases hp : (jobs i).pid = pid
    · rw [hp, Function.update_self] at hn
      cases hn
    · rw [Function.update_of_ne hp] at hn
      exact hr.stopped i h0 hn
  · by_cases hp : (jobs i).pid = pid
    · rw [hp, Function.update_self]
      exact Or.inl rfl
    · rw [Function.update_of_ne hp]
      exact hr.ended i h0

/-- Every step keeps the slots and the children listed. -/
theorem step_listed {s s' : Shell} {a : Act} (hl : Listed s) (h : step s a = some s') :
    Listed s' := by
  cases a with
  | read argv bg buf =>
    simp only [step] at h
    split at h
    · cases h
      exact hl.of_pids (fun _ => rfl) rfl fun b t p he => absurd he (eval_not_forked _ _ _ b t p)
    · cases h
  | fork pid =>
    simp only [step] at h
    split at h
    · cases h
      exact hl.of_pids (fun _ => rfl) rfl fun b t p he => by cases he
    · split at h
      · rename_i bg buf pid _ hpid
        cases h
        refine ⟨hl.apart, fun i h0 => List.mem_cons_of_mem _ (hl.child i h0), ?_,
          List.nodup_cons.mpr ⟨hpid.2, hl.nodup⟩, ?_⟩
        · intro q hq
          rcases List.mem_cons.mp hq with rfl | hq
          · exact hpid.1
          · exact hl.positive q hq
        · intro b t p he
          cases he
          refine ⟨List.mem_cons_self, fun i hi => ?_⟩
          have hi' : (s.table.jobs i).pid = pid := hi
          have := hl.child i (by omega)
          rw [hi'] at this
          exact hpid.2 this
      · cases h
    · cases h
  | kill ok =>
    simp only [step] at h
    split at h
    · cases h
      refine hl.of_pids (fun _ => rfl) rfl fun b t p he => ?_
      cases ok <;> cases he
    · cases h
  | next =>
    obtain ⟨hch, ⟨bg, buf, pid, hpc, hpc', htab⟩ | ⟨fg, job, pid, -, hpc', htab⟩ |
      ⟨htab, -, hnf⟩⟩ := next_cases h
    · obtain ⟨pc', t', ch'⟩ := s'
      simp only at hch hpc' htab
      subst hch hpc' htab
      exact hl.addjob hpc _
    · refine hl.of_pids (fun i => ?_) hch fun b t p he => ?_
      · rw [htab]
        exact setState_pid _ _ _ _
      · rw [hpc'] at he
        cases fg <;> cases he
    · refine hl.of_pids (fun i => ?_) hch fun b t p he => absurd he (hnf b t p)
      rw [htab]
  | sigchld reports =>
    simp only [step] at h
    split at h
    · rename_i hsig
      refine (handler_listed hl (fun b t p he => ?_) h).1
      rw [he] at hsig
      cases hsig
    · cases h
  | keyboard ok =>
    simp only [step] at h
    split at h
    · cases h
    · cases h
      unfold sigint_handler
      split_ifs
      · exact hl
      · exact hl
      · exact hl.of_pids (fun _ => rfl) rfl fun b t p he => by cases he

/-! ## The law of the news -/

/-- What every step keeps while `do_bgfg` overwrites no report. -/
structure Kept (w : Watched) : Prop where
  inv : Inv w.shell
  listed : Listed w.shell
  recorded : Recorded w.shell.table.jobs w.news
  newborn : ∀ bg buf pid, w.shell.pc = .forked bg buf pid → w.news pid = none

theorem kept_init : Kept watchedInit := by
  refine ⟨inv_init, ⟨fun i j h => absurd rfl h, fun i h => absurd rfl h, by simp [watchedInit, init],
    List.nodup_nil, fun bg buf pid h => by cases h⟩, ⟨fun i h => absurd rfl h, fun i h => absurd rfl h,
    fun i _ => ⟨rfl, rfl⟩⟩, fun bg buf pid h => by cases h⟩

theorem Kept.nothingLost {w : Watched} (k : Kept w) : NothingLost w := by
  refine ⟨k.recorded, ?_⟩
  rintro pid ⟨hpc, hfg⟩
  have hpos : 1 ≤ pid := by
    have hh := k.inv.here
    rcases hpc with ⟨i, hpc⟩ | ⟨i, hpc⟩ <;> rw [hpc] at hh <;> exact hh.1
  -- the job that `fgpid` names is in the foreground
  obtain ⟨i, hi, hst⟩ : ∃ i, (w.shell.table.jobs i).pid = pid ∧ (w.shell.table.jobs i).state = FG := by
    unfold fgpid at hfg
    split at hfg
    · rename_i i hf
      exact ⟨i, hfg, by simpa using firstSlot_some hf⟩
    · omega
  have h0 : (w.shell.table.jobs i).pid ≠ 0 := by omega
  rcases k.recorded.ended i h0 with hn | hn
  · rw [hi] at hn
    exact hn
  · have := k.recorded.stopped i h0 hn
    rw [hst] at this
    cases this

theorem watch_kept {w w' : Watched} {a : Act} (k : Kept w) (hw : WritesUnreported w a)
    (h : watch w a = some w') : Kept w' := by
  obtain ⟨s', hs, rfl⟩ := Option.map_eq_some_iff.mp h
  obtain ⟨hi, hl, hr, hb⟩ := k
  have hinv : Inv s' := step_inv hi (fun fg job pid hpc ha => (hw fg job pid hpc ha).1) hs
  have hlist : Listed s' := step_listed hl hs
  suffices hrest : Recorded s'.table.jobs (newsAfter w a) ∧
      ∀ bg buf pid, s'.pc = .forked bg buf pid → newsAfter w a pid = none from
    ⟨hinv, hlist, hrest.1, hrest.2⟩
  clear hinv hlist
  cases a with
  | read argv bg buf =>
    simp only [step] at hs
    split at hs
    · cases hs
      exact ⟨hr, fun b t p he => absurd he (eval_not_forked _ _ _ b t p)⟩
    · cases hs
  | fork pid =>
    simp only [step] at hs
    split at hs
    · cases hs
      exact ⟨hr, fun b t p he => by cases he⟩
    · split at hs
      · rename_i bg buf pid _ _
        cases hs
        refine ⟨hr.update pid, fun b t p he => ?_⟩
        cases he
        exact Function.update_self _ _ _
      · cases hs
    · cases hs
  | kill ok =>
    simp only [step] at hs
    split at hs
    · rename_i fg job pid hpc
      cases hs
      cases ok with
      | true =>
        simp only [newsAfter, hpc]
        exact ⟨hr.update pid, fun b t p he => by cases he⟩
      | false => exact ⟨hr, fun b t p he => by cases he⟩
    · cases hs
  | next =>
    obtain ⟨-, ⟨bg, buf, pid, hpc, hpc', htab⟩ | ⟨fg, job, pid, hpc, hpc', htab⟩ |
      ⟨htab, -, hnf⟩⟩ := next_cases hs
    · rw [hpc', htab]
      exact ⟨hr.addjob (hb bg buf pid hpc) _ _, fun b t p he => by cases he⟩
    · obtain ⟨h0, hn⟩ := hw fg job pid hpc rfl
      rw [hpc', htab]
      refine ⟨hr.setState h0 hn _, fun b t p he => ?_⟩
      cases fg <;> cases he
    · rw [htab]
      exact ⟨hr, fun b t p he => absurd he (hnf b t p)⟩
  | sigchld reports =>
    simp only [step] at hs
    split at hs
    · rename_i hsig
      have hnf : ∀ b t p, w.shell.pc ≠ .forked b t p := by
        intro b t p he
        rw [he] at hsig
        cases hsig
      refine ⟨handler_recorded hl hr hnf hs, fun b t p he => ?_⟩
      exact absurd he ((handler_listed hl hnf hs).2 b t p)
    · cases hs
  | keyboard ok =>
    simp only [step] at hs
    split at hs
    · cases hs
    · cases hs
      unfold sigint_handler
      split_ifs
      · exact ⟨hr, hb⟩
      · exact ⟨hr, hb⟩
      · exact ⟨hr, fun b t p he => by cases he⟩

/-- In every run of the shell, what the handler recorded is what the table says, and `waitfg`
waits for no job that was reported, exactly when `do_bgfg` only writes the state of a job of
which nothing was reported since it sent SIGCONT. -/
theorem no_report_is_lost_iff (acts : List Act) :
    Reaches watch NothingLost watchedInit acts ↔ Along watch WritesUnreported watchedInit acts := by
  constructor
  · rintro hr js a ks w hacts hw fg job pid hpc rfl
    have hs : step w.shell .next = some { w.shell with
        pc := if fg then .waitFind pid 0 else .bgfgPrint job pid
        table := setState w.shell.table job (if fg then FG else BG) } := by
      simp only [step, next, hpc]
    have hwatch := congrArg (Option.map fun s => Watched.mk s (newsAfter w .next)
      (unlistedAfter w .next)) hs
    have hafter := (hr (js ++ [Act.next]) ks _ (by rw [hacts]; simp)
      (exec_snoc.mpr ⟨w, hw, hwatch⟩)).recorded
    have hself : (setState w.shell.table job (if fg then FG else BG)).jobs job =
        { w.shell.table.jobs job with state := if fg then FG else BG } := Function.update_self _ _ _
    have hbefore := (hr js (Act.next :: ks) w hacts hw).recorded
    have h0 : (w.shell.table.jobs job).pid ≠ 0 := by
      intro h0
      have hclear := (hafter.cleared job (by rw [setState_pid]; exact h0)).2
      rw [hself] at hclear
      cases fg <;> cases hclear
    refine ⟨h0, ?_⟩
    rcases hbefore.ended job h0 with hn | hn
    · exact hn
    · have hst := hafter.stopped job (by rw [setState_pid]; exact h0) (by
        rw [setState_pid]
        exact hn)
      rw [hself] at hst
      cases fg <;> cases hst
  · intro hw js ks w hacts hrun
    exact (reaches_invariant (fun _ _ _ k hc hs => watch_kept k hc hs) kept_init hw js ks w hacts
      hrun).nothingLost

/-- `/bin/sleep 9 &`, then `fg %1`: the child is stopped again after SIGCONT was sent, and
`do_bgfg` writes FG over the ST of the handler. -/
def foreground_a_stopped_job : List Act :=
  [.read ["/bin/sleep", "9"] true "/bin/sleep 9 &\n", .fork (some 100), .next, .next, .next,
    .next, .read ["fg", "%1"] false "fg %1\n", .next, .next, .kill true,
    .sigchld [(100, .stopped)], .next]

theorem a_stop_is_lost : ¬ ∀ acts, Reaches watch NothingLost watchedInit acts := by
  intro hall
  have hrun : (exec watch watchedInit foreground_a_stopped_job).any (fun w =>
      decide ((w.shell.table.jobs 0).pid = 100 ∧ w.news 100 = some .stopped ∧
        (w.shell.table.jobs 0).state = FG)) = true := by
    decide +kernel
  obtain ⟨w, hw, hbad⟩ := (Option.any_eq_true _ _).mp hrun
  obtain ⟨hpid, hnews, hst⟩ := of_decide_eq_true hbad
  have hrec := (hall foreground_a_stopped_job foreground_a_stopped_job [] w
    (List.append_nil _).symm hw).recorded
  have := hrec.stopped 0 (by omega) (by rw [hpid]; exact hnews)
  rw [hst] at this
  cases this

end ics_labs.tsh
