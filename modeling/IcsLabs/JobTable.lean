-- The job table of lab9 (tsh.c) and the helpers that read and change it.
import IcsLabs.CText

open ics_labs.ctext

namespace ics_labs.tsh

abbrev MAXJOBS : Nat := 16

inductive JobState
  | UNDEF | FG | BG | ST
  deriving DecidableEq, Repr

open JobState

structure Job where
  pid : Int
  jid : Int
  state : JobState
  cmdline : String
  deriving DecidableEq

/-- The globals `jobs` and `nextjid`. -/
structure Table where
  jobs : Fin MAXJOBS → Job
  nextjid : Int

/-- What `clearjob` leaves in a slot. -/
def clearjob : Job := ⟨0, 0, UNDEF, ""⟩

def initjobs : Fin MAXJOBS → Job := fun _ => clearjob

/-- The first slot that passes the test: the loops below all look for one. -/
def firstSlot (p : Fin MAXJOBS → Bool) : Option (Fin MAXJOBS) := (List.finRange MAXJOBS).find? p

/-- Returns the largest allocated job ID. -/
def maxjid (jobs : Fin MAXJOBS → Job) : Int :=
  (List.finRange MAXJOBS).foldl (fun max i => if (jobs i).jid > max then (jobs i).jid else max) 0

/-- Add a job to the job list. -/
def addjob (t : Table) (pid : Int) (state : JobState) (cmdline : String) : Table × Bool :=
  if pid < 1 then (t, false)
  else
    match firstSlot fun i => (t.jobs i).pid == 0 with
    | some i =>
      let nextjid := int (t.nextjid + 1)
      ({ jobs := Function.update t.jobs i ⟨pid, t.nextjid, state, cmdline⟩
         nextjid := if nextjid > MAXJOBS then 1 else nextjid }, true)
    | none => (t, false)

/-- Delete a job whose PID is `pid` from the job list. -/
def deletejob (t : Table) (pid : Int) : Table × Bool :=
  if pid < 1 then (t, false)
  else
    match firstSlot fun i => (t.jobs i).pid == pid with
    | some i =>
      let jobs := Function.update t.jobs i clearjob
      ({ jobs, nextjid := int (maxjid jobs + 1) }, true)
    | none => (t, false)

/-- Return the PID of the current foreground job, 0 if there is no such job. -/
def fgpid (jobs : Fin MAXJOBS → Job) : Int :=
  match firstSlot fun i => (jobs i).state == FG with
  | some i => (jobs i).pid
  | none => 0

/-- Find a job (by PID) on the job list. -/
def getjobpid (jobs : Fin MAXJOBS → Job) (pid : Int) : Option (Fin MAXJOBS) :=
  if pid < 1 then none else firstSlot fun i => (jobs i).pid == pid

/-- Find a job (by JID) on the job list. -/
def getjobjid (jobs : Fin MAXJOBS → Job) (jid : Int) : Option (Fin MAXJOBS) :=
  if jid < 1 then none else firstSlot fun i => (jobs i).jid == jid

/-- `job->state = state`. -/
def setState (t : Table) (i : Fin MAXJOBS) (state : JobState) : Table :=
  { t with jobs := Function.update t.jobs i { t.jobs i with state } }

/-! ## The search -/

theorem firstSlot_some {p : Fin MAXJOBS → Bool} {i : Fin MAXJOBS} (h : firstSlot p = some i) :
    p i = true := List.find?_some h

theorem firstSlot_none {p : Fin MAXJOBS → Bool} (h : firstSlot p = none) (i : Fin MAXJOBS) :
    p i = false := by
  have := List.find?_eq_none.mp h i (List.mem_finRange i)
  simpa using this

end ics_labs.tsh
