-- The shell of lab9 (tsh.c) as a machine of small steps: the main thread walks
-- through eval, do_bgfg and waitfg, and the SIGCHLD handler may run between any
-- two of its steps where SIGCHLD is not blocked.
import IcsLabs.CText
import IcsLabs.JobTable
import IcsLabs.Runs

open ics_labs.ctext

namespace ics_labs.tsh

open JobState

/-! ## The command line -/

/-- The job that an argument of `fg` and `bg` names. -/
inductive Key
  | jid (jid : Int)
  | pid (pid : Int)
  deriving DecidableEq, Repr

def Key.of (arg : String) : Key :=
  match arg.toList with
  | '%' :: cs => .jid (atoi cs)
  | cs => .pid (atoi cs)

/-- Does the slot hold the job? -/
def Key.names (key : Key) (job : Job) : Bool :=
  match key with
  | .jid n => job.jid == n
  | .pid n => job.pid == n

def Key.num : Key → Int
  | .jid n => n
  | .pid n => n

/-! ## The machine -/

/-- Where the main thread stands. A loop over the job list carries its index. -/
inductive Pc
  /-- `main` is about to read a command line. -/
  | idle
  /-- `eval` has blocked SIGCHLD and is about to fork. -/
  | blocked (bg : Bool) (buf : String)
  /-- `eval` is about to call `addjob`. -/
  | forked (bg : Bool) (buf : String) (pid : Int)
  /-- `eval` is about to unblock SIGCHLD. -/
  | added (bg : Bool) (pid : Int)
  /-- The loop of `getjobpid` that `eval` calls for a background job. -/
  | evalFind (pid : Int) (i : Nat)
  /-- `eval` is about to print `job->jid` and `job->cmdline`. -/
  | evalPrint (job : Fin MAXJOBS) (pid : Int)
  /-- The loop of `getjobjid` or `getjobpid` that `do_bgfg` calls. -/
  | bgfgFind (fg : Bool) (key : Key) (i : Nat)
  /-- `do_bgfg` is about to read `pid = job->pid`. -/
  | bgfgPid (fg : Bool) (job : Fin MAXJOBS)
  /-- `do_bgfg` is about to send SIGCONT. -/
  | bgfgKill (fg : Bool) (job : Fin MAXJOBS) (pid : Int)
  /-- `do_bgfg` is about to write `job->state`. -/
  | bgfgWrite (fg : Bool) (job : Fin MAXJOBS) (pid : Int)
  /-- `do_bgfg` is about to print `job->jid` and `job->cmdline`. -/
  | bgfgPrint (job : Fin MAXJOBS) (pid : Int)
  /-- The loop of `fgpid` that `waitfg` calls. -/
  | waitFind (pid : Int) (i : Nat)
  /-- `fgpid` is about to return `jobs[i].pid` to `waitfg`, which compares it. -/
  | waitRead (pid : Int) (i : Fin MAXJOBS)
  /-- The shell has called `exit`. -/
  | exited
  /-- The shell has dereferenced a null pointer. -/
  | crashed
  deriving DecidableEq

/-- How a child changed, as `waitpid` reports it. -/
inductive Change
  | exited | signaled | stopped
  deriving DecidableEq, Repr

/-- The shell and the children that it has not reaped. -/
structure Shell where
  pc : Pc
  table : Table
  children : List Int

def init : Shell where
  pc := .idle
  table := { jobs := initjobs, nextjid := 1 }
  children := []

/-- What the world does in one step. -/
inductive Act
  /-- A command line comes in, parsed by `parseline` to `argv` and the result `bg`. -/
  | read (argv : List String) (bg : Bool) (buf : String)
  /-- `fork` returns, with a pid or a failure. -/
  | fork (pid : Option Int)
  /-- `kill` returns. -/
  | kill (ok : Bool)
  /-- The main thread takes a step of its own. -/
  | next
  /-- The handler of SIGCHLD runs and `waitpid` gives it these reports. -/
  | sigchld (reports : List (Int × Change))
  /-- The handler of SIGINT or SIGTSTP runs, and its `kill` returns. -/
  | keyboard (ok : Bool)

/-- The handler may not run while `eval` blocks SIGCHLD, and not after the end. -/
def Pc.takesSignals : Pc → Bool
  | .blocked .. | .forked .. | .added .. | .exited | .crashed => false
  | _ => true

/-- `eval` from the parsed command line on, up to its first step that something can come
between. `builtin_cmd` is inlined. -/
def eval (argv : List String) (bg : Bool) (buf : String) : Pc :=
  match argv with
  | [] => .idle
  | cmd :: args =>
    if cmd = "quit" then .exited
    else if cmd = "&" then .idle
    else if cmd = "jobs" then .idle
    else if cmd = "fg" ∨ cmd = "bg" then
      match args with
      | [] => .idle
      | arg :: _ => if (Key.of arg).num ≤ 0 then .idle else .bgfgFind (cmd = "fg") (Key.of arg) 0
    else .blocked bg buf

/-- A step of the main thread that the world has no part in. -/
def next (s : Shell) : Option Shell :=
  match s.pc with
  | .forked bg buf pid =>
    some { s with pc := .added bg pid,
                  table := (addjob s.table pid (if bg then BG else FG) buf).1 }
  | .added bg pid => some { s with pc := if bg then .evalFind pid 0 else .waitFind pid 0 }
  | .evalFind pid i =>
    some { s with pc :=
      if pid < 1 then .crashed
      else if h : i < MAXJOBS then
        if (s.table.jobs ⟨i, h⟩).pid = pid then .evalPrint ⟨i, h⟩ pid else .evalFind pid (i + 1)
      -- no such job: `job->jid` goes through a null pointer
      else .crashed }
  | .evalPrint _ _ => some { s with pc := .idle }
  | .bgfgFind fg key i =>
    some { s with pc :=
      if h : i < MAXJOBS then
        if key.names (s.table.jobs ⟨i, h⟩) then
          match key with
          | .jid _ => .bgfgPid fg ⟨i, h⟩
          | .pid pid => .bgfgKill fg ⟨i, h⟩ pid
        else .bgfgFind fg key (i + 1)
      else .idle }
  | .bgfgPid fg job => some { s with pc := .bgfgKill fg job (s.table.jobs job).pid }
  | .bgfgWrite fg job pid =>
    some { s with pc := if fg then .waitFind pid 0 else .bgfgPrint job pid,
                  table := setState s.table job (if fg then FG else BG) }
  | .bgfgPrint _ _ => some { s with pc := .idle }
  | .waitFind pid i =>
    some { s with pc :=
      if h : i < MAXJOBS then
        if (s.table.jobs ⟨i, h⟩).state = FG then .waitRead pid ⟨i, h⟩ else .waitFind pid (i + 1)
      -- `fgpid` returns 0
      else if pid = 0 then .waitFind pid 0 else .idle }
  | .waitRead pid i =>
    some { s with pc := if pid = (s.table.jobs i).pid then .waitFind pid 0 else .idle }
  | _ => none

/-- One turn of the loop of `sigchld_handler`. -/
def report (s : Shell) (r : Int × Change) : Option Shell :=
  if r.1 ∉ s.children then none
  else
    match r.2 with
    | .stopped =>
      match getjobpid s.table.jobs r.1 with
      | some i => some { s with table := setState s.table i ST }
      | none => some { s with pc := .crashed }
    | _ => some { s with table := (deletejob s.table r.1).1, children := s.children.erase r.1 }

/-- The loop of `sigchld_handler`. -/
def sigchld_handler (s : Shell) : List (Int × Change) → Option Shell
  | [] => some s
  | r :: rs => if s.pc = .crashed then none else (report s r).bind fun s => sigchld_handler s rs

/-- `sigint_handler` and `sigtstp_handler`: they send the signal on to the foreground job,
and end the shell where `kill` fails. -/
def sigint_handler (s : Shell) (ok : Bool) : Shell :=
  if fgpid s.table.jobs = 0 then s
  else if ok then s
  else { s with pc := .exited }

/-- One step of the shell. A step that is not possible is `none`. -/
def step (s : Shell) : Act → Option Shell
  | .read argv bg buf => if s.pc = .idle then some { s with pc := eval argv bg buf } else none
  | .fork pid =>
    match s.pc, pid with
    | .blocked _ _, none => some { s with pc := .exited }
    | .blocked bg buf, some pid =>
      -- the kernel gives a pid that no child has
      if 1 ≤ pid ∧ pid ∉ s.children then
        some { s with pc := .forked bg buf pid, children := pid :: s.children }
      else none
    | _, _ => none
  | .kill ok =>
    match s.pc with
    | .bgfgKill fg job pid => some { s with pc := if ok then .bgfgWrite fg job pid else .exited }
    | _ => none
  | .next => next s
  | .sigchld reports => if s.pc.takesSignals then sigchld_handler s reports else none
  | .keyboard ok => if s.pc = .exited ∨ s.pc = .crashed then none else some (sigint_handler s ok)

end ics_labs.tsh
