import Mathlib.Algebra.Order.Ring.Nat
import Xv6.Runs
import Mathlib.Data.List.FinRange
import Mathlib.Logic.Function.Basic

/-!
# The process table

`proc.c` as a state machine : any number of CPUs `C`, each running `scheduler`, and the
processes that run on them. `ptable.lock` is explicit, since it is taken by one thread
and released by another : `scheduler` keeps it across `swtch` and the process releases
it, and `yield`, `sleep`, `exit` and `wait` keep it across `swtch` back to the scheduler.

A section that takes and releases the lock without a `swtch` is one step. The parts of
`fork` that run without the lock are steps of their own, and may fail for lack of
memory. A process stays where its `Pc` says while it does not run.

The state has a history that no step reads. Every process gets a number when
`allocproc` finds a slot for it (`birth`), `exits` are the processes that have exited
and `reaps` the results of the `wait` calls that found a child.
-/

namespace Xv6.Ptable

open Function

/-- Maximum number of processes. -/
def NPROC : ℕ := 64

/-- An entry of the process table. -/
abbrev ProcId := Fin NPROC

/-- `initproc`, the process of `userinit`. -/
def initproc : ProcId := ⟨0, by decide⟩

theorem one_lt_nproc : 1 < NPROC := by decide

/-- `enum procstate`. -/
inductive ProcState where
  | unused
  | embryo
  | sleeping
  | runnable
  | running
  | zombie
deriving DecidableEq

/-- The states in which a process goes back to the scheduler. -/
def ProcState.parked : ProcState → Bool
  | runnable => true
  | sleeping => true
  | zombie => true
  | _ => false

/-- The states in which a process has something to do. -/
def ProcState.ready : ProcState → Bool
  | runnable => true
  | running => true
  | _ => false

/-- The states of a process that has been started and has not exited. -/
def ProcState.alive : ProcState → Bool
  | sleeping => true
  | runnable => true
  | running => true
  | _ => false

/-- What a process sleeps on. `wait` sleeps on a process, everything else on something
that is not a process. -/
inductive Chan where
  | proc (k : ProcId)
  | other (n : ℕ)
deriving DecidableEq

/-- The fields of `struct proc` that `proc.c` reads and writes. Of the kernel stack and the
page directory only whether they are there. -/
structure Proc where
  state : ProcState
  pid : Int32
  parent : Option ProcId
  chan : Option Chan
  killed : Bool
  nice : Int32
  kstack : Bool
  pgdir : Bool
deriving DecidableEq

/-- `ptable.proc`. -/
abbrev Table := ProcId → Proc

/-- The first slot with a property, in the order of the loops over `ptable.proc`. -/
def firstSlot (q : ProcId → Bool) : Option ProcId := (List.finRange NPROC).find? q

theorem firstSlot_eq_some {q : ProcId → Bool} {k : ProcId} (h : firstSlot q = some k) :
    q k = true :=
  List.find?_some h

theorem firstSlot_eq_none {q : ProcId → Bool} (h : firstSlot q = none) (k : ProcId) :
    q k = false := by
  have := List.find?_eq_none.1 h k (List.mem_finRange k)
  simpa using this

/-! ## Sections under `ptable.lock` -/

/-- `wakeup1`. -/
def wakeup1 (chan : Option Chan) (t : Table) : Table := fun k =>
  if (t k).state = .sleeping ∧ (t k).chan = chan then { t k with state := .runnable } else t k

/-- `kill`, with its result. -/
def kill (pid : Int32) (t : Table) : Int32 × Table :=
  match firstSlot fun k => (t k).pid = pid with
  | none => (-1, t)
  | some k =>
    let p := { t k with killed := true }
    (0, update t k (if p.state = .sleeping then { p with state := .runnable } else p))

/-- `setnice`, with its result. -/
def setnice (pid nice : Int32) (t : Table) : Int32 × Table :=
  if nice < 0 ∨ 39 < nice then (-1, t)
  else
    match firstSlot fun k => pid = (t k).pid ∧ pid ≠ 0 with
    | none => (-1, t)
    | some k => (0, update t k { t k with nice := nice })

/-- `getnice`. -/
def getnice (pid : Int32) (t : Table) : Int32 :=
  match firstSlot fun k => pid = (t k).pid ∧ pid ≠ 0 with
  | none => -1
  | some k => (t k).nice

/-- `allocproc` up to the allocation of the kernel stack : the slot, if there is one. -/
def allocproc (nextpid : Int32) (t : Table) : Option (ProcId × Table) :=
  (firstSlot fun k => (t k).state = .unused).map fun np =>
    (np, update t np { t np with state := .embryo, pid := nextpid })

/-- One slot of the loop of `exit` that passes abandoned children to `init`. -/
def adopt (p : ProcId) (t : Table) (k : ProcId) : Table :=
  if (t k).parent = some p then
    let t := update t k { t k with parent := some initproc }
    if (t k).state = .zombie then wakeup1 (some (.proc initproc)) t else t
  else t

/-- The section of `exit` under the lock. -/
def exitTable (p : ProcId) (t : Table) : Table :=
  let t := wakeup1 ((t p).parent.map .proc) t
  let t := (List.finRange NPROC).foldl (adopt p) t
  update t p { t p with state := .zombie }

/-- `wait` frees the slot of a child. -/
def freeSlot (p : Proc) : Proc :=
  { p with
    kstack := false, pgdir := false, pid := 0, parent := none, killed := false, state := .unused }

/-- How a pass of the loop of `wait` ends. -/
inductive WaitResult where
  /-- A child was found and freed. -/
  | reaped (z : ProcId)
  /-- Return -1. -/
  | none
  | sleep

/-- A pass of the loop of `wait`. -/
def waitScan (p : ProcId) (t : Table) : WaitResult :=
  match firstSlot fun k => (t k).parent = some p ∧ (t k).state = .zombie with
  | some z => .reaped z
  | none =>
    if (firstSlot fun k => (t k).parent = some p) = none ∨ (t p).killed then .none else .sleep

/-! ## The machine -/

/-- What the thread of a process does outside the sections under the lock. -/
inductive Work where
  /-- In user space, or in the kernel outside what is modelled. -/
  | user
  /-- In `fork`, before the kernel stack of the child is allocated. -/
  | forking (np : ProcId)
  /-- In `fork`, before `copyuvm`. -/
  | copying (np : ProcId)
  /-- In `fork`, before the child becomes runnable. -/
  | linking (np : ProcId)
deriving DecidableEq

/-- The child that `fork` is making. -/
def Work.child : Work → Option ProcId
  | user => none
  | forking np => some np
  | copying np => some np
  | linking np => some np

/-- Where the thread of a process is. -/
inductive Pc where
  | work (w : Work)
  /-- About to enter `forkret`. -/
  | forkret
  /-- In `sched`, called by `yield`, which the timer calls anywhere outside the sections. -/
  | yielded (w : Work)
  /-- In `sched`, called by `sleep` with another lock. -/
  | slept
  /-- In `sched`, called by `sleep` in `wait`. -/
  | waiting
  /-- In `sched`, called by `exit`. -/
  | dead
deriving DecidableEq

/-- The process gets the lock with the CPU and has to release it. -/
def Pc.resuming : Pc → Bool
  | work _ => false
  | forkret => true
  | yielded _ => true
  | slept => true
  | waiting => true
  | dead => false

/-- The child that `fork` is making. -/
def Pc.child : Pc → Option ProcId
  | work w => w.child
  | yielded w => w.child
  | _ => none

/-- The child whose parent `fork` has set. -/
def Pc.links : Pc → Option ProcId
  | work (.linking np) => some np
  | yielded (.linking np) => some np
  | _ => none

/-- Where a CPU is. `i` and `k` are the loop variable of its scheduler. -/
inductive Ctl where
  /-- In the scheduler, without the lock. -/
  | idle
  /-- In the scheduler, at a slot of the table. -/
  | scan (i : ℕ)
  /-- In the scheduler, with `c->proc` set. -/
  | picked (k : ProcId)
  /-- In the process. -/
  | run (k : ProcId)
  /-- In the scheduler, just switched back to. -/
  | back (k : ProcId)
deriving DecidableEq

/-- `struct cpu`. -/
structure Cpu where
  proc : Option ProcId
  ctl : Ctl
deriving DecidableEq

/-- A child found by `wait`. -/
structure Reap where
  birth : ℕ
  /-- The process that called `wait`. -/
  reaper : ProcId
  /-- The slot of the child. -/
  slot : ProcId
  /-- The result of `wait`. -/
  pid : Int32

/-- The state of the machine. -/
structure Sys (C : Type) where
  proc : Table
  nextpid : Int32
  lock : Option C
  cpu : C → Cpu
  pc : ProcId → Pc
  /-- History : the number of the next process. -/
  nextBirth : ℕ
  /-- History : the number of the process in a slot. -/
  birth : ProcId → ℕ
  /-- History : the processes that have exited, with their pids. -/
  exits : List (ℕ × Int32)
  /-- History : the results of `wait`. -/
  reaps : List Reap

namespace Sys

variable {C : Type} [DecidableEq C]

/-- After `userinit`, with every CPU about to enter its scheduler loop. -/
def boot : Sys C where
  proc := update (fun _ => ⟨.unused, 0, none, none, false, 0, false, false⟩) initproc
    ⟨.runnable, 1, none, none, false, 0, true, true⟩
  nextpid := 2
  lock := none
  cpu _ := ⟨none, .idle⟩
  pc := update (fun _ => .work .user) initproc .forkret
  nextBirth := 1
  birth _ := 0
  exits := []
  reaps := []

/-- Change a process. -/
def setProc (s : Sys C) (k : ProcId) (p : Proc) : Sys C := { s with proc := update s.proc k p }

/-- Move the thread of a process. -/
def setPc (s : Sys C) (k : ProcId) (pc : Pc) : Sys C := { s with pc := update s.pc k pc }

/-- Change a CPU. -/
def setCpu (s : Sys C) (c : C) (proc : Option ProcId) (ctl : Ctl) : Sys C :=
  { s with cpu := update s.cpu c ⟨proc, ctl⟩ }

/-- The process that runs on `c`, if it is outside all sections and can take the lock. -/
def enter (s : Sys C) (c : C) : Option ProcId :=
  match (s.cpu c).ctl with
  | .run p => if s.pc p = .work .user ∧ s.lock = none then some p else none
  | _ => none

/-- The process that runs on `c`. -/
def running (s : Sys C) (c : C) : Option ProcId :=
  match (s.cpu c).ctl with
  | .run p => some p
  | _ => none

/-- `sched` : with the lock held, back to the scheduler of the CPU. -/
def sched (s : Sys C) (c : C) (p : ProcId) (pc : Pc) : Sys C :=
  ({ s with lock := some c }.setPc p pc).setCpu c (s.cpu c).proc (.back p)

/-- `release`, and on without the lock. -/
def leave (s : Sys C) (p : ProcId) (w : Work) : Sys C := { s with lock := none }.setPc p (.work w)

/-- The next step of the scheduler of `c`. -/
def scheduler (s : Sys C) (c : C) : Option (Sys C) :=
  match (s.cpu c).ctl with
  | .idle =>
    if s.lock = none then some ({ s with lock := some c }.setCpu c none (.scan 0)) else none
  | .scan i =>
    if h : i < NPROC then
      if (s.proc ⟨i, h⟩).state = .runnable then some (s.setCpu c (some ⟨i, h⟩) (.picked ⟨i, h⟩))
      else some (s.setCpu c none (.scan (i + 1)))
    else some ({ s with lock := none }.setCpu c none .idle)
  | .picked k =>
    some ((s.setProc k { s.proc k with state := .running }).setCpu c (s.cpu c).proc (.run k))
  | .run _ => none
  | .back k => some (s.setCpu c none (.scan (k + 1)))

/-- The section of `wait` from a pass of its loop on. -/
def waitLoop (s : Sys C) (c : C) (p : ProcId) : Sys C :=
  match waitScan p s.proc with
  | .reaped z =>
    { (s.setProc z (freeSlot (s.proc z))).leave p .user with
      reaps := s.reaps ++ [⟨s.birth z, p, z, (s.proc z).pid⟩] }
  | .none => s.leave p .user
  | .sleep =>
    (s.setProc p { s.proc p with chan := some (.proc p), state := .sleeping }).sched c p .waiting

/-- The process that has just got `c` goes on where it called `sched`. -/
def resume (s : Sys C) (c : C) : Option (Sys C) :=
  match (s.cpu c).ctl with
  | .run p =>
    if s.lock = some c then
      match s.pc p with
      | .forkret => some (s.leave p .user)
      | .yielded w => some (s.leave p w)
      | .slept => some ((s.setProc p { s.proc p with chan := none }).leave p .user)
      | .waiting => some ((s.setProc p { s.proc p with chan := none }).waitLoop c p)
      | _ => none
    else none
  | _ => none

def yield (s : Sys C) (c : C) : Option (Sys C) :=
  (s.running c).bind fun p =>
    match s.pc p with
    | .work w =>
      if s.lock = none then
        some ((s.setProc p { s.proc p with state := .runnable }).sched c p (.yielded w))
      else none
    | _ => none

/-- `sleep` on something that is not a process, with another lock than `ptable.lock`. -/
def sleep (s : Sys C) (c : C) (chan : ℕ) : Option (Sys C) :=
  (s.enter c).map fun p =>
    (s.setProc p { s.proc p with chan := some (.other chan), state := .sleeping }).sched c p .slept

/-- `exit`. `init` does not exit. -/
def exit (s : Sys C) (c : C) : Option (Sys C) :=
  (s.enter c).bind fun p =>
    if p = initproc then none
    else some { { s with proc := exitTable p s.proc }.sched c p .dead with
      exits := s.exits ++ [(s.birth p, (s.proc p).pid)] }

def wait (s : Sys C) (c : C) : Option (Sys C) := (s.enter c).map fun p => s.waitLoop c p

/-- `allocproc`, called by `fork`. -/
def forkAlloc (s : Sys C) (c : C) : Option (Sys C) :=
  (s.enter c).map fun p =>
    match allocproc s.nextpid s.proc with
    | none => s
    | some (np, t) =>
      { s with
        proc := t
        nextpid := s.nextpid + 1
        pc := update s.pc p (.work (.forking np))
        nextBirth := s.nextBirth + 1
        birth := update s.birth np s.nextBirth }

/-- `fork` allocates the kernel stack of the child, or fails. -/
def forkStack (s : Sys C) (c : C) (ok : Bool) : Option (Sys C) :=
  (s.running c).bind fun p =>
    match s.pc p with
    | .work (.forking np) =>
      if ok then some ((s.setProc np { s.proc np with kstack := true }).setPc p
        (.work (.copying np)))
      else some ((s.setProc np { s.proc np with state := .unused }).setPc p (.work .user))
    | _ => none

/-- `fork` copies the address space and sets the parent, or fails. -/
def forkCopy (s : Sys C) (c : C) (ok : Bool) : Option (Sys C) :=
  (s.running c).bind fun p =>
    match s.pc p with
    | .work (.copying np) =>
      if ok then
        some ((s.setProc np { s.proc np with pgdir := true, parent := some p }).setPc p
          (.work (.linking np)))
      else
        some ((s.setProc np { s.proc np with kstack := false, state := .unused }).setPc p
          (.work .user))
    | _ => none

/-- `fork` makes the child runnable. -/
def forkRun (s : Sys C) (c : C) : Option (Sys C) :=
  (s.running c).bind fun p =>
    match s.pc p with
    | .work (.linking np) =>
      if s.lock = none then
        some (((s.setProc np { s.proc np with state := .runnable }).setPc p (.work .user)).setPc np
          .forkret)
      else none
    | _ => none

/-- The steps of the machine. -/
inductive Act (C : Type) where
  | scheduler (c : C)
  | resume (c : C)
  | yield (c : C)
  | sleep (c : C) (chan : ℕ)
  | exit (c : C)
  | wait (c : C)
  | forkAlloc (c : C)
  | forkStack (c : C) (ok : Bool)
  | forkCopy (c : C) (ok : Bool)
  | forkRun (c : C)
  /-- By a process or an interrupt handler. -/
  | wakeup (chan : ℕ)
  | kill (c : C) (pid : Int32)
  | setnice (c : C) (pid nice : Int32)
  | getnice (c : C) (pid : Int32)

/-- One step. -/
def step (s : Sys C) : Act C → Option (Sys C)
  | .scheduler c => s.scheduler c
  | .resume c => s.resume c
  | .yield c => s.yield c
  | .sleep c chan => s.sleep c chan
  | .exit c => s.exit c
  | .wait c => s.wait c
  | .forkAlloc c => s.forkAlloc c
  | .forkStack c ok => s.forkStack c ok
  | .forkCopy c ok => s.forkCopy c ok
  | .forkRun c => s.forkRun c
  | .wakeup chan =>
    if s.lock = none then some { s with proc := wakeup1 (some (.other chan)) s.proc } else none
  | .kill c pid => (s.enter c).map fun _ => { s with proc := (Ptable.kill pid s.proc).2 }
  | .setnice c pid nice =>
    (s.enter c).map fun _ => { s with proc := (Ptable.setnice pid nice s.proc).2 }
  | .getnice c _ => (s.enter c).map fun _ => s

end Sys

end Xv6.Ptable
