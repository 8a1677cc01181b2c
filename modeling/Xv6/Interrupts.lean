import Mathlib.Algebra.Order.Ring.Nat
import Mathlib.Algebra.BigOperators.Group.List.Basic
import Mathlib.Logic.Function.Basic
import Mathlib.Tactic.ByContra
import Mathlib.Tactic.SplitIfs
import Xv6.Outcome
import Xv6.Runs

/-!
# The interrupt flag of a kernel thread

`pushcli` and `popcli` count in a variable of the CPU and keep the interrupt flag of the first
`pushcli` in another. A thread that calls `sched` leaves both behind and may go on at another
CPU. Here any number of CPUs run the schedulers and the threads of the processes, instruction by
instruction, with interrupts wherever the flag is set.

Threads are free in what they call, as long as their calls are balanced and they call `sched`
with one lock only (`Balanced`). In such runs `interrupt_state_follows_thread` says that the flag
is off while `ncli` counts, that the last `popcli` of a thread brings back the flag of its first
`pushcli`, wherever the thread has been in between, and that `popcli` and `sched` find the count
they expect.
-/

set_option linter.unusedSectionVars false

namespace Xv6.Cli

open Function List Option

/-! ## The code -/

inductive Panic where
  /-- `popcli - interruptible`. -/
  | popcliInterruptible
  | popcli
  /-- `mycpu called with interrupts enabled`. -/
  | mycpu
  | acquire
  | release
  /-- `sched ptable.lock`. -/
  | schedPtable
  | schedLocks
  | schedRunning
  | schedInterruptible
deriving DecidableEq

/-- `struct spinlock`, without its name and the call stack. -/
structure Lock (C : Type) where
  locked : Bool
  cpu : Option C

/-- The fields of `struct cpu` that `pushcli` and `popcli` use, and `FL_IF` of the CPU. The number
of nested calls fits in an `int`. -/
structure Core where
  ncli : ℤ
  intena : Bool
  flag : Bool
deriving DecidableEq

/-- What a kernel thread does in one step, as far as locks and interrupts go. Where interrupts are
off, what reads and writes the variables of its own CPU only is one step. -/
inductive Instr (T L : Type) where
  /-- The first line of `pushcli`. -/
  | readeflags
  /-- The rest of `pushcli`. -/
  | cli (eflags : Bool)
  | popcli
  /-- `r = lock->locked`, in `holding`. -/
  | locked (lk : L)
  /-- `&& lock->cpu == mycpu()`. -/
  | mine (lk : L)
  /-- A use of `mycpu` that leaves `ncli` and `intena` alone. -/
  | mycpu
  /-- Panic if `holding` returned `r`. -/
  | test (r : Bool) (p : Panic)
  | xchg (lk : L)
  /-- `lk->cpu = mycpu()`. -/
  | own (lk : L)
  /-- `lk->cpu = 0`. -/
  | disown (lk : L)
  /-- `lk->locked = 0`. -/
  | unlock (lk : L)
  /-- The test of `ncli` in `sched`. -/
  | locks
  /-- The test of the process's state in `sched`, which the process table holds. -/
  | state (running : Bool)
  /-- The test of the flag in `sched`. -/
  | off
  /-- `intena = mycpu()->intena` and the switch to the scheduler. -/
  | swtch
  /-- `mycpu()->intena = intena`, after the switch back. -/
  | restore (intena : Bool)
  | sti
  /-- The scheduler looks for a process that is `RUNNABLE`. -/
  | look
  /-- The scheduler switches to the process. -/
  | enter (t : T)
deriving DecidableEq

variable {C T L : Type}

def pushcli : List (Instr T L) := [.readeflags]

def popcli : List (Instr T L) := [.popcli]

def holding (lk : L) : List (Instr T L) := pushcli ++ [.locked lk, .mine lk] ++ popcli

def acquire (lk : L) : List (Instr T L) :=
  pushcli ++ holding lk ++ [.test true .acquire, .xchg lk, .own lk]

def release (lk : L) : List (Instr T L) :=
  holding lk ++ [.test false .release, .disown lk, .unlock lk] ++ popcli

def myproc : List (Instr T L) := pushcli ++ [.mycpu] ++ popcli

/-- `sched`, up to the switch. -/
def sched (ptable : L) (running : Bool) : List (Instr T L) :=
  myproc ++ holding ptable ++
    [.test false .schedPtable, .locks, .state running, .off, .swtch]

def switchuvm : List (Instr T L) := pushcli ++ [.mycpu] ++ popcli

/-- One round of `scheduler`. -/
def scheduler (ptable : L) : List (Instr T L) :=
  [.sti] ++ acquire ptable ++ [.look] ++ release ptable

/-- What is on a kernel stack for one trap : what is left of the call that the handler is in,
the result of `holding`, and the flag that `iret` restores.

The other fields are a record of what the handler has done. `nest` is the number of calls of
`pushcli` that no `popcli` has undone yet, `held` are the locks it has acquired and not released,
and `entry` is the flag when its outermost `pushcli` was called. -/
structure Frame (T L : Type) where
  code : List (Instr T L)
  r : Bool
  ret : Bool
  nest : ℕ
  held : List L
  entry : Option Bool
deriving DecidableEq

variable [DecidableEq C] [DecidableEq T] [DecidableEq L]

/-- An instruction on CPU `c`. In the frame, `code` is what comes after it. -/
def Instr.run (c : C) (k : Core) (lock : L → Lock C) (f : Frame T L) :
    Instr T L → Except Panic (Core × (L → Lock C) × Frame T L)
  | .readeflags =>
    .ok (k, lock, { f with
      code := .cli k.flag :: f.code
      entry := if f.nest = 0 then some k.flag else f.entry })
  | .cli eflags =>
    .ok (⟨k.ncli + 1, if k.ncli = 0 then eflags else k.intena, false⟩, lock,
      { f with nest := f.nest + 1 })
  | .popcli =>
    if k.flag then .error .popcliInterruptible
    else if k.ncli - 1 < 0 then .error .popcli
    else
      .ok ({ k with
        ncli := k.ncli - 1
        flag := if k.ncli - 1 = 0 ∧ k.intena then true else k.flag }, lock,
        { f with nest := f.nest - 1 })
  | .locked lk => .ok (k, lock, { f with r := (lock lk).locked })
  | .mine lk =>
    if f.r then
      if k.flag then .error .mycpu
      else .ok (k, lock, { f with r := decide ((lock lk).cpu = some c) })
    else .ok (k, lock, f)
  | .mycpu => if k.flag then .error .mycpu else .ok (k, lock, f)
  | .test r p => if f.r = r then .error p else .ok (k, lock, f)
  | .xchg lk =>
    if (lock lk).locked then .ok (k, lock, { f with code := .xchg lk :: f.code })
    else .ok (k, update lock lk { lock lk with locked := true }, f)
  | .own lk =>
    if k.flag then .error .mycpu
    else .ok (k, update lock lk { lock lk with cpu := some c }, f)
  | .disown lk => .ok (k, update lock lk { lock lk with cpu := none }, f)
  | .unlock lk => .ok (k, update lock lk { lock lk with locked := false }, f)
  | .locks =>
    if k.flag then .error .mycpu
    else if k.ncli ≠ 1 then .error .schedLocks
    else .ok (k, lock, f)
  | .state running => if running then .error .schedRunning else .ok (k, lock, f)
  | .off => if k.flag then .error .schedInterruptible else .ok (k, lock, f)
  | .swtch =>
    if k.flag then .error .mycpu
    else .ok (k, lock, { f with code := .restore k.intena :: f.code })
  | .restore intena =>
    if k.flag then .error .mycpu else .ok ({ k with intena := intena }, lock, f)
  | .sti => .ok ({ k with flag := true }, lock, f)
  | .look => .ok (k, lock, { f with code := .look :: f.code })
  | .enter _ => .ok (k, lock, f)

/-! ## The machine -/

/-- The CPUs, the locks and the kernel stacks of the schedulers and of the processes. A process
whose stack is empty is in user space. -/
structure Machine (C T L : Type) where
  core : C → Core
  /-- The process that the CPU runs, if it does not run its scheduler. -/
  proc : C → Option T
  panicked : C → Option Panic
  lock : L → Lock C
  sched : C → List (Frame T L)
  stack : T → List (Frame T L)
  /-- The context of the process is saved : it has called `swtch` or has not run yet. -/
  parked : T → Bool

namespace Machine

/-- The kernel stack in use. -/
def running (s : Machine C T L) (c : C) : List (Frame T L) :=
  match s.proc c with
  | none => s.sched c
  | some t => s.stack t

/-- What a step of the running thread changes. -/
def put (s : Machine C T L) (c : C) (k : Core) (lock : L → Lock C) (fs : List (Frame T L)) :
    Machine C T L :=
  match s.proc c with
  | none => { s with core := update s.core c k, lock := lock, sched := update s.sched c fs }
  | some t => { s with core := update s.core c k, lock := lock, stack := update s.stack t fs }

/-- `panic` turns interrupts off and does not return. -/
def panic (s : Machine C T L) (c : C) (p : Panic) : Machine C T L :=
  { s with
    core := update s.core c { s.core c with flag := false }
    panicked := update s.panicked c (some p) }

/-- The switch of `sched`. -/
def leave (s : Machine C T L) (c : C) : Option (Machine C T L) :=
  match s.proc c with
  | none => none
  | some t => some { s with proc := update s.proc c none, parked := update s.parked t true }

/-- The switch of `scheduler`. -/
def enter (s : Machine C T L) (c : C) (t : T) : Option (Machine C T L) :=
  match s.proc c with
  | none =>
    if s.parked t then
      some { s with proc := update s.proc c (some t), parked := update s.parked t false }
    else none
  | some _ => none

/-- What comes after an instruction. -/
def switch (s : Machine C T L) (c : C) : Instr T L → Option (Machine C T L)
  | .swtch => s.leave c
  | .enter t => s.enter c t
  | _ => some s

end Machine

/-- The calls that a thread can make. `yield`, `sleep` and the rest of the kernel are made of
them. -/
inductive Call (L : Type) where
  | pushcli
  | popcli
  | holding (lk : L)
  | acquire (lk : L)
  | release (lk : L)
  | sched (running : Bool)

/-- A call begins. -/
def Frame.begin (ptable : L) (f : Frame T L) : Call L → Frame T L
  | .pushcli => { f with code := Cli.pushcli }
  | .popcli => { f with code := Cli.popcli }
  | .holding lk => { f with code := Cli.holding lk }
  | .acquire lk => { f with code := Cli.acquire lk, held := lk :: f.held }
  | .release lk => { f with code := Cli.release lk, held := f.held.erase lk }
  | .sched running => { f with code := Cli.sched ptable running }

/-- A trap has been taken and the handler starts. -/
def handler (flag : Bool) : Frame T L := ⟨[], false, flag, 0, [], none⟩

/-- A new process returns from `swtch` to `forkret`, which releases the lock of the scheduler. -/
def forkret (ptable : L) : Frame T L := ⟨release ptable, false, true, 1, [], none⟩

inductive Act (C T L : Type) where
  /-- The next instruction of the thread. -/
  | run (c : C)
  /-- The thread calls a function. -/
  | call (c : C) (f : Call L)
  /-- A device interrupts. -/
  | interrupt (c : C)
  /-- A process in user space traps. Only the gate of system calls leaves the flag alone. -/
  | trap (c : C) (syscall : Bool)
  | iret (c : C)
  /-- The scheduler starts a round. -/
  | schedule (c : C)
  /-- The scheduler has found a process, or none any more. -/
  | found (c : C) (t : Option T)

namespace Machine

/-- A step of the machine. A CPU that has panicked takes none. -/
def step (ptable : L) (s : Machine C T L) : Act C T L → Option (Machine C T L)
  | .run c =>
    match s.panicked c, s.running c with
    | none, f :: fs =>
      match f.code with
      | [] => none
      | i :: is =>
        match i.run c (s.core c) s.lock { f with code := is } with
        | .error p => some (s.panic c p)
        | .ok (k, lock, f) => (s.put c k lock (f :: fs)).switch c i
    | _, _ => none
  | .call c op =>
    match s.panicked c, s.running c with
    | none, f :: fs =>
      if f.code = [] then some (s.put c (s.core c) s.lock (f.begin ptable op :: fs)) else none
    | _, _ => none
  | .interrupt c =>
    if s.panicked c = none ∧ (s.core c).flag then
      some (s.put c { s.core c with flag := false } s.lock
        (handler (s.core c).flag :: s.running c))
    else none
  | .trap c syscall =>
    if s.panicked c = none ∧ s.running c = [] then
      some (s.put c { s.core c with flag := syscall && (s.core c).flag } s.lock
        [handler (s.core c).flag])
    else none
  | .iret c =>
    match s.panicked c, s.running c with
    | none, f :: fs =>
      -- The stack of a scheduler is never empty.
      if f.code = [] ∧ (fs = [] → (s.proc c).isSome) then
        some (s.put c { s.core c with flag := f.ret } s.lock fs)
      else none
    | _, _ => none
  | .schedule c =>
    match s.panicked c, s.proc c, s.sched c with
    | none, none, [f] =>
      if f.code = [] then
        some (s.put c (s.core c) s.lock [{ f with code := scheduler ptable }])
      else none
    | _, _, _ => none
  | .found c choice =>
    match s.panicked c, s.proc c, s.sched c with
    | none, none, f :: fs =>
      match f.code with
      | .look :: is =>
        match choice with
        | none => some (s.put c (s.core c) s.lock ({ f with code := is } :: fs))
        | some t =>
          if s.parked t then
            some (s.put c (s.core c) s.lock
              ({ f with code := switchuvm ++ .enter t :: .look :: is } :: fs))
          else none
      | _ => none
    | _, _, _ => none

/-- Every CPU is in `main`, before it calls `scheduler`. -/
def boot (ptable : L) : Machine C T L where
  core _ := ⟨0, false, false⟩
  proc _ := none
  panicked _ := none
  lock _ := ⟨false, none⟩
  sched _ := [handler false]
  stack _ := [forkret ptable]
  parked _ := true

end Machine

/-! ## Balanced calls -/

/-- The thread undoes its own calls only, and has one lock when it calls `sched`. -/
def Frame.Allows (f : Frame T L) : Call L → Prop
  | .popcli => f.held.length < f.nest
  | .release lk => lk ∈ f.held
  | .sched _ => f.held.length = 1 ∧ f.nest = 1
  | _ => True

instance (f : Frame T L) : ∀ op, Decidable (f.Allows op)
  | .popcli => inferInstanceAs (Decidable (_ < _))
  | .release _ => inferInstanceAs (Decidable (_ ∈ _))
  | .sched _ => inferInstanceAs (Decidable (_ ∧ _))
  | .pushcli | .holding _ | .acquire _ => isTrue trivial

/-- Calls are balanced : a thread undoes its own calls, and a handler and a round of the scheduler
have undone all of theirs when they end. -/
def Balanced (s : Machine C T L) : Act C T L → Prop
  | .call c op => ∀ f ∈ (s.running c).head?, f.Allows op
  | .iret c => ∀ f ∈ (s.running c).head?, f.nest = 0
  | .schedule c => ∀ f ∈ (s.running c).head?, f.nest = 0
  | _ => True

instance (s : Machine C T L) : ∀ a, Decidable (Balanced s a)
  | .call c op => inferInstanceAs (Decidable (∀ f ∈ (s.running c).head?, f.Allows op))
  | .iret c => inferInstanceAs (Decidable (∀ f ∈ (s.running c).head?, f.nest = 0))
  | .schedule c => inferInstanceAs (Decidable (∀ f ∈ (s.running c).head?, f.nest = 0))
  | .run _ | .interrupt _ | .trap _ _ | .found _ _ => isTrue trivial

/-- The number of calls of `pushcli` that a thread has not undone. -/
def depth (fs : List (Frame T L)) : ℕ := (fs.map Frame.nest).sum

/-! ## One frame -/

/-- The number of calls of `pushcli` that are to be undone where the instruction stands. -/
def Instr.Needs (n : ℕ) : Instr T L → Prop
  | .popcli | .mine _ | .mycpu | .own _ => 0 < n
  | .locks | .state _ | .off | .swtch | .look | .enter _ => n = 1
  | .sti => n = 0
  | .test _ p => p = .acquire ∨ p = .release ∨ p = .schedPtable
  | .cli _ | .restore _ => False
  | _ => True

/-- The number after it. -/
def Instr.next (n : ℕ) : Instr T L → ℕ
  | .readeflags => n + 1
  | .popcli => n - 1
  | _ => n

/-- Code that starts with `n` calls to be undone and leaves at least `h`. -/
def Fits (h : ℕ) : ℕ → List (Instr T L) → Prop
  | n, [] => h ≤ n
  | n, i :: is => i.Needs n ∧ Fits h (i.next n) is

/-- The rest of a call fits. It can start in the middle of `pushcli` or after the switch of
`sched`. -/
def Frame.Ok (f : Frame T L) : Prop :=
  match f.code with
  | .cli _ :: is => Fits f.held.length (f.nest + 1) is
  | .restore _ :: is => f.nest = 1 ∧ Fits f.held.length 1 is
  | is => Fits f.held.length f.nest is

/-- The flag of the outermost `pushcli` is in `intena` of the CPU, or in a local variable. -/
def Frame.Kept (f : Frame T L) (intena : Bool) : Prop :=
  ∀ v, f.entry = some v →
    match f.code with
    | .cli eflags :: _ => if f.nest = 0 then eflags = v else intena = v
    | .restore b :: _ => b = v
    | _ => 0 < f.nest → intena = v

variable {s t : Machine C T L} {c : C} {p : T} {f g : Frame T L} {fs : List (Frame T L)}
  {i : Instr T L} {is : List (Instr T L)} {k : Core} {h n : ℕ} {b : Bool}

theorem Frame.ok_of_fits (hf : Fits f.held.length f.nest f.code) : f.Ok := by
  unfold Frame.Ok
  split
  · rename_i e
    rw [e] at hf
    exact hf.1.elim
  · rename_i e
    rw [e] at hf
    exact hf.1.elim
  · exact hf

/-- Between calls, and within one except after `readeflags` and `swtch`. -/
theorem Frame.kept_of_fits (hf : Fits h n f.code)
    (hk : ∀ v, f.entry = some v → 0 < f.nest → b = v) : f.Kept b := by
  intro v hv
  split
  · rename_i e
    rw [e] at hf
    exact hf.1.elim
  · rename_i e
    rw [e] at hf
    exact hf.1.elim
  · exact hk v hv

/-- Below the top of a stack `intena` does not matter. -/
theorem Frame.Kept.any (hk : f.Kept b) (ho : f.Ok) (hn : f.nest = 0) (b' : Bool) : f.Kept b' := by
  intro v hv
  have hk := hk v hv
  unfold Frame.Ok at ho
  split
  · rename_i e
    rw [e] at hk
    simpa only [hn, if_true] using hk
  · rename_i e
    rw [e, hn] at ho
    exact absurd ho.1 (by decide)
  · intro hpos
    omega

/-- After `swtch` the flag is in a local variable of `sched`. -/
theorem Frame.Kept.restore {intena : Bool} (hk : f.Kept b) (hc : f.code = .restore intena :: is)
    (b' : Bool) : f.Kept b' := by
  intro v hv
  have hk := hk v hv
  rw [hc] at hk ⊢
  exact hk

theorem fits_acquire {lk : L} (hn : h ≤ n) : Fits (h + 1) n (acquire lk : List (Instr T L)) := by
  simp only [acquire, holding, pushcli, popcli, cons_append, nil_append, Fits,
    Instr.Needs, Instr.next]
  simp
  omega

theorem fits_release {lk : L} (hn : h < n) : Fits h n (release lk : List (Instr T L)) := by
  simp only [release, holding, pushcli, popcli, cons_append, nil_append, Fits,
    Instr.Needs, Instr.next]
  simp
  omega

/-- A balanced call fits. -/
theorem Frame.Ok.begin (ptable : L) (ho : f.Ok) (hc : f.code = []) {op : Call L}
    (hop : f.Allows op) : Fits (f.begin ptable op).held.length (f.begin ptable op).nest
      (f.begin ptable op).code := by
  unfold Frame.Ok at ho
  rw [hc] at ho
  have hle : f.held.length ≤ f.nest := ho
  cases op with
  | pushcli => exact ⟨trivial, Nat.le_succ_of_le hle⟩
  | popcli =>
    have : f.held.length < f.nest := hop
    exact ⟨Nat.zero_lt_of_lt this, Nat.le_sub_one_of_lt this⟩
  | holding lk => exact ⟨trivial, trivial, Nat.succ_pos _, Nat.succ_pos _, hle⟩
  | acquire lk => exact fits_acquire hle
  | release lk =>
    have hlen := length_erase_of_mem hop
    have hpos := length_pos_of_mem hop
    exact fits_release (show (f.held.erase lk).length < f.nest by omega)
  | sched running =>
    obtain ⟨hheld, hnest⟩ := hop
    simp only [Frame.begin, sched, myproc, holding, Cli.pushcli, Cli.popcli, cons_append,
      nil_append, Fits, Instr.Needs, Instr.next, hheld, hnest]
    simp

theorem fits_scheduler (ptable : L) : Fits 0 0 (scheduler ptable : List (Instr T L)) := by
  simp only [scheduler, acquire, release, holding, pushcli, popcli, cons_append,
    nil_append, Fits, Instr.Needs, Instr.next]
  simp

/-! ## One instruction -/

/-- The panics that a balanced run does not exclude. -/
def Panic.Possible (p : Panic) : Prop :=
  p = .acquire ∨ p = .release ∨ p = .schedPtable ∨ p = .schedRunning

/-- What the variables of a CPU have to do with the frame that it executes. -/
structure Sound (k : Core) (f : Frame T L) : Prop where
  count : k.ncli = f.nest
  off : 0 < k.ncli → k.flag = false
  ok : f.Ok

theorem Sound.flag (hs : Sound k f) (hn : 0 < f.nest) : k.flag = false :=
  hs.off (by have := hs.count; omega)

/-- An instruction leaves the CPU and the frame so that they agree, with the flag kept. -/
structure Agrees (k : Core) (f : Frame T L) (x : Core × (L → Lock C) × Frame T L) : Prop where
  sound : Sound x.1 x.2.2
  kept : f.Kept k.intena → x.2.2.Kept x.1.intena

/-- Within a call, the flag is in `intena` of the CPU. -/
theorem Frame.Kept.plain (hk : f.Kept b) (hc : f.code = i :: is) (hi : i.Needs n) :
    ∀ v, f.entry = some v → 0 < f.nest → b = v := by
  intro v hv
  have hk := hk v hv
  rw [hc] at hk
  cases i
  case cli => exact hi.elim
  case restore => exact hi.elim
  all_goals exact hk

/-- An instruction that changes no variable of the CPU and none of the record. -/
theorem Sound.skip (hs : Sound k f) (hc : f.code = i :: is) (hi : i.Needs n) (lock : L → Lock C)
    (g : Frame T L) (hnest : g.nest = f.nest) (hentry : g.entry = f.entry)
    (hg : Fits g.held.length g.nest g.code) : Agrees k f (k, lock, g) where
  sound := ⟨hs.count.trans (congrArg _ hnest.symm), hs.off, Frame.ok_of_fits hg⟩
  kept hk := Frame.kept_of_fits hg fun v hv hpos =>
    hk.plain hc hi v (hentry ▸ hv) (hnest ▸ hpos)

/-- Where the flag is off, `mycpu` does not panic. -/
theorem outcome_mycpu {α : Type} {m : Except Panic α} {E : Panic → Prop} {Q : α → Prop}
    {e : Panic} (hflag : k.flag = false) (hm : Outcome m E Q) :
    Outcome (if k.flag then .error e else m) E Q := by
  rw [if_neg (by rw [hflag]; decide)]
  exact hm

/-- One instruction of a balanced call. -/
theorem Instr.run_agrees (hs : Sound k f) (hc : f.code = i :: is) (c : C) (lock : L → Lock C) :
    Outcome (i.run c k lock { f with code := is }) Panic.Possible (Agrees k f) := by
  have ho := hs.ok
  unfold Frame.Ok at ho
  rw [hc] at ho
  cases i with
  | readeflags =>
    refine outcome_ok ⟨⟨hs.count, hs.off, ho.2⟩, fun hk v hv => ?_⟩
    change (if f.nest = 0 then k.flag = v else k.intena = v)
    have hv : (if f.nest = 0 then some k.flag else f.entry) = some v := hv
    split_ifs at hv ⊢ with hn
    · exact some.inj hv
    · exact hk.plain hc ho.1 v hv (by omega)
  | cli eflags =>
    refine outcome_ok ⟨⟨?_, fun _ => rfl, Frame.ok_of_fits ho⟩, fun hk =>
      Frame.kept_of_fits ho fun v hv _ => ?_⟩
    · rw [hs.count]
      rfl
    · -- The outermost `pushcli` stores the flag that it has read.
      have hk := hk v hv
      rw [hc] at hk
      have hz : k.ncli = 0 ↔ f.nest = 0 := by rw [hs.count, Int.natCast_eq_zero]
      change (if k.ncli = 0 then eflags else k.intena) = v
      simp only [hz]
      split_ifs at hk ⊢ <;> exact hk
  | popcli =>
    obtain ⟨hpos, hrest⟩ : 0 < f.nest ∧ Fits f.held.length (f.nest - 1) is := ho
    have hcount := hs.count
    refine outcome_mycpu (hs.flag hpos) ?_
    rw [if_neg (by omega)]
    refine outcome_ok ⟨⟨?_, fun hp => ?_, Frame.ok_of_fits hrest⟩, fun hk =>
      Frame.kept_of_fits hrest fun v hv _ => hk.plain (n := f.nest) hc hpos v hv hpos⟩
    · change k.ncli - 1 = ((f.nest - 1 : ℕ) : ℤ)
      omega
    · have hp : 0 < k.ncli - 1 := hp
      change (if _ then _ else _) = _
      rw [if_neg (by omega)]
      exact hs.flag hpos
  | locked | disown | unlock | enter =>
    exact outcome_ok (hs.skip hc ho.1 _ _ rfl rfl ho.2)
  | mine lk =>
    simp only [Instr.run]
    split
    · exact outcome_mycpu (hs.flag ho.1) (outcome_ok (hs.skip hc ho.1 _ _ rfl rfl ho.2))
    · exact outcome_ok (hs.skip hc ho.1 _ _ rfl rfl ho.2)
  | mycpu | own =>
    exact outcome_mycpu (hs.flag ho.1) (outcome_ok (hs.skip hc ho.1 _ _ rfl rfl ho.2))
  | test r p =>
    obtain ⟨hp, hrest⟩ : (p = .acquire ∨ p = .release ∨ p = .schedPtable) ∧
      Fits f.held.length f.nest is := ho
    simp only [Instr.run]
    split
    · exact outcome_error (by unfold Panic.Possible; tauto)
    · exact outcome_ok (hs.skip (n := f.nest) hc hp _ _ rfl rfl hrest)
  | xchg lk =>
    simp only [Instr.run]
    split
    · exact outcome_ok (hs.skip hc ho.1 _ _ rfl rfl ho)
    · exact outcome_ok (hs.skip hc ho.1 _ _ rfl rfl ho.2)
  | locks =>
    obtain ⟨hone, hrest⟩ : f.nest = 1 ∧ Fits f.held.length f.nest is := ho
    refine outcome_mycpu (hs.flag (by omega)) ?_
    rw [if_neg (by rw [hs.count, hone]; decide)]
    exact outcome_ok (hs.skip (n := f.nest) hc hone _ _ rfl rfl hrest)
  | state running =>
    simp only [Instr.run]
    split
    · exact outcome_error (by unfold Panic.Possible; tauto)
    · exact outcome_ok (hs.skip hc ho.1 _ _ rfl rfl ho.2)
  | off =>
    obtain ⟨hone, hrest⟩ : f.nest = 1 ∧ Fits f.held.length f.nest is := ho
    exact outcome_mycpu (hs.flag (by omega))
      (outcome_ok (hs.skip (n := f.nest) hc hone _ _ rfl rfl hrest))
  | swtch =>
    obtain ⟨hone, hrest⟩ : f.nest = 1 ∧ Fits f.held.length f.nest is := ho
    rw [hone] at hrest
    refine outcome_mycpu (hs.flag (by omega)) (outcome_ok ⟨⟨hs.count, hs.off, hone, hrest⟩, ?_⟩)
    exact fun hk v hv => hk.plain (n := f.nest) hc hone v hv (by omega)
  | restore intena =>
    obtain ⟨hone, hrest⟩ : f.nest = 1 ∧ Fits f.held.length 1 is := ho
    have hok : Fits f.held.length f.nest is := hone ▸ hrest
    refine outcome_mycpu (hs.flag (by omega))
      (outcome_ok ⟨⟨hs.count, hs.off, Frame.ok_of_fits hok⟩, fun hk => ?_⟩)
    refine Frame.kept_of_fits hok fun v hv _ => ?_
    have hk := hk v hv
    rw [hc] at hk
    exact hk
  | sti =>
    obtain ⟨hzero, hrest⟩ : f.nest = 0 ∧ Fits f.held.length f.nest is := ho
    refine outcome_ok ⟨⟨hs.count, fun hp => ?_, Frame.ok_of_fits hrest⟩, fun hk =>
      Frame.kept_of_fits hrest (hk.plain (n := f.nest) hc hzero)⟩
    have hp : 0 < k.ncli := hp
    rw [hs.count, hzero] at hp
    exact absurd hp (by decide)
  | look => exact outcome_ok (hs.skip hc ho.1 _ _ rfl rfl ho)

/-! ## The machine -/

/-- A stack with `n` calls of `pushcli` to be undone, all of them in its top frame : a handler
starts only where interrupts are on. -/
def Counted (n : ℕ) : List (Frame T L) → Prop
  | [] => n = 0
  | f :: fs => f.nest = n ∧ f.Ok ∧ ∀ g ∈ fs, g.nest = 0 ∧ g.Ok

/-- Every frame has kept the flag of its outermost `pushcli`. -/
def Kept (intena : Bool) : List (Frame T L) → Prop
  | [] => True
  | f :: fs => f.Kept intena ∧ ∀ g ∈ fs, ∀ b, g.Kept b

theorem Counted.depth (hs : Counted n fs) : depth fs = n := by
  cases fs with
  | nil => exact Eq.symm hs
  | cons f fs =>
    have hzero : (fs.map Frame.nest).sum = 0 := by
      refine sum_eq_zero fun x hx => ?_
      obtain ⟨g, hg, rfl⟩ := mem_map.1 hx
      exact (hs.2.2 g hg).1
    rw [Cli.depth, map_cons, sum_cons, hzero, add_zero, hs.1]

theorem counted_nil : Counted 0 ([] : List (Frame T L)) := rfl

/-- A trap. -/
theorem Counted.handler (hs : Counted 0 fs) (b : Bool) : Counted 0 (handler b :: fs) := by
  refine ⟨rfl, le_refl 0, fun g hg => ?_⟩
  cases fs with
  | nil => exact absurd hg not_mem_nil
  | cons f fs =>
    obtain ⟨hn, ho, hrest⟩ := hs
    obtain rfl | hg := mem_cons.1 hg
    · exact ⟨hn, ho⟩
    · exact hrest g hg

theorem Kept.handler (hk : Kept b fs) (hs : Counted 0 fs) (r : Bool) (b' : Bool) :
    Kept b' (handler r :: fs) := by
  refine ⟨fun v hv => absurd hv (by simp [Cli.handler]), fun g hg => ?_⟩
  cases fs with
  | nil => exact absurd hg not_mem_nil
  | cons f fs =>
    obtain rfl | hg := mem_cons.1 hg
    · exact hk.1.any hs.2.1 hs.1
    · exact hk.2 g hg

/-- The return from a trap. -/
theorem Counted.tail (hs : Counted n (f :: fs)) : Counted 0 fs := by
  cases fs with
  | nil => exact counted_nil
  | cons g fs =>
    obtain ⟨hn, ho⟩ := hs.2.2 g (by simp)
    exact ⟨hn, ho, fun g' hg' => hs.2.2 g' (by simp [hg'])⟩

theorem Kept.tail (hk : Kept b (f :: fs)) (b' : Bool) : Kept b' fs := by
  cases fs with
  | nil => trivial
  | cons g fs => exact ⟨hk.2 g (by simp) b', fun g' hg' => hk.2 g' (by simp [hg'])⟩

namespace Machine

/-- What holds in every state of a balanced run. -/
structure Inv (s : Machine C T L) : Prop where
  off : ∀ c, 0 < (s.core c).ncli → (s.core c).flag = false
  possible : ∀ c e, s.panicked c = some e → e.Possible
  counted : ∀ c, s.panicked c = none →
    ∃ n : ℕ, (s.core c).ncli = n ∧ Counted n (s.running c)
  kept : ∀ c p, s.panicked c = none → s.proc c = some p → Kept (s.core c).intena (s.stack p)
  /-- Where a process waits, `sched` has saved the flag. -/
  parked : ∀ p, s.parked p = true → Counted 1 (s.stack p) ∧ ∀ b, Kept b (s.stack p)
  /-- The scheduler waits with its lock. -/
  waits : ∀ c p, s.proc c = some p → Counted 1 (s.sched c)
  away : ∀ c p, s.proc c = some p → s.parked p = false
  alone : ∀ c c' p, s.proc c = some p → s.proc c' = some p → c = c'

variable {lock : L → Lock C}

theorem running_of_none (hp : s.proc c = none) : s.running c = s.sched c := by
  rw [running, hp]

theorem running_of_some (hp : s.proc c = some p) : s.running c = s.stack p := by
  rw [running, hp]

@[simp] theorem proc_put : (s.put c k lock fs).proc = s.proc := by
  unfold put
  split <;> rfl

@[simp] theorem panicked_put : (s.put c k lock fs).panicked = s.panicked := by
  unfold put
  split <;> rfl

@[simp] theorem parked_put : (s.put c k lock fs).parked = s.parked := by
  unfold put
  split <;> rfl

@[simp] theorem core_put : (s.put c k lock fs).core = update s.core c k := by
  unfold put
  split <;> rfl

@[simp] theorem running_put : (s.put c k lock fs).running c = fs := by
  rw [running, proc_put]
  cases h : s.proc c with
  | none => simp [put, h]
  | some p => simp [put, h]

/-- The stack of a process, where the CPU runs a process. -/
theorem stack_put (p : T) : (s.put c k lock fs).stack p =
    if s.proc c = some p then fs else s.stack p := by
  unfold put
  split
  · rename_i h
    simp [h]
  · rename_i q h
    simp only [h, some.injEq, update_apply, eq_comm]

theorem sched_put (c' : C) : (s.put c k lock fs).sched c' =
    if c' = c ∧ s.proc c = none then fs else s.sched c' := by
  unfold put
  split
  · rename_i h
    simp [h, update_apply]
  · rename_i q h
    simp [h]

theorem Inv.running_put (hi : s.Inv) {c' : C} (hc : c' ≠ c) :
    (s.put c k lock fs).running c' = s.running c' := by
  rw [running, running, proc_put]
  cases hp : s.proc c' with
  | none => simp [sched_put, hc]
  | some p =>
    have : s.proc c ≠ some p := fun h => hc (hi.alone c' c p hp h)
    simp [stack_put, this]

/-- A step of one thread. -/
theorem Inv.put (hi : s.Inv) (hp : s.panicked c = none) (hoff : 0 < k.ncli → k.flag = false)
    (hn : k.ncli = n) (hs : Counted n fs) (hk : ∀ p, s.proc c = some p → Kept k.intena fs) :
    (s.put c k lock fs).Inv where
  off c' := by
    rw [core_put, update_apply]
    split_ifs
    · exact hoff
    · exact hi.off c'
  possible c' e he := hi.possible c' e (by simpa using he)
  counted c' hc' := by
    rw [panicked_put] at hc'
    rw [core_put, update_apply]
    by_cases hcc : c' = c
    · subst hcc
      rw [if_pos rfl, Machine.running_put]
      exact ⟨n, hn, hs⟩
    · rw [if_neg hcc, hi.running_put hcc]
      exact hi.counted c' hc'
  kept c' p hc' hpc := by
    rw [panicked_put] at hc'
    rw [proc_put] at hpc
    rw [core_put, update_apply, stack_put]
    by_cases hcc : c' = c
    · subst hcc
      rw [if_pos rfl, if_pos hpc]
      exact hk p hpc
    · rw [if_neg hcc, if_neg fun h => hcc (hi.alone c' c p hpc h)]
      exact hi.kept c' p hc' hpc
  parked p hpp := by
    rw [parked_put] at hpp
    rw [stack_put, if_neg fun h => by rw [hi.away c p h] at hpp; exact Bool.noConfusion hpp]
    exact hi.parked p hpp
  waits c' p hpc := by
    rw [proc_put] at hpc
    rw [sched_put, if_neg]
    · exact hi.waits c' p hpc
    · rintro ⟨rfl, h⟩
      exact absurd (hpc.symm.trans h) (by simp)
  away c' p hpc := by
    rw [parked_put]
    exact hi.away c' p (by simpa using hpc)
  alone c₁ c₂ p h₁ h₂ := hi.alone c₁ c₂ p (by simpa using h₁) (by simpa using h₂)

theorem Inv.panic (hi : s.Inv) {e : Panic} (he : e.Possible) : (s.panic c e).Inv where
  off c' hc' := by
    simp only [Machine.panic, update_apply] at hc' ⊢
    split_ifs at hc' ⊢
    · rfl
    · exact hi.off c' hc'
  possible c' e' h := by
    simp only [Machine.panic, update_apply] at h
    split_ifs at h
    · exact some.inj h ▸ he
    · exact hi.possible c' e' h
  counted c' hc' := by
    simp only [Machine.panic, update_apply] at hc' ⊢
    split_ifs at hc' ⊢
    exact hi.counted c' hc'
  kept c' p hc' hp := by
    simp only [Machine.panic, update_apply] at hc' ⊢
    split_ifs at hc' ⊢
    exact hi.kept c' p hc' hp
  parked := hi.parked
  waits := hi.waits
  away := hi.away
  alone := hi.alone

/-- `swtch` in `sched`. The count of the process is the count of the scheduler. -/
theorem Inv.leave (hi : s.Inv) (hc : s.panicked c = none) (hp : s.proc c = some p)
    (hn : (s.core c).ncli = 1) (hs : Counted 1 (s.stack p)) (hk : ∀ b, Kept b (s.stack p))
    (ht : s.leave c = some t) : t.Inv := by
  unfold Machine.leave at ht
  rw [hp] at ht
  obtain rfl := some.inj ht
  refine ⟨hi.off, hi.possible, fun c' hc' => ?_, fun c' q hc' hq => ?_, fun q hq => ?_,
    fun c' q hq => ?_, fun c' q hq => ?_, fun c₁ c₂ q h₁ h₂ => ?_⟩
  · by_cases hcc : c' = c
    · subst hcc
      refine ⟨1, hn, ?_⟩
      rw [running]
      simp only [update_self]
      exact hi.waits _ p hp
    · have := hi.counted c' hc'
      rw [running] at this ⊢
      simpa only [update_of_ne hcc] using this
  · simp only [update_apply] at hq
    split_ifs at hq
    exact hi.kept c' q hc' hq
  · simp only [update_apply] at hq
    split_ifs at hq with hqp
    · subst hqp
      exact ⟨hs, hk⟩
    · exact hi.parked q hq
  · simp only [update_apply] at hq
    split_ifs at hq
    exact hi.waits c' q hq
  · simp only [update_apply] at hq ⊢
    split_ifs at hq with hcc
    rw [if_neg]
    · exact hi.away c' q hq
    · rintro rfl
      exact hcc (hi.alone c' c q hq hp)
  · simp only [update_apply] at h₁ h₂
    split_ifs at h₁ h₂
    exact hi.alone c₁ c₂ q h₁ h₂

/-- `swtch` in `scheduler`. -/
theorem Inv.enter (hi : s.Inv) (hn : (s.core c).ncli = 1) (hs : Counted 1 (s.sched c))
    (ht : s.enter c p = some t) : t.Inv := by
  unfold Machine.enter at ht
  split at ht
  next hnone =>
    split_ifs at ht with hp
    obtain rfl := some.inj ht
    obtain ⟨hcount, hkept⟩ := hi.parked p hp
    refine ⟨hi.off, hi.possible, fun c' hc' => ?_, fun c' q hc' hq => ?_, fun q hq => ?_,
      fun c' q hq => ?_, fun c' q hq => ?_, fun c₁ c₂ q h₁ h₂ => ?_⟩
    · by_cases hcc : c' = c
      · subst hcc
        refine ⟨1, hn, ?_⟩
        rw [running]
        simp only [update_self]
        exact hcount
      · have := hi.counted c' hc'
        rw [running] at this ⊢
        simpa only [update_of_ne hcc] using this
    · simp only [update_apply] at hq
      split_ifs at hq with hcc
      · obtain rfl := some.inj hq
        exact hkept _
      · exact hi.kept c' q hc' hq
    · simp only [update_apply] at hq
      split_ifs at hq with hqp
      exact hi.parked q hq
    · simp only [update_apply] at hq
      split_ifs at hq with hcc
      · subst hcc
        exact hs
      · exact hi.waits c' q hq
    · simp only [update_apply] at hq ⊢
      split_ifs at hq with hcc
      · rw [if_pos (some.inj hq).symm]
      · split_ifs
        · rfl
        · exact hi.away c' q hq
    · -- A parked process runs nowhere.
      have hfree : ∀ c', s.proc c' ≠ some p := fun c' h => by
        rw [hi.away c' p h] at hp
        exact Bool.noConfusion hp
      simp only [update_apply] at h₁ h₂
      split_ifs at h₁ h₂ with hc₁ hc₂ hc₂
      · rw [hc₁, hc₂]
      · exact absurd (h₂.trans h₁.symm) (hfree c₂)
      · exact absurd (h₁.trans h₂.symm) (hfree c₁)
      · exact hi.alone c₁ c₂ q h₁ h₂
  next => exact absurd ht (by simp)

/-! ## Runs -/

variable {ptable : L}

theorem Inv.switch (hi : s.Inv) (hc : s.panicked c = none) (hr : s.running c = f :: fs)
    (hswtch : i = .swtch → f.nest = 1 ∧ ∃ b is, f.code = .restore b :: is)
    (henter : ∀ p, i = .enter p → f.nest = 1) (ht : s.switch c i = some t) : t.Inv := by
  obtain ⟨n, hn, hcount⟩ := hi.counted c hc
  rw [hr] at hcount
  unfold Machine.switch at ht
  split at ht
  · obtain ⟨hone, intena, is, hcode⟩ := hswtch rfl
    rw [← hcount.1, hone] at hn
    cases hp : s.proc c with
    | none => simp [Machine.leave, hp] at ht
    | some p =>
      rw [running_of_some hp] at hr
      have hk := hi.kept c p hc hp
      rw [hr] at hk
      refine hi.leave hc hp hn ?_ (fun b => ?_) ht
      · rw [hr]
        exact ⟨hone, hcount.2⟩
      · rw [hr]
        exact ⟨hk.1.restore hcode b, hk.2⟩
  · rename_i p
    have hone := henter p rfl
    rw [← hcount.1, hone] at hn
    cases hp : s.proc c with
    | some q => simp [Machine.enter, hp] at ht
    | none =>
      rw [running_of_none hp] at hr
      refine hi.enter hn ?_ ht
      rw [hr]
      exact ⟨hone, hcount.2⟩
  · exact some.inj ht ▸ hi

theorem Inv.run (hi : s.Inv) (ht : s.step ptable (.run c) = some t) : t.Inv := by
  simp only [step] at ht
  split at ht
  next f fs hc hr =>
    split at ht
    next => exact absurd ht (by simp)
    next i is hcode =>
      obtain ⟨n, hn, hcount⟩ := hi.counted c hc
      rw [hr] at hcount
      have hsound : Sound (s.core c) f := ⟨by rw [hn, hcount.1], hi.off c, hcount.2.1⟩
      have hone := Instr.run_agrees hsound hcode c s.lock
      split at ht
      next e he =>
        obtain rfl := some.inj ht
        rw [he] at hone
        exact hi.panic (outcome_error_iff.1 hone)
      next k lock f' hok =>
        obtain ⟨hs', hk'⟩ := hone.of_ok hok
        have hkept : ∀ p, s.proc c = some p → Kept k.intena (f' :: fs) := fun p hp => by
          have hk := hi.kept c p hc hp
          rw [← running_of_some hp, hr] at hk
          exact ⟨hk' hk.1, hk.2⟩
        have hput : (s.put c k lock (f' :: fs)).Inv :=
          hi.put hc hs'.off hs'.count ⟨rfl, hs'.ok, hcount.2.2⟩ hkept
        have ho := hsound.ok
        unfold Frame.Ok at ho
        rw [hcode] at ho
        refine hput.switch (by simpa using hc) Machine.running_put ?_ ?_ ht
        · rintro rfl
          simp only [Instr.run] at hok
          split_ifs at hok
          obtain ⟨-, -, rfl⟩ := hok
          exact ⟨ho.1, _, _, rfl⟩
        · rintro p rfl
          obtain ⟨-, -, rfl⟩ := hok
          exact ho.1
  next => exact absurd ht (by simp)

theorem Inv.call (hi : s.Inv) {op : Call L} (hb : Balanced s (.call c op))
    (ht : s.step ptable (.call c op) = some t) : t.Inv := by
  simp only [step] at ht
  split at ht
  next f fs hc hr =>
    split_ifs at ht with hcode
    obtain rfl := some.inj ht
    obtain ⟨n, hn, hcount⟩ := hi.counted c hc
    rw [hr] at hcount
    have hfits := hcount.2.1.begin ptable hcode (hb f (by simp [hr]))
    have hnest : (f.begin ptable op).nest = f.nest := by cases op <;> rfl
    have hentry : (f.begin ptable op).entry = f.entry := by cases op <;> rfl
    refine hi.put hc (hi.off c) hn ⟨hnest.trans hcount.1, Frame.ok_of_fits hfits, hcount.2.2⟩
      fun p hp => ?_
    have hk := hi.kept c p hc hp
    rw [← running_of_some hp, hr] at hk
    refine ⟨Frame.kept_of_fits hfits fun v hv hpos => ?_, hk.2⟩
    have hk := hk.1 v (hentry ▸ hv)
    rw [hcode] at hk
    exact hk (hnest ▸ hpos)
  next => exact absurd ht (by simp)

/-- A handler starts where nothing is to be undone. -/
theorem Inv.handler (hi : s.Inv) (hc : s.panicked c = none) (hz : (s.core c).ncli ≤ 0)
    (b b' : Bool) : (s.put c { s.core c with flag := b } s.lock
      (Cli.handler b' :: s.running c)).Inv := by
  obtain ⟨n, hn, hcount⟩ := hi.counted c hc
  obtain rfl : n = 0 := by omega
  refine hi.put hc (fun hpos => ?_) hn (hcount.handler b') fun p hp => ?_
  · have hpos : 0 < (s.core c).ncli := hpos
    omega
  · have hk := hi.kept c p hc hp
    rw [← running_of_some hp] at hk
    exact hk.handler hcount b' _

theorem Inv.iret (hi : s.Inv) (hb : Balanced s (.iret c))
    (ht : s.step ptable (.iret c) = some t) : t.Inv := by
  simp only [step] at ht
  split at ht
  next f fs hc hr =>
    split_ifs at ht with hcode
    obtain rfl := some.inj ht
    obtain ⟨n, hn, hcount⟩ := hi.counted c hc
    rw [hr] at hcount
    have hz : (s.core c).ncli = 0 := by
      rw [hn, ← hcount.1, show f.nest = 0 from hb f (by simp [hr])]
      rfl
    refine hi.put hc (fun hpos => ?_) hz hcount.tail fun p hp => ?_
    · exact absurd (hz ▸ hpos : (0 : ℤ) < 0) (Int.lt_irrefl 0)
    · have hk := hi.kept c p hc hp
      rw [← running_of_some hp, hr] at hk
      exact hk.tail _
  next => exact absurd ht (by simp)

theorem Inv.schedule (hi : s.Inv) (hb : Balanced s (.schedule c))
    (ht : s.step ptable (.schedule c) = some t) : t.Inv := by
  simp only [step] at ht
  split at ht
  next f hc hp hr =>
    split_ifs at ht with hcode
    obtain rfl := some.inj ht
    rw [← running_of_none hp] at hr
    obtain ⟨n, hn, hcount⟩ := hi.counted c hc
    rw [hr] at hcount
    have hz : f.nest = 0 := hb f (by simp [hr])
    obtain ⟨hnest, ho, hrest⟩ := hcount
    have hlen : f.held.length = 0 := by
      unfold Frame.Ok at ho
      rw [hcode, hz] at ho
      exact Nat.le_zero.1 ho
    refine hi.put hc (hi.off c) hn ⟨hnest, Frame.ok_of_fits ?_, hrest⟩ fun p hp' => ?_
    · change Fits f.held.length f.nest _
      rw [hlen, hz]
      exact fits_scheduler ptable
    · exact absurd (hp.symm.trans hp') (by simp)
  next => exact absurd ht (by simp)

theorem Inv.found (hi : s.Inv) {choice : Option T}
    (ht : s.step ptable (.found c choice) = some t) : t.Inv := by
  simp only [step] at ht
  split at ht
  next f fs hc hp hr =>
    split at ht
    next is hcode =>
      rw [← running_of_none hp] at hr
      obtain ⟨n, hn, hcount⟩ := hi.counted c hc
      rw [hr] at hcount
      obtain ⟨hnest, ho, hrest⟩ := hcount
      unfold Frame.Ok at ho
      rw [hcode] at ho
      obtain ⟨hone, hfits⟩ : f.nest = 1 ∧ Fits f.held.length f.nest is := ho
      have hkept : ∀ (fs' : List (Frame T L)) (p : T), s.proc c = some p →
          Kept (s.core c).intena fs' := fun fs' p hp' =>
        absurd (hp.symm.trans hp') (by simp)
      split at ht
      next =>
        obtain rfl := some.inj ht
        exact hi.put hc (hi.off c) hn ⟨hnest, Frame.ok_of_fits hfits, hrest⟩ (hkept _)
      next p =>
        split_ifs at ht with hpark
        obtain rfl := some.inj ht
        refine hi.put hc (hi.off c) hn ⟨hnest, Frame.ok_of_fits ?_, hrest⟩ (hkept _)
        -- `switchuvm` has its own `pushcli` and `popcli`.
        exact ⟨trivial, Nat.succ_pos _, Nat.succ_pos _, hone, hone, hfits⟩
    next => exact absurd ht (by simp)
  next => exact absurd ht (by simp)

theorem Inv.step (hi : s.Inv) {a : Act C T L} (hb : Balanced s a)
    (ht : s.step ptable a = some t) : t.Inv := by
  cases a with
  | run c => exact hi.run ht
  | call c op => exact hi.call hb ht
  | interrupt c =>
    simp only [Machine.step] at ht
    split_ifs at ht with h
    obtain rfl := some.inj ht
    refine hi.handler h.1 ?_ _ _
    by_contra hpos
    have := hi.off c (by omega)
    rw [h.2] at this
    exact Bool.noConfusion this
  | trap c syscall =>
    simp only [Machine.step] at ht
    split_ifs at ht with h
    obtain rfl := some.inj ht
    obtain ⟨n, hn, hcount⟩ := hi.counted c h.1
    rw [h.2] at hcount
    have := hi.handler h.1 (by rw [hn, show n = 0 from hcount]; exact Int.le_refl 0)
      (syscall && (s.core c).flag) (s.core c).flag
    rwa [h.2] at this
  | iret c => exact hi.iret hb ht
  | schedule c => exact hi.schedule hb ht
  | found c choice => exact hi.found ht

theorem inv_boot : (boot ptable : Machine C T L).Inv where
  off c hc := rfl
  possible c e he := absurd he (by simp [boot])
  counted c hc := ⟨0, rfl, rfl, le_refl 0, fun g hg => absurd hg not_mem_nil⟩
  kept c p hc hp := absurd hp (by simp [boot])
  parked p hp :=
    ⟨⟨rfl, Frame.ok_of_fits (fits_release one_pos), fun g hg => absurd hg not_mem_nil⟩,
      fun b => ⟨fun v hv => absurd hv (by simp [forkret]), fun g hg => absurd hg not_mem_nil⟩⟩
  waits c p hp := absurd hp (by simp [boot])
  away c p hp := absurd hp (by simp [boot])
  alone c c' p hp := absurd hp (by simp [boot])

/-- The last `popcli` of a process. -/
theorem Inv.last_popcli (hi : s.Inv) (hc : s.panicked c = none) (hp : s.proc c = some p)
    (hs : s.stack p = f :: fs) (hcode : f.code = .popcli :: is) (hd : depth (f :: fs) = 1)
    {v : Bool} (hv : f.entry = some v) :
    ∃ t, s.step ptable (.run c) = some t ∧ (t.core c).ncli = 0 ∧ (t.core c).flag = v := by
  have hk := hi.kept c p hc hp
  obtain ⟨n, hn, hcount⟩ := hi.counted c hc
  rw [running_of_some hp, hs] at hcount
  rw [hs] at hk
  obtain rfl : n = 1 := hcount.depth.symm.trans hd
  have hn : (s.core c).ncli = 1 := hn
  have hflag := hi.off c (by omega)
  have hone : 0 < f.nest := by
    rw [hcount.1]
    exact one_pos
  have hintena : (s.core c).intena = v := hk.1.plain (n := f.nest) hcode hone v hv hone
  have hrun : s.running c = f :: fs := (running_of_some hp).trans hs
  refine ⟨s.put c ⟨0, v, v⟩ s.lock ({ f with code := is, nest := f.nest - 1 } :: fs), ?_, ?_, ?_⟩
  · cases v <;> simp [Machine.step, hc, hrun, hcode, Instr.run, hflag, hn, hintena,
      Machine.switch]
  · simp
  · simp

end Machine

/-- In every run with balanced calls, on any number of CPUs : interrupts are off while a CPU's
`ncli` is positive, the last `popcli` of a process's thread leaves the flag as it was when its
outermost `pushcli` was called, and neither `popcli` nor the test of `ncli` in `sched` panics. -/
theorem interrupt_state_follows_thread (ptable : L) {acts : List (Act C T L)}
    {s : Machine C T L} (hok : Along (Machine.step ptable) Balanced (Machine.boot ptable) acts)
    (hrun : exec (Machine.step ptable) (Machine.boot ptable) acts = some s) :
    (∀ c, 0 < (s.core c).ncli → (s.core c).flag = false) ∧
    (∀ c p f fs is v, s.panicked c = none → s.proc c = some p → s.stack p = f :: fs →
      f.code = .popcli :: is → depth (f :: fs) = 1 → f.entry = some v →
      ∃ t, s.step ptable (.run c) = some t ∧ (t.core c).ncli = 0 ∧ (t.core c).flag = v) ∧
    ∀ c, s.panicked c ≠ some .popcli ∧ s.panicked c ≠ some .schedLocks := by
  have hi : s.Inv := exec_invariant Machine.Inv (fun _ _ _ hs hb => hs.step hb)
    Machine.inv_boot hok hrun
  refine ⟨hi.off, fun c p f fs is v hc hp hs hcode hd hv => ?_, fun c => ⟨fun h => ?_, fun h => ?_⟩⟩
  · exact hi.last_popcli hc hp hs hcode hd hv
  · have := hi.possible c _ h
    simp [Panic.Possible] at this
  · have := hi.possible c _ h
    simp [Panic.Possible] at this

/-- A process calls `sched` on the first of two CPUs, in a system call, and goes on at the
second. -/
def migration : List (Act Bool Unit Unit) :=
  let run c n : List (Act Bool Unit Unit) := List.replicate n (.run c)
  [.schedule false] ++ run false 11 ++ [.found false (some ())] ++ run false 5 ++
  -- `forkret`, and the system call.
  run false 9 ++ [.iret false, .trap false true] ++
  [.call false (.acquire ())] ++ run false 10 ++ [.call false (.sched false)] ++ run false 14 ++
  [.found false none] ++ run false 9 ++
  [.schedule true] ++ run true 11 ++ [.found true (some ())] ++ run true 5 ++
  run true 1 ++ [.call true (.release ())] ++ run true 8

theorem interrupt_state_follows_migration :
    ∃ s t : Machine Bool Unit Unit,
      Along (Machine.step ()) Balanced (Machine.boot ()) migration ∧
      exec (Machine.step ()) (Machine.boot ()) migration = some s ∧ s.proc true = some () ∧
      (s.core true).flag = false ∧ s.step () (.run true) = some t ∧ (t.core true).flag = true := by
  have hok : Along (Machine.step ()) Balanced (Machine.boot ()) migration := by decide +kernel
  have hview : (exec (Machine.step ()) (Machine.boot ()) migration).map (fun s =>
      (s.panicked true, s.proc true, s.stack (), (s.core true).ncli)) =
      some (none, some (), [⟨[.popcli], true, true, 1, [], some true⟩], 1) := by decide +kernel
  obtain ⟨s, hs, hview⟩ := map_eq_some_iff.1 hview
  simp only [Prod.mk.injEq] at hview
  obtain ⟨hc, hp, hstack, hn⟩ := hview
  obtain ⟨hoff, hlast, -⟩ := interrupt_state_follows_thread () hok hs
  obtain ⟨t, ht, -, hflag⟩ := hlast true () _ _ _ true hc hp hstack rfl rfl rfl
  exact ⟨s, t, hok, hs, hp, hoff true (by rw [hn]; decide), ht, hflag⟩

end Xv6.Cli
