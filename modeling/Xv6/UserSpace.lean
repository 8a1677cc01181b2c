import Xv6.Exec
import Xv6.ProcTable

/-!
# Processes and their memory

The system calls that allocate and free pages, of any number of processes, and what `main` does
with memory before there is a process. A step is a complete call, or a store of a process in its
memory.
-/

namespace Xv6.Vm

open Function Ptable

/-- The parts of `struct proc` that are about memory. -/
structure Proc where
  kstack : ℕ
  pgdir : Pgdir
  sz : ℕ
  parent : ProcId
  zombie : Bool

/-- A pipe, with the page it is in. -/
structure Pipe where
  pg : ℕ
  readopen : Bool
  writeopen : Bool

/-- The state. -/
structure Sys extends Phys where
  proc : ProcId → Option Proc
  pipe : List Pipe
  kpgdir : Pgdir
  /-- The stacks of the other processors. -/
  apstacks : List ℕ

namespace Sys

variable (k : Kernel)

/-- `fork`, with `allocproc`, and whether it succeeds. -/
def fork (s : Sys) (p : ProcId) (curproc : Proc) : Except Fault (Bool × Sys) :=
  match (List.finRange NPROC).find? fun q => (s.proc q).isNone with
  | none => .ok (false, s)
  | some np =>
    match kalloc s.kmem with
    | none => .ok (false, s)
    | some (kstack, kmem) => do
      let (d, m) ← Store.copyuvm k ⟨⟨kmem, s.mem⟩, curproc.pgdir⟩ curproc.sz
      match d with
      | none => do
        let m ← m.kfree k kstack
        .ok (false, { s with toPhys := m })
      | some d =>
        .ok (true, { s with
          toPhys := m
          proc := update s.proc np (some ⟨kstack, d, curproc.sz, p, false⟩) })

/-- Change the memory of a process. -/
def setSpace (s : Sys) (p : ProcId) (curproc : Proc) (sz : ℕ) (t : Store) : Sys :=
  { s with
    toPhys := t.toPhys
    proc := update s.proc p (some { curproc with pgdir := t.pgdir, sz := sz }) }

/-- `growproc`, and whether it returns 0. If it fails the size stays, whatever happened to the
pages. -/
def growproc (s : Sys) (p : ProcId) (curproc : Proc) (n : Int32) : Except Fault (Bool × Sys) := do
  let (sz, t) ← Store.growproc k ⟨s.toPhys, curproc.pgdir⟩ curproc.sz n
  .ok (sz.isSome, s.setSpace p curproc (sz.getD curproc.sz) t)

/-- `exec`, by a process, and whether it returns 0. The name and the registers of the process are
left out. -/
def sysExec (s : Sys) (p : ProcId) (curproc : Proc) (null : Pte) (file : Option Contents)
    (path : CString) (argv : List CString) : Except Fault (Bool × Sys) := do
  let r ← Process.exec k null file path argv ⟨curproc.pgdir, curproc.sz, [], 0, 0⟩ s.toPhys
  .ok (r.ok, s.setSpace p curproc r.proc.sz ⟨r.phys, r.proc.pgdir⟩)

/-- A process stores a byte, if it can write to the address. -/
def store (s : Sys) (curproc : Proc) (va : ℕ) (c : UInt8) : Except Fault (Bool × Sys) :=
  match curproc.pgdir.walk va with
  | none => .ok (false, s)
  | some pte =>
    if pte.p && pte.w && pte.u then
      .ok (true, { s with mem := update s.mem (pte.pa + va % PGSIZE) c })
    else .ok (false, s)

/-- `exit` : the process becomes a zombie, and its children get a new parent. -/
def exit (s : Sys) (p : ProcId) (curproc : Proc) : Except Fault (Bool × Sys) :=
  if p = initproc then .error .initExiting
  else
    .ok (true, { s with
      proc := fun q =>
        if q = p then some { curproc with zombie := true }
        else (s.proc q).map fun c => if c.parent = p then { c with parent := initproc } else c })

/-- A child that `wait` can reap. -/
def isZombie (s : Sys) (p q : ProcId) : Bool :=
  match s.proc q with
  | none => false
  | some c => c.parent = p && c.zombie

/-- `wait`, unless it sleeps, and whether it has reaped a child. -/
def wait (s : Sys) (p : ProcId) : Except Fault (Bool × Sys) :=
  match (List.finRange NPROC).find? (s.isZombie p) with
  | none => .ok (false, s)
  | some q =>
    match s.proc q with
    | none => .ok (false, s)
    | some c => do
      let m ← s.toPhys.kfree k c.kstack
      let m ← Store.freevm k ⟨m, c.pgdir⟩
      .ok (true, { s with toPhys := m, proc := update s.proc q none })

/-- `pipealloc`, if there are two files, and whether it succeeds. -/
def pipealloc (s : Sys) (files : Bool) : Except Fault (Bool × Sys) :=
  if files then
    match kalloc s.kmem with
    | none => .ok (false, s)
    | some (pg, kmem) => .ok (true, { s with kmem := kmem, pipe := ⟨pg, true, true⟩ :: s.pipe })
  else .ok (false, s)

/-- `pipeclose`, for the pipe at an index. -/
def pipeclose (s : Sys) (i : ℕ) (writable : Bool) : Except Fault (Bool × Sys) :=
  match s.pipe[i]? with
  | none => .ok (false, s)
  | some x =>
    let x := if writable then { x with writeopen := false } else { x with readopen := false }
    if x.readopen = false ∧ x.writeopen = false then do
      let m ← s.toPhys.kfree k x.pg
      .ok (true, { s with toPhys := m, pipe := s.pipe.eraseIdx i })
    else .ok (true, { s with pipe := s.pipe.set i x })

/-- What can happen. -/
inductive Act where
  | fork (p : ProcId)
  | exec (p : ProcId) (null : Pte) (file : Option Contents) (path : CString) (argv : List CString)
  | store (p : ProcId) (va : ℕ) (c : UInt8)
  | growproc (p : ProcId) (n : Int32)
  | exit (p : ProcId)
  | wait (p : ProcId)
  | pipealloc (files : Bool)
  | pipeclose (i : ℕ) (writable : Bool)

/-- A call by a process, if there is one that runs. -/
def withProc (s : Sys) (p : ProcId) (f : Proc → Except Fault (Bool × Sys)) :
    Option (Except Fault (Bool × Sys)) :=
  match s.proc p with
  | none => none
  | some c => if c.zombie then none else some (f c)

/-- A complete call. -/
def call (s : Sys) : Act → Option (Except Fault (Bool × Sys))
  | .fork p => s.withProc p (s.fork k p)
  | .exec p null file path argv => s.withProc p fun c => s.sysExec k p c null file path argv
  | .store p va c => s.withProc p fun curproc => s.store curproc va c
  | .growproc p n => s.withProc p fun c => s.growproc k p c n
  | .exit p => s.withProc p (s.exit p)
  | .wait p => s.withProc p fun _ => s.wait k p
  | .pipealloc files => some (s.pipealloc files)
  | .pipeclose i writable => some (s.pipeclose k i writable)

/-- A step, unless the kernel stops. -/
def step (s : Sys) (a : Act) : Option Sys :=
  match s.call k a with
  | some (.ok (_, t)) => some t
  | _ => none

/-- The stacks of `startothers`. -/
def startothers : ℕ → List ℕ → Except Fault (List ℕ × List ℕ)
  | 0, kmem => .ok ([], kmem)
  | n + 1, kmem =>
    match kalloc kmem with
    | none => .error .null
    | some (stack, kmem) => do
      let (apstacks, kmem) ← startothers n kmem
      .ok (stack :: apstacks, kmem)

/-- `userinit`. -/
def userinit (s : Sys) (initcode : List UInt8) : Except Fault Sys :=
  match kalloc s.kmem with
  | none => .error .null
  | some (kstack, kmem) => do
    let (d, m) ← Store.setupkvm k ⟨kmem, s.mem⟩
    match d with
    | none => .error .userinit
    | some d =>
      let t ← Store.inituvm ⟨m, d⟩ initcode
      .ok { s with
        toPhys := t.toPhys
        proc := update s.proc initproc (some ⟨kstack, t.pgdir, PGSIZE, initproc, false⟩) }

/-- `main`, for a number of processors and the first program. Memory has any contents before. -/
def main (ncpu : ℕ) (initcode : List UInt8) (mem : ℕ → UInt8) : Except Fault Sys := do
  let m ← Phys.freerange k ⟨[], mem⟩ k.end (KERNBASE + 4 * 1024 * 1024)
  let (d, m) ← Store.setupkvm k m
  match d with
  | none => .error .null
  | some kpgdir =>
    let (apstacks, kmem) ← startothers (ncpu - 1) m.kmem
    let m ← Phys.freerange k ⟨kmem, m.mem⟩ (KERNBASE + 4 * 1024 * 1024) (KERNBASE + PHYSTOP)
    userinit k ⟨m, fun _ => none, [], kpgdir, apstacks⟩ initcode

end Sys

end Xv6.Vm
