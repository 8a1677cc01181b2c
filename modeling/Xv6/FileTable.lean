import Xv6.SysFile
import Xv6.ProcTable
import Xv6.Count
import Mathlib.Data.List.Count
import Mathlib.Data.List.Nodup

/-!
# The file table, with pipes

`file.c`, the parts of `sysfile.c`, `pipe.c` and `proc.c` that create and drop references to
open files, and the pages of pipes. A step is a complete call. What a call does with inodes is
an input of the step : the inode that `open` found, or none.

`filealloc` reuses an entry without clearing it, so a closed file keeps stale fields.

The programs of `Xv6.SysFile` do the same to the tables in the state of the file system, which has
no pipes (`filealloc_follows` to `sysDup_follows`).
-/

set_option linter.unusedSectionVars false

namespace Xv6.Ftable

open Function Fs Ptable Prog

/-- The type of an open file. -/
inductive FdType where
  | none
  | pipe
  | inode
deriving DecidableEq

/-- `struct file`. -/
structure File (Pg : Type) where
  type : FdType
  ref : ℤ
  readable : Bool
  writable : Bool
  pipe : Option Pg
  ip : ℕ
  off : UInt32

/-- The ends of a pipe. -/
structure Ends where
  readopen : Bool
  writeopen : Bool

/-- The state. -/
structure Sys (Pg : Type) where
  file : FileId → File Pg
  ofile : ProcId × Fd → Option FileId
  /-- The processes that have been made and have not exited. -/
  live : ProcId → Bool
  /-- The free pages. -/
  kmem : List Pg
  /-- The pages in use for something else. -/
  other : List Pg
  /-- The pages in use for a pipe. -/
  pipe : Pg → Option Ends

/-- The panics of `file.c`. -/
inductive Panic where
  | filedup
  | fileclose

namespace Sys

variable {Pg : Type} [DecidableEq Pg]

/-- One process without open files. -/
def boot (kmem : List Pg) : Sys Pg where
  file _ := ⟨.none, 0, false, false, none, 0, 0⟩
  ofile _ := none
  live p := p = initproc
  kmem := kmem
  other := []
  pipe _ := none

/-- Change an entry of the file table. -/
def setFile (s : Sys Pg) (f : FileId) (x : File Pg) : Sys Pg := { s with file := update s.file f x }

/-- Change a file descriptor of a process. -/
def setFd (s : Sys Pg) (p : ProcId) (fd : Fd) (x : Option FileId) : Sys Pg :=
  { s with ofile := update s.ofile (p, fd) x }

def filealloc (s : Sys Pg) : Option (FileId × Sys Pg) :=
  ((List.finRange NFILE).find? fun f => (s.file f).ref = 0).map fun f =>
    (f, s.setFile f { s.file f with ref := 1 })

def filedup (s : Sys Pg) (f : FileId) : Except Panic (Sys Pg) :=
  if (s.file f).ref < 1 then .error .filedup
  else .ok (s.setFile f { s.file f with ref := (s.file f).ref + 1 })

/-- `pipeclose`, without its `wakeup`. -/
def pipeclose (s : Sys Pg) (pg : Pg) (writable : Bool) : Sys Pg :=
  match s.pipe pg with
  | none => s
  | some e =>
    let e := if writable then { e with writeopen := false } else { e with readopen := false }
    if e.readopen = false ∧ e.writeopen = false then
      { s with pipe := update s.pipe pg none, kmem := pg :: s.kmem }
    else { s with pipe := update s.pipe pg (some e) }

/-- `fileclose`. The inode of a file is not part of the state. -/
def fileclose (s : Sys Pg) (f : FileId) : Except Panic (Sys Pg) :=
  let ff := s.file f
  if ff.ref < 1 then .error .fileclose
  else if 0 < ff.ref - 1 then .ok (s.setFile f { ff with ref := ff.ref - 1 })
  else
    let s := s.setFile f { ff with ref := 0, type := .none }
    match ff.type, ff.pipe with
    | .pipe, some pg => .ok (s.pipeclose pg ff.writable)
    | _, _ => .ok s

def kalloc (s : Sys Pg) : Option (Pg × Sys Pg) :=
  match s.kmem with
  | [] => none
  | pg :: rest => some (pg, { s with kmem := rest })

/-- `pipealloc`, with the two files if it succeeds. -/
def pipealloc (s : Sys Pg) : Except Panic (Option (FileId × FileId) × Sys Pg) :=
  match s.filealloc with
  | none => .ok (none, s)
  | some (f0, s) =>
    match s.filealloc with
    | none => do
      let s ← s.fileclose f0
      .ok (none, s)
    | some (f1, s) =>
      match s.kalloc with
      | none => do
        let s ← s.fileclose f0
        let s ← s.fileclose f1
        .ok (none, s)
      | some (pg, s) =>
        let s := { s with pipe := update s.pipe pg (some ⟨true, true⟩) }
        let s := s.setFile f0
          { s.file f0 with type := .pipe, readable := true, writable := false, pipe := some pg }
        let s := s.setFile f1
          { s.file f1 with type := .pipe, readable := false, writable := true, pipe := some pg }
        .ok (some (f0, f1), s)

/-- `argfd`. -/
def argfd (s : Sys Pg) (p : ProcId) (fd : ℤ) : Option (Fd × FileId) :=
  if h : 0 ≤ fd ∧ fd.toNat < NOFILE then
    (s.ofile (p, ⟨fd.toNat, h.2⟩)).map fun f => (⟨fd.toNat, h.2⟩, f)
  else none

def fdalloc (s : Sys Pg) (p : ProcId) (f : FileId) : Option (Fd × Sys Pg) :=
  ((List.finRange NOFILE).find? fun fd => (s.ofile (p, fd)).isNone).map fun fd =>
    (fd, s.setFd p fd (some f))

def sysDup (s : Sys Pg) (p : ProcId) (fd : ℤ) : Except Panic (ℤ × Sys Pg) :=
  match s.argfd p fd with
  | none => .ok (-1, s)
  | some (_, f) =>
    match s.fdalloc p f with
    | none => .ok (-1, s)
    | some (fd, s) => do
      let s ← s.filedup f
      .ok (fd, s)

def sysClose (s : Sys Pg) (p : ProcId) (fd : ℤ) : Except Panic (ℤ × Sys Pg) :=
  match s.argfd p fd with
  | none => .ok (-1, s)
  | some (fd, f) => do
    let s ← (s.setFd p fd none).fileclose f
    .ok (0, s)

/-- `sys_open`, with the inode it has found or made, if any. -/
def sysOpen (s : Sys Pg) (p : ProcId) (ip : Option ℕ) (omode : UInt32) :
    Except Panic (ℤ × Sys Pg) :=
  match ip with
  | none => .ok (-1, s)
  | some ip =>
    match s.filealloc with
    | none => .ok (-1, s)
    | some (f, s) =>
      match s.fdalloc p f with
      | none => do
        let s ← s.fileclose f
        .ok (-1, s)
      | some (fd, s) =>
        .ok (fd, s.setFile f
          { s.file f with
            type := .inode
            ip := ip
            off := 0
            readable := omode &&& 1 = 0
            writable := omode &&& 1 ≠ 0 ∨ omode &&& 2 ≠ 0 })

/-- `sys_pipe`, if its argument is good. -/
def sysPipe (s : Sys Pg) (p : ProcId) (ok : Bool) : Except Panic (ℤ × Sys Pg) :=
  if ok then do
    let (r, s) ← s.pipealloc
    match r with
    | none => .ok (-1, s)
    | some (rf, wf) =>
      match s.fdalloc p rf with
      | none => do
        let s ← s.fileclose rf
        let s ← s.fileclose wf
        .ok (-1, s)
      | some (fd0, s) =>
        match s.fdalloc p wf with
        | none => do
          let s := s.setFd p fd0 none
          let s ← s.fileclose rf
          let s ← s.fileclose wf
          .ok (-1, s)
        | some (_, s) => .ok (0, s)
  else .ok (-1, s)

/-- `fork` duplicates one file descriptor. -/
def forkFd (p np : ProcId) (s : Sys Pg) (fd : Fd) : Except Panic (Sys Pg) :=
  match s.ofile (p, fd) with
  | none => .ok s
  | some f => do
    let s ← s.filedup f
    .ok (s.setFd np fd (some f))

/-- `fork`. It fails before it has done anything to the files. -/
def fork (s : Sys Pg) (p np : ProcId) (ok : Bool) : Except Panic (Sys Pg) :=
  if ok then
    (List.finRange NOFILE).foldlM (forkFd p np) { s with live := update s.live np true }
  else .ok s

/-- `exit` closes one file descriptor. -/
def exitFd (p : ProcId) (s : Sys Pg) (fd : Fd) : Except Panic (Sys Pg) :=
  match s.ofile (p, fd) with
  | none => .ok s
  | some f => do
    let s ← s.fileclose f
    .ok (s.setFd p fd none)

def exit (s : Sys Pg) (p : ProcId) : Except Panic (Sys Pg) := do
  let s ← (List.finRange NOFILE).foldlM (exitFd p) s
  .ok { s with live := update s.live p false }

/-- What can happen. -/
inductive Act (Pg : Type) where
  | open (p : ProcId) (ip : Option ℕ) (omode : UInt32)
  | dup (p : ProcId) (fd : ℤ)
  | close (p : ProcId) (fd : ℤ)
  | pipe (p : ProcId) (ok : Bool)
  /-- `np` is the slot that `allocproc` finds. -/
  | fork (p np : ProcId) (ok : Bool)
  | exit (p : ProcId)
  /-- `exec` leaves the files as they are, whether it succeeds or not. -/
  | exec (p : ProcId)
  /-- A page is allocated for something else. -/
  | take
  /-- ... and freed. -/
  | give (pg : Pg)

/-- The call is made by a process that runs. -/
def Act.enabled (s : Sys Pg) : Act Pg → Bool
  | .open p _ _ => s.live p
  | .dup p _ => s.live p
  | .close p _ => s.live p
  | .pipe p _ => s.live p
  | .fork p np _ => s.live p && !s.live np
  | .exit p => s.live p && p ≠ initproc
  | .exec p => s.live p
  | .take => true
  | .give pg => pg ∈ s.other

/-- A complete call. -/
def call (s : Sys Pg) : Act Pg → Except Panic (Sys Pg)
  | .open p ip omode => (s.sysOpen p ip omode).map Prod.snd
  | .dup p fd => (s.sysDup p fd).map Prod.snd
  | .close p fd => (s.sysClose p fd).map Prod.snd
  | .pipe p ok => (s.sysPipe p ok).map Prod.snd
  | .fork p np ok => s.fork p np ok
  | .exit p => s.exit p
  | .exec _ => .ok s
  | .take =>
    match s.kalloc with
    | none => .ok s
    | some (pg, s) => .ok { s with other := pg :: s.other }
  | .give pg => .ok { s with other := s.other.erase pg, kmem := pg :: s.kmem }

/-- A step, unless it panics. -/
def step (s : Sys Pg) (a : Act Pg) : Option (Sys Pg) :=
  if a.enabled s then (s.call a).toOption else none

/-! ## The tables of the file system -/

/-- A file of the file system. -/
def ofFile (x : Fs.File) : File Pg :=
  ⟨if x.type = .inode then .inode else .none, x.ref, x.readable, x.writable, none, x.ip, x.off⟩

/-- The state with the tables of the file system. -/
def withTables (y : Sys Pg) (s : State ProcId) : Sys Pg :=
  { y with file := fun f => ofFile (s.ftable f), ofile := fun q => (s.proc q.1).ofile q.2 }

variable {y : Sys Pg} {s : State ProcId} {p : ProcId} {f : FileId}

theorem withTables_setFile (x : Fs.File) :
    y.withTables (s.setFile f x) = (y.withTables s).setFile f (ofFile x) :=
  congrArg (fun file => { y.withTables s with file })
    (funext fun g => apply_update (fun _ => ofFile) s.ftable f x g)

theorem withTables_setFd (fd : Fd) (x : Option FileId) :
    y.withTables (s.setProc p ((s.proc p).setFd fd x)) = (y.withTables s).setFd p fd x := by
  refine congrArg (fun ofile => { y.withTables s with ofile }) (funext fun q => ?_)
  obtain ⟨q, e⟩ := q
  by_cases hq : q = p
  · subst hq
    simp [update_apply, State.setProc, Proc.setFd, withTables]
  · simp [State.setProc, withTables, hq]

theorem filealloc_follows : Returns Fs.filealloc s fun r t =>
    (y.withTables s).filealloc = r.map fun f => (f, y.withTables t) := by
  refine ends_atomic ?_
  cases hf : (List.finRange NFILE).find? fun f => decide ((s.ftable f).ref = 0) with
  | none => exact congrArg (Option.map _) hf
  | some f =>
    dsimp only
    rw [withTables_setFile]
    exact congrArg (Option.map _) hf

theorem filedup_follows : Prog.Ends (Fs.filedup f) s
    (fun _ t => (y.withTables s).filedup f = .ok (y.withTables t))
    fun e _ => e = .panic "filedup" ∧ (y.withTables s).filedup f = .error .filedup := by
  by_cases hr : (s.ftable f).ref < 1
  · refine ends_atomic ?_
    simp only [hr, if_true]
    exact ⟨trivial, if_pos hr⟩
  · refine returns_atomic (if_neg hr) ?_
    rw [withTables_setFile]
    exact if_neg hr

/-- The part of `fileclose` under `ftable.lock`. The rest is about the inode. -/
theorem filedrop_follows : Prog.Ends (filedrop f) s
    (fun _ t => (y.withTables s).fileclose f = .ok (y.withTables t))
    fun e _ => e = .panic "fileclose" ∧ (y.withTables s).fileclose f = .error .fileclose := by
  by_cases hr : (s.ftable f).ref < 1
  · refine ends_atomic ?_
    simp only [hr, if_true]
    exact ⟨trivial, if_pos hr⟩
  by_cases hr' : 0 < (s.ftable f).ref - 1
  · refine returns_atomic ((if_neg hr).trans (if_pos hr')) ?_
    rw [withTables_setFile]
    exact (if_neg hr).trans (if_pos hr')
  · refine returns_atomic ((if_neg hr).trans (if_neg hr')) ?_
    rw [withTables_setFile]
    refine (if_neg hr).trans ((if_neg hr').trans ?_)
    cases h : ((y.withTables s).file f).type <;> rfl

theorem argfd_follows (fd : ℤ) : Returns (Fs.argfd p fd) s fun r t =>
    t = s ∧ (y.withTables s).argfd p fd = r := by
  refine ends_bind (ends_getState ?_)
  rw [argfd]
  dsimp only
  split_ifs <;> first | omega | exact ends_pure ⟨rfl, rfl⟩

theorem fdalloc_follows : Returns (Fs.fdalloc p f) s fun r t => (r = none → t = s) ∧
    (y.withTables s).fdalloc p f = r.map fun fd => (fd, y.withTables t) := by
  refine ends_atomic ?_
  dsimp only
  cases hf : (List.finRange NOFILE).find? fun fd => ((s.proc p).ofile fd).isNone with
  | none => exact ⟨fun _ => rfl, congrArg (Option.map _) hf⟩
  | some fd =>
    dsimp only
    rw [withTables_setFd]
    exact ⟨by simp, congrArg (Option.map _) hf⟩

/-- `dup` as a whole. -/
theorem sysDup_follows (fd : ℤ) : Prog.Ends (Fs.sysDup p fd) s
    (fun r t => (y.withTables s).sysDup p fd = .ok (r, y.withTables t))
    fun e _ => e = .panic "filedup" ∧ (y.withTables s).sysDup p fd = .error .filedup := by
  refine ends_bind ((argfd_follows (y := y) fd).imp ?_ fun _ _ h => h.elim)
  rintro r s ⟨rfl, hr⟩
  simp only [sysDup, hr]
  cases r with
  | none => exact ends_pure rfl
  | some r =>
    refine ends_bind ((fdalloc_follows (y := y)).imp ?_ fun _ _ h => h.elim)
    rintro o u ⟨hu, ho⟩
    simp only [ho]
    cases o with
    | none => exact ends_pure (by rw [hu rfl]; rfl)
    | some fd =>
      refine ends_bind ((filedup_follows (y := y)).imp ?_ ?_)
      · intro _ v hv
        exact ends_pure (by simp only [Option.map_some, hv]; rfl)
      · rintro e v ⟨he, hv⟩
        exact ⟨he, by simp only [Option.map_some, hv]; rfl⟩

end Sys

end Xv6.Ftable
