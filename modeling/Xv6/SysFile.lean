import Xv6.Directory

/-!
# System calls on files

`file.c` and the file system calls of `sysfile.c`, and the parts of `exec`, `exit` and
`fork` that use the file system. Arguments are given as the values that `argint`, `argptr` and
`argstr` fetch, so the checks on user addresses are not part of the model.
-/

namespace Xv6

open Function

namespace Fs

open Prog

variable {P : Type} [DecidableEq P] (M : Mount) (p : P)

/-! ## Open files -/

/-- Change an entry of the file table. -/
def State.setFile (s : State P) (f : FileId) (x : File) : State P :=
  { s with ftable := update s.ftable f x }

/-- Change the entry of a process. -/
def State.setProc (s : State P) (p : P) (x : Proc) : State P :=
  { s with proc := update s.proc p x }

/-- Set or clear a descriptor. -/
def Proc.setFd (x : Proc) (fd : Fd) (f : Option FileId) : Proc :=
  { x with ofile := update x.ofile fd f }

/-- Allocate a file structure. -/
def filealloc : Kernel P (Option FileId) :=
  atomic fun s =>
    match (List.finRange NFILE).find? fun f => decide ((s.ftable f).ref = 0) with
    | none => .ok (none, s)
    | some f => .ok (some f, s.setFile f { s.ftable f with ref := 1 })

/-- Increment the reference count of a file. -/
def filedup (f : FileId) : Kernel P Unit :=
  atomic fun s =>
    let x := s.ftable f
    if x.ref < 1 then .error "filedup"
    else .ok ((), s.setFile f { x with ref := x.ref + 1 })

/-- The part of `fileclose` under `ftable.lock`. The result is the inode of a file that was
closed for the last time. -/
def filedrop (f : FileId) : Kernel P (Option Slot) :=
  atomic fun s =>
    let x := s.ftable f
    if x.ref < 1 then .error "fileclose"
    else if 0 < x.ref - 1 then .ok (none, s.setFile f { x with ref := x.ref - 1 })
    else
      .ok (if x.type = .inode then some x.ip else none,
        s.setFile f { x with ref := 0, type := .none })

/-- Close a file. -/
def fileclose (f : FileId) : Kernel P Unit := do
  match ← filedrop f with
  | none => return ()
  | some ip =>
    beginOp
    iput M p ip
    endOp

/-- Add to `f->off`. -/
def advance (f : FileId) (r : ℤ) : Kernel P Unit :=
  if 0 < r then
    modifyState fun s => s.setFile f
      { s.ftable f with off := (s.ftable f).off + UInt32.ofNat r.toNat }
  else return ()

/-- `struct stat`. -/
structure Stat where
  type : Int16
  dev : ℕ
  ino : ℕ
  nlink : Int16
  size : UInt32

/-- `stati`. -/
def stati (k : Slot) : Kernel P Stat := do
  let ip ← load k
  return ⟨ip.type, ← devOf k, ← inumOf k, ip.nlink, ip.size⟩

/-- Get metadata about a file. -/
def filestat (f : FileId) : Kernel P (Option Stat) := do
  let x := (← getState).ftable f
  match x.type with
  | .none => return none
  | .inode =>
    ilock M p x.ip .walk
    let st ← stati x.ip
    iunlock p x.ip
    return some st

/-- Read from a file. -/
def fileread (f : FileId) (n : UInt32) : Kernel P (ℤ × List UInt8) := do
  let x := (← getState).ftable f
  if !x.readable then return (-1, [])
  else match x.type with
    | .none => .panic "fileread"
    | .inode =>
      ilock M p x.ip .walk
      let off := ((← getState).ftable f).off
      let r ← readi M p x.ip off n
      advance f r.1
      iunlock p x.ip
      return r

/-- The most bytes that `filewrite` writes in one transaction. -/
def writeMax : ℕ := (MAXOPBLOCKS - 1 - 1 - 2) / 2 * 512

/-- The loop of `filewrite` for the `n` bytes that are left, with a bound on its passes.
The result says that all of them were written. -/
def filewriteFrom (f : FileId) (ip : Slot) : ℕ → (ℕ → UInt8) → ℕ → Kernel P Bool
  | 0, _, _ => return true
  | fuel + 1, src, n =>
    if n = 0 then return true
    else do
      let n1 := min n writeMax
      beginOp
      ilock M p ip .walk
      let off := ((← getState).ftable f).off
      let r ← writei M p ip src off (UInt32.ofNat n1)
      advance f r
      iunlock p ip
      endOp
      if r < 0 then return false
      else if r ≠ n1 then .panic "short filewrite"
      else filewriteFrom f ip fuel (fun i => src (n1 + i)) (n - n1)

/-- Write to a file. -/
def filewrite (f : FileId) (src : ℕ → UInt8) (n : ℕ) : Kernel P ℤ := do
  let x := (← getState).ftable f
  if !x.writable then return -1
  else match x.type with
    | .none => .panic "filewrite"
    | .inode =>
      if ← filewriteFrom M p f x.ip n src n then return n else return -1

/-! ## File descriptors -/

/-- Allocate a file descriptor for the given file. -/
def fdalloc (f : FileId) : Kernel P (Option Fd) :=
  atomic fun s =>
    let x := s.proc p
    match (List.finRange NOFILE).find? fun fd => (x.ofile fd).isNone with
    | none => .ok (none, s)
    | some fd => .ok (some fd, s.setProc p (x.setFd fd (some f)))

/-- `argfd`. -/
def argfd (fd : ℤ) : Kernel P (Option (Fd × FileId)) := do
  let x := (← getState).proc p
  if fd < 0 then return none
  else if h : fd.toNat < NOFILE then
    let fd : Fd := ⟨fd.toNat, h⟩
    return (x.ofile fd).map fun f => (fd, f)
  else return none

/-- Clear a descriptor. -/
def clearFd (fd : Fd) : Kernel P Unit :=
  modifyState fun s => s.setProc p ((s.proc p).setFd fd none)

def sysDup (fd : ℤ) : Kernel P ℤ := do
  match ← argfd p fd with
  | none => return -1
  | some (_, f) =>
    match ← fdalloc p f with
    | none => return -1
    | some fd =>
      filedup f
      return fd.val

def sysRead (fd : ℤ) (n : UInt32) : Kernel P (ℤ × List UInt8) := do
  match ← argfd p fd with
  | none => return (-1, [])
  | some (_, f) => if n.toNat < 2 ^ 31 then fileread M p f n else return (-1, [])

def sysWrite (fd : ℤ) (src : ℕ → UInt8) (n : UInt32) : Kernel P ℤ := do
  match ← argfd p fd with
  | none => return -1
  | some (_, f) => if n.toNat < 2 ^ 31 then filewrite M p f src n.toNat else return -1

def sysClose (fd : ℤ) : Kernel P ℤ := do
  match ← argfd p fd with
  | none => return -1
  | some (fd, f) =>
    clearFd p fd
    fileclose M p f
    return 0

def sysFstat (fd : ℤ) : Kernel P (Option Stat) := do
  match ← argfd p fd with
  | none => return none
  | some (_, f) => filestat M p f

/-! ## Links -/

/-- The label `bad` of `sys_link`. -/
def linkBad (ip : Slot) : Kernel P ℤ := do
  ilock M p ip .walk
  store ip fun d => { d with nlink := d.nlink - 1 }
  iupdate M ip
  iunlockput M p ip
  endOp
  return -1

/-- Create the path `new` as a link to the same inode as `old`. -/
def sysLink (old new : List UInt8) : Kernel P ℤ := do
  beginOp
  match ← namei M p old with
  | none =>
    endOp
    return -1
  | some ip =>
    ilock M p ip .walk
    if (← load ip).type = T_DIR then
      iunlockput M p ip
      endOp
      return -1
    else
      store ip fun d => { d with nlink := d.nlink + 1 }
      iupdate M ip
      iunlock p ip
      match ← nameiparent M p new with
      | none => linkBad M p ip
      | some (dp, name) =>
        ilock M p dp .walk
        let r ← (do
          if (← devOf dp) ≠ (← devOf ip) then return -1
          else dirlink M p dp name (← inumOf ip) : Kernel P ℤ)
        if r < 0 then
          iunlockput M p dp
          linkBad M p ip
        else
          iunlockput M p dp
          iput M p ip
          endOp
          return 0

/-- Is the directory empty except for `"."` and `".."` ? -/
def isdirempty (k : Slot) : Kernel P Bool := do
  let n := numEntries (← load k).size
  let r ← search (fun j => do
    let de ← readEntry M p k j "isdirempty: readi"
    if de.inum ≠ 0 then return some () else return none) 2 (n - 2)
  return r.isNone

/-- The label `bad` of `sys_unlink`. -/
def unlinkBad (dp : Slot) : Kernel P ℤ := do
  iunlockput M p dp
  endOp
  return -1

/-- The end of `sys_unlink`, with both inodes locked and all checks made. -/
def unlinkEntry (dp ip : Slot) (off : ℕ) : Kernel P ℤ := do
  writeEntry M p dp off ⟨0, List.replicate DIRSIZ 0⟩ "unlink: writei"
  if (← load ip).type = T_DIR then
    store dp fun d => { d with nlink := d.nlink - 1 }
    iupdate M dp
  iunlockput M p dp
  store ip fun d => { d with nlink := d.nlink - 1 }
  iupdate M ip
  iunlockput M p ip
  endOp
  return 0

def sysUnlink (path : List UInt8) : Kernel P ℤ := do
  beginOp
  match ← nameiparent M p path with
  | none =>
    endOp
    return -1
  | some (dp, name) =>
    ilock M p dp .walk
    if namecmp name dotName = 0 ∨ namecmp name dotdotName = 0 then unlinkBad M p dp
    else
      match ← dirlookup M p dp name with
      | none => unlinkBad M p dp
      | some (ip, off) =>
        ilock M p ip .child
        let d ← load ip
        if d.nlink < 1 then .panic "unlink: nlink < 1"
        else
          let full ← (do
            if d.type = T_DIR then return !(← isdirempty M p ip) else return false :
              Kernel P Bool)
          if full then
            iunlockput M p ip
            unlinkBad M p dp
          else unlinkEntry M p dp ip off

/-! ## Opening and creating -/

/-- The part of `create` that links a new inode `ip` into the directory `dp`. -/
def createEntry (dp ip : Slot) (name : List UInt8) (type major minor : Int16) :
    Kernel P Unit := do
  store ip fun d => { d with major := major, minor := minor, nlink := 1 }
  iupdate M ip
  if type = T_DIR then
    store dp fun d => { d with nlink := d.nlink + 1 }
    iupdate M dp
    if (← dirlink M p ip dotName (← inumOf ip)) < 0 then .panic "create dots"
    else if (← dirlink M p ip dotdotName (← inumOf dp)) < 0 then .panic "create dots"
  if (← dirlink M p dp name (← inumOf ip)) < 0 then .panic "create: dirlink"
  iunlockput M p dp

def create (path : List UInt8) (type major minor : Int16) : Kernel P (Option Slot) := do
  match ← nameiparent M p path with
  | none => return none
  | some (dp, name) =>
    ilock M p dp .walk
    match ← dirlookup M p dp name with
    | some (ip, _) =>
      iunlockput M p dp
      ilock M p ip .walk
      if type = T_FILE ∧ (← load ip).type = T_FILE then return some ip
      else
        iunlockput M p ip
        return none
    | none =>
      let ip ← ialloc M (← devOf dp) type
      ilock M p ip .fresh
      createEntry M p dp ip name type major minor
      return some ip

/-- The inode that `sys_open` opens, locked. -/
def openInode (path : List UInt8) (omode : ℕ) : Kernel P (Option Slot) := do
  if omode &&& O_CREATE ≠ 0 then create M p path T_FILE 0 0
  else
    match ← namei M p path with
    | none => return none
    | some ip =>
      ilock M p ip .walk
      if (← load ip).type = T_DIR ∧ omode ≠ 0 then
        iunlockput M p ip
        return none
      else return some ip

/-- `sys_open` after the transaction : fill in the file. -/
def openFile (f : FileId) (ip : Slot) (omode : ℕ) : Kernel P Unit :=
  modifyState fun s => s.setFile f { s.ftable f with
    type := .inode
    ip := ip
    off := 0
    readable := omode &&& O_WRONLY = 0
    writable := omode &&& O_WRONLY ≠ 0 ∨ omode &&& O_RDWR ≠ 0 }

def sysOpen (path : List UInt8) (omode : ℕ) : Kernel P ℤ := do
  beginOp
  match ← openInode M p path omode with
  | none =>
    endOp
    return -1
  | some ip =>
    match ← filealloc with
    | none =>
      iunlockput M p ip
      endOp
      return -1
    | some f =>
      match ← fdalloc p f with
      | none =>
        fileclose M p f
        iunlockput M p ip
        endOp
        return -1
      | some fd =>
        iunlock p ip
        endOp
        openFile f ip omode
        return fd.val

/-- `sys_mkdir` and `sys_mknod`. -/
def makeInode (path : List UInt8) (type major minor : Int16) : Kernel P ℤ := do
  beginOp
  match ← create M p path type major minor with
  | none =>
    endOp
    return -1
  | some ip =>
    iunlockput M p ip
    endOp
    return 0

def sysMkdir (path : List UInt8) : Kernel P ℤ := makeInode M p path T_DIR 0 0

def sysMknod (path : List UInt8) (major minor : Int16) : Kernel P ℤ :=
  makeInode M p path T_DEV major minor

/-! ## The current directory -/

/-- `curproc->cwd = ip`. -/
def setCwd (ip : Option Slot) : Kernel P Unit :=
  modifyState fun s => s.setProc p { s.proc p with cwd := ip }

/-- `iput(curproc->cwd)`. -/
def iputCwd : Kernel P Unit := do
  match ((← getState).proc p).cwd with
  | none => .panic "trap"
  | some cwd => iput M p cwd

def sysChdir (path : List UInt8) : Kernel P ℤ := do
  beginOp
  match ← namei M p path with
  | none =>
    endOp
    return -1
  | some ip =>
    ilock M p ip .walk
    if (← load ip).type ≠ T_DIR then
      iunlockput M p ip
      endOp
      return -1
    else
      iunlock p ip
      iputCwd M p
      endOp
      setCwd p (some ip)
      return 0

/-- Close one descriptor in `exit`. -/
def exitFd (fd : ℕ) : Kernel P Unit := do
  if h : fd < NOFILE then
    match ((← getState).proc p).ofile ⟨fd, h⟩ with
    | none => return ()
    | some f =>
      fileclose M p f
      clearFd p ⟨fd, h⟩

/-- The part of `exit` that gives up files and the current directory. -/
def exitFiles : Kernel P Unit := do
  forRange (exitFd M p) 0 NOFILE
  beginOp
  iputCwd M p
  endOp
  setCwd p none

/-! ## New processes -/

/-- Duplicate one descriptor in `fork`. -/
def forkFd (fd : ℕ) : Kernel P Unit := do
  if h : fd < NOFILE then
    match ((← getState).proc p).ofile ⟨fd, h⟩ with
    | none => return ()
    | some f => filedup f

/-- The part of `fork` that uses the file system. `filedup` and `idup` return their
argument, so the new process has the pointers of its parent. Its entry in the process table
is private to the parent until it is `RUNNABLE`. -/
def sysFork : Kernel P Unit := do
  forRange (forkFd p) 0 NOFILE
  match ((← getState).proc p).cwd with
  | none => .panic "trap"
  | some cwd =>
    let _ ← idup cwd
    modifyState fun s => { s with embryos := s.proc p :: s.embryos }

/-- A process whose entry is unused becomes the `n`-th new process, which runs for the first
time. -/
def forkret (n : ℕ) : Kernel P Unit :=
  modifyState fun s =>
    match s.embryos[n]? with
    | none => s
    | some x =>
      if (s.proc p).cwd = none ∧ ∀ fd, (s.proc p).ofile fd = none then
        { s.setProc p x with embryos := s.embryos.eraseIdx n }
      else s

/-! ## Loading a program -/

/-- The reads of `exec`, with a bound on their number. What is read next, as `exec` and
`loaduvm` find it in the program headers, is given by `next`. -/
def execReads (ip : Slot) (next : List (ℤ × List UInt8) → Option (UInt32 × UInt32)) :
    ℕ → List (ℤ × List UInt8) → Kernel P Unit
  | 0, _ => return ()
  | fuel + 1, done =>
    match next done with
    | none => return ()
    | some (off, n) => do
      let r ← readi M p ip off n
      execReads ip next fuel (done ++ [r])

/-- The part of `exec` that uses the file system. -/
def sysExec (path : List UInt8) (next : List (ℤ × List UInt8) → Option (UInt32 × UInt32))
    (fuel : ℕ) : Kernel P ℤ := do
  beginOp
  match ← namei M p path with
  | none =>
    endOp
    return -1
  | some ip =>
    ilock M p ip .walk
    execReads M p ip next fuel []
    iunlockput M p ip
    endOp
    return 0

end Fs

end Xv6
