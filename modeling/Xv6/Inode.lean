import Xv6.Layout
import Xv6.LogProtocol
import Xv6.Prog

/-!
# Blocks and inodes

The state of the file system code and the first half of `fs.c` : the block allocator,
the inode cache, `bmap`, `itrunc`, `readi` and `writei`, and the console device that
`readi` and `writei` call.

The disk is the array of blocks that the buffer cache and the log present
(`BlockStore.cache_refines_array`). One atomic step is a section between `bread` and
`brelse`, a section under `icache.lock`, or a store to a field that a sleep-lock
protects. `commit` is one step with the `end_op` that starts it.
-/

set_option linter.unusedSectionVars false

namespace Xv6

open Function

/-- Maximum number of active i-nodes. -/
def NINODE : ℕ := 50

/-- Open files per system. -/
def NFILE : ℕ := 100

/-- Open files per process. -/
def NOFILE : ℕ := 16

/-- Maximum major device number. -/
def NDEV : ℕ := 10

/-- Major device number of the console. -/
def CONSOLE : Int16 := 1

namespace Fs

/-- An entry of the inode cache. -/
abbrev Slot := Fin NINODE

theorem ninode_pos : 0 < NINODE := by decide

/-- An entry of the file table. -/
abbrev FileId := Fin NFILE

theorem nfile_pos : 0 < NFILE := by decide

/-- A file descriptor. -/
abbrev Fd := Fin NOFILE

/-- The fields of `struct inode` that `icache.lock` protects. -/
structure Inode where
  dev : ℕ
  inum : ℕ
  ref : ℤ

/-- The fields of `struct inode` that its sleep-lock protects. -/
structure InodeCopy where
  valid : Bool
  din : Dinode

/-- The type of an open file. Pipes are not part of the file system. -/
inductive FileType where
  | none
  | inode
deriving DecidableEq

/-- `struct file`. -/
structure File where
  type : FileType
  ref : ℤ
  readable : Bool
  writable : Bool
  ip : Slot
  off : UInt32

/-- The fields of `struct proc` that the file system uses. -/
structure Proc where
  cwd : Option Slot
  ofile : Fd → Option FileId

/-- The state of the file system. -/
structure State (P : Type) where
  disk : Disk
  log : Log
  icache : Slot → Inode
  /-- The sleep-locks of the inodes, with their holders. -/
  lock : Slot → Option P
  copy : Slot → InodeCopy
  ftable : FileId → File
  proc : P → Proc
  /-- The entries of new processes that have not run yet. -/
  embryos : List Proc
  /-- Characters typed at the console and not yet read. -/
  input : List UInt8

/-- Where the code waits for an inode lock. The code does not depend on it. -/
inductive Site where
  /-- An `ilock` made with no inode locked. -/
  | walk
  /-- `sys_unlink` locks the inode it found. -/
  | child
  /-- `create` locks the inode it allocated. -/
  | fresh
  /-- `iput`. -/
  | put
deriving DecidableEq

/-- What a process may wait for. -/
inductive Wait where
  | log
  | inode (k : Slot) (site : Site)
  | console
deriving DecidableEq

/-- Kernel code. -/
abbrev Kernel (P α : Type) := Prog (State P) Wait α

/-- A section that runs without interruption. -/
abbrev Sec (P α : Type) := StateT (State P) (Except String) α

open Prog

section

variable {P : Type} (M : Mount)

/-! ## Blocks -/

/-- `bread`, with the checks of `iderw`. -/
def bread (dev b : ℕ) : Sec P Block := fun s =>
  if dev ≠ ROOTDEV then .error "iderw: request not for disk 1"
  else if M.disksize ≤ b then .error "iderw: block out of range"
  else .ok (s.disk b, s)

theorem sec_bind {α β : Type} (x : Sec P α) (f : α → Sec P β) (s : State P) :
    (x >>= f) s = match x s with
      | .ok (a, t) => f a t
      | .error e => .error e := by
  change Except.bind (x s) _ = _
  cases x s <;> rfl

theorem bread_eq {M : Mount} {s : State P} {b : ℕ} (hb : b < M.disksize) :
    bread M ROOTDEV b s = .ok (s.disk b, s) := by
  simp [bread, not_le.2 hb]

/-- `log_write` of block `b` with new contents. -/
def logWrite (b : ℕ) (data : Block) : Sec P Unit := fun s =>
  if s.log.TooBig then .error "too big a transaction"
  else if s.log.outstanding < 1 then .error "log_write outside of trans"
  else .ok ((), { s with
    disk := update s.disk b data
    log := { s.log with lh := logAbsorb b s.log.lh } })

/-- The state after a `log_write`. -/
def State.write (s : State P) (b : ℕ) (data : Block) : State P :=
  { s with
    disk := update s.disk b data
    log := { s.log with lh := logAbsorb b s.log.lh } }

theorem logWrite_eq {s : State P} {b : ℕ} {data : Block} (h : 1 ≤ s.log.outstanding) :
    logWrite b data s =
      if s.log.TooBig then .error "too big a transaction" else .ok ((), s.write b data) := by
  have : ¬ s.log.outstanding < 1 := by omega
  simp [logWrite, this, State.write]

/-- `begin_op`. -/
def beginOp : Kernel P Unit :=
  waitFor .log fun s =>
    if s.log.committing then none
    else if s.log.NoSpace then none
    else some { s with log := { s.log with outstanding := s.log.outstanding + 1 } }

/-- `end_op`. The last operation commits, which empties the log. -/
def endOp : Kernel P Unit :=
  atomic fun s =>
    let outstanding := s.log.outstanding - 1
    if s.log.committing then .error "log.committing"
    else if outstanding = 0 then
      .ok ((), { s with log := { s.log with outstanding := outstanding, lh := [] } })
    else .ok ((), { s with log := { s.log with outstanding := outstanding } })

/-- Zero a block. -/
def bzero (dev bno : ℕ) : Kernel P Unit :=
  atomic do
    let _ ← bread M dev bno
    logWrite bno (Bytes.zero BSIZE)

/-- One bitmap block of `balloc` : find a free block in it and mark it. -/
def ballocIn (dev b : ℕ) : Kernel P (Option ℕ) := do
  let r ← atomic do
    let bp ← bread M dev (M.bblock b)
    match (List.range (min BPB (M.sb.size - b))).find? fun bi => !bitIn bp bi with
    | none => return none
    | some bi =>
      logWrite (M.bblock b) (setBitIn bp bi)
      return some bi
  match r with
  | none => return none
  | some bi =>
    bzero M dev (b + bi)
    return some (b + bi)

/-- Allocate a zeroed disk block. -/
def balloc (dev : ℕ) : Kernel P ℕ := do
  match ← search (fun j => ballocIn M dev (BPB * j)) 0 ((M.sb.size + BPB - 1) / BPB) with
  | some b => return b
  | none => .panic "balloc: out of blocks"

/-- Free a disk block. -/
def bfree (dev b : ℕ) : Kernel P Unit :=
  atomic do
    let bp ← bread M dev (M.bblock b)
    if !bitIn bp (b % BPB) then throw "freeing free block"
    logWrite (M.bblock b) (clearBitIn bp (b % BPB))

/-! ## The inode cache -/

/-- Find the inode with number `inum` on device `dev`, or recycle an entry for it. -/
def iget (dev inum : ℕ) : Kernel P Slot :=
  atomic fun s =>
    let cached := (List.finRange NINODE).find? fun k =>
      decide (0 < (s.icache k).ref ∧ (s.icache k).dev = dev ∧ (s.icache k).inum = inum)
    let empty := (List.finRange NINODE).find? fun k => decide ((s.icache k).ref = 0)
    match cached with
    | some k =>
      let ip := s.icache k
      .ok (k, { s with icache := update s.icache k { ip with ref := ip.ref + 1 } })
    | none =>
      match empty with
      | none => .error "iget: no inodes"
      | some k =>
        .ok (k, { s with
          icache := update s.icache k ⟨dev, inum, 1⟩
          copy := update s.copy k { s.copy k with valid := false } })

/-- Add `n` to `ip->ref`, under `icache.lock`. -/
def addRef (k : Slot) (n : ℤ) : Kernel P Unit :=
  modifyState fun s => { s with
    icache := update s.icache k { s.icache k with ref := (s.icache k).ref + n } }

/-- Increment the reference count. -/
def idup (k : Slot) : Kernel P Slot := do
  addRef k 1
  return k

/-- One inode of the loop of `ialloc`. -/
def iallocAt (dev : ℕ) (type : Int16) (inum : ℕ) : Kernel P (Option Slot) := do
  let found ← atomic do
    let bp ← bread M dev (M.iblock inum)
    if (dinodeIn bp (inum % IPB)).type = 0 then
      logWrite (M.iblock inum) (putDinodeIn bp (inum % IPB) (Dinode.fresh type))
      return true
    else return false
  if found then return some (← iget dev inum) else return none

/-- Allocate an inode on device `dev` with type `type`. -/
def ialloc (dev : ℕ) (type : Int16) : Kernel P Slot := do
  match ← search (iallocAt M dev type) 1 (M.sb.ninodes - 1) with
  | some k => return k
  | none => .panic "ialloc: no inodes"

/-- `ip->dev`. -/
def devOf (k : Slot) : Kernel P ℕ := do
  return ((← getState).icache k).dev

/-- `ip->inum`. -/
def inumOf (k : Slot) : Kernel P ℕ := do
  return ((← getState).icache k).inum

/-- The fields of a locked inode. -/
def load (k : Slot) : Kernel P Dinode := do
  return ((← getState).copy k).din

/-- A store to a field of a locked inode. -/
def store (k : Slot) (f : Dinode → Dinode) : Kernel P Unit :=
  modifyState fun s => { s with
    copy := update s.copy k { s.copy k with din := f (s.copy k).din } }

/-- Copy a modified in-memory inode to disk. -/
def iupdate (k : Slot) : Kernel P Unit :=
  atomic do
    let s ← get
    let inum := (s.icache k).inum
    let bp ← bread M (s.icache k).dev (M.iblock inum)
    logWrite (M.iblock inum) (putDinodeIn bp (inum % IPB) (s.copy k).din)

/-- What `iupdate` does. -/
theorem iupdateSec_eq {M : Mount} {s : State P} {k : Slot}
    (hdev : (s.icache k).dev = ROOTDEV) (hlt : M.iblock (s.icache k).inum < M.disksize)
    (hout : 1 ≤ s.log.outstanding) :
    (do
      let s ← get
      let inum := (s.icache k).inum
      let bp ← bread M (s.icache k).dev (M.iblock inum)
      logWrite (M.iblock inum) (putDinodeIn bp (inum % IPB) (s.copy k).din) : Sec P Unit) s =
      if s.log.TooBig then .error "too big a transaction"
      else .ok ((), s.write (M.iblock (s.icache k).inum)
        (putDinodeIn (s.disk (M.iblock (s.icache k).inum)) ((s.icache k).inum % IPB)
          (s.copy k).din)) := by
  rw [sec_bind]
  change (bread M (s.icache k).dev (M.iblock (s.icache k).inum) >>= _ : Sec P Unit) s = _
  rw [sec_bind, hdev, bread_eq hlt]
  exact logWrite_eq hout

variable [DecidableEq P] (p : P)

/-- `acquiresleep` of an inode lock. -/
def acquiresleep (k : Slot) (site : Site) : Kernel P Unit :=
  waitFor (.inode k site) fun s =>
    match s.lock k with
    | some _ => none
    | none => some { s with lock := update s.lock k (some p) }

/-- `releasesleep` of an inode lock. -/
def releasesleep (k : Slot) : Kernel P Unit :=
  modifyState fun s => { s with lock := update s.lock k none }

/-- The part of `ilock` that reads the inode from disk if necessary. -/
def iload (k : Slot) : Kernel P Unit :=
  atomic do
    let s ← get
    if !(s.copy k).valid then
      let bp ← bread M (s.icache k).dev (M.iblock (s.icache k).inum)
      let din := dinodeIn bp ((s.icache k).inum % IPB)
      set { s with copy := update s.copy k ⟨true, din⟩ }
      if din.type = 0 then throw "ilock: no type"

/-- What `iload` does. -/
theorem iloadSec_eq {M : Mount} {s : State P} {k : Slot}
    (hdev : (s.icache k).dev = ROOTDEV) (hlt : M.iblock (s.icache k).inum < M.disksize) :
    (do
      let s ← get
      if !(s.copy k).valid then
        let bp ← bread M (s.icache k).dev (M.iblock (s.icache k).inum)
        let din := dinodeIn bp ((s.icache k).inum % IPB)
        set { s with copy := update s.copy k ⟨true, din⟩ }
        if din.type = 0 then throw "ilock: no type" : Sec P Unit) s =
      if (s.copy k).valid then .ok ((), s)
      else if (M.dinode s.disk (s.icache k).inum).type = 0 then .error "ilock: no type"
      else .ok ((), { s with
        copy := update s.copy k ⟨true, M.dinode s.disk (s.icache k).inum⟩ }) := by
  rw [sec_bind]
  change (if _ then _ else _ : Sec P Unit) s = _
  cases hv : (s.copy k).valid with
  | true => rfl
  | false =>
    simp only [Bool.not_false, if_true, Bool.false_eq_true, if_false]
    rw [sec_bind, hdev, bread_eq hlt]
    change (if _ then _ else _ : Sec P Unit) _ = _
    by_cases ht : (dinodeIn (s.disk (M.iblock (s.icache k).inum))
        ((s.icache k).inum % IPB)).type = 0
    · rw [if_pos ht, if_pos (show (M.dinode s.disk (s.icache k).inum).type = 0 from ht)]
      rfl
    · rw [if_neg ht, if_neg (show ¬ (M.dinode s.disk (s.icache k).inum).type = 0 from ht)]
      rfl

/-- Lock the given inode. -/
def ilock (k : Slot) (site : Site) : Kernel P Unit := do
  if ((← getState).icache k).ref < 1 then .panic "ilock"
  else
    acquiresleep p k site
    iload M k

/-- Unlock the given inode. -/
def iunlock (k : Slot) : Kernel P Unit := do
  let s ← getState
  if s.lock k ≠ some p ∨ (s.icache k).ref < 1 then .panic "iunlock"
  else releasesleep k

/-! ## Inode content -/

/-- `ip->addrs[i]`, with a block allocated for it if it is 0. -/
def addrOrAlloc (k : Slot) (i : ℕ) : Kernel P ℕ := do
  let addr := (← load k).addr i
  if addr = 0 then
    let addr ← balloc M (← devOf k)
    store k (·.setAddr i addr)
    return addr
  else return addr

/-- The disk block address of the `bn`-th block of an inode, with a block allocated for it
if there is none. The buffer of the indirect block stays locked while `balloc` runs; nobody
else uses that block. -/
def bmap (k : Slot) (bn : ℕ) : Kernel P ℕ := do
  if bn < NDIRECT then addrOrAlloc M k bn
  else if bn - NDIRECT < NINDIRECT then
    let addr ← addrOrAlloc M k NDIRECT
    let dev ← devOf k
    let a ← atomic do
      let bp ← bread M dev addr
      return bp.word (bn - NDIRECT)
    if a = 0 then
      let a ← balloc M dev
      atomic do
        let bp ← bread M dev addr
        logWrite addr (bp.setWord (bn - NDIRECT) a)
      return a
    else return a
  else .panic "bmap: out of range"

/-- Free one direct block. -/
def itruncDirect (k : Slot) (i : ℕ) : Kernel P Unit := do
  let addr := (← load k).addr i
  if addr ≠ 0 then
    bfree M (← devOf k) addr
    store k (·.setAddr i 0)

/-- Free the blocks of the indirect block `a`. -/
def itruncIndirect (dev : ℕ) (a : Block) (j : ℕ) : Kernel P Unit :=
  if a.word j ≠ 0 then bfree M dev (a.word j) else return ()

/-- Truncate inode (discard contents). -/
def itrunc (k : Slot) : Kernel P Unit := do
  forRange (itruncDirect M k) 0 NDIRECT
  let addr := (← load k).addr NDIRECT
  if addr ≠ 0 then
    let dev ← devOf k
    let a ← atomic (bread M dev addr)
    forRange (itruncIndirect M dev a) 0 NINDIRECT
    bfree M dev addr
    store k (·.setAddr NDIRECT 0)
  store k ({ · with size := 0 })
  iupdate M k

/-- The part of `iput` under the inode lock : free an inode that has no links and no other
references. -/
def iputFree (k : Slot) : Kernel P Unit := do
  let ip := (← getState).copy k
  if ip.valid ∧ ip.din.nlink = 0 then
    let r := ((← getState).icache k).ref
    if r = 1 then
      itrunc M k
      store k ({ · with type := 0 })
      iupdate M k
      modifyState fun s => { s with
        copy := update s.copy k { s.copy k with valid := false } }

/-- Drop a reference to an in-memory inode. -/
def iput (k : Slot) : Kernel P Unit := do
  acquiresleep p k .put
  iputFree M k
  releasesleep k
  addRef k (-1)

/-- Common idiom : unlock, then put. -/
def iunlockput (k : Slot) : Kernel P Unit := do
  iunlock p k
  iput M p k

/-- Take characters from the console until `n` are taken, or a line or the input ends. -/
def consoleTake (started : Bool) : ℕ → Kernel P (List UInt8)
  | 0 => return []
  | n + 1 =>
    -- A control-D ends the input, and is left for the next read if something was read.
    .await .console
      (fun s => match s.input with
        | [] => none
        | c :: cs => some (if c = 4 ∧ started then s else { s with input := cs }))
      fun s => do
        let c := s.input.headD 0
        if c = 4 then return []
        else if c = 10 then return [c]
        else return c :: (← consoleTake true n)

/-- Read from the console, with the inode unlocked. -/
def consoleread (k : Slot) (n : ℕ) : Kernel P (ℤ × List UInt8) := do
  iunlock p k
  let bs ← consoleTake false n
  ilock M p k .walk
  return (bs.length, bs)

/-- Write to the console, with the inode unlocked. -/
def consolewrite (k : Slot) (n : ℕ) : Kernel P ℤ := do
  iunlock p k
  ilock M p k .walk
  return n

/-- `devsw[major]` has functions. -/
def devswSet (major : Int16) : Prop := ¬(major < 0) ∧ major.toInt < NDEV ∧ major = CONSOLE

instance (major : Int16) : Decidable (devswSet major) :=
  inferInstanceAs (Decidable (_ ∧ _ ∧ _))

/-- The loop of `readi` for `n` bytes, with a bound on its passes. -/
def readLoop (k : Slot) : ℕ → ℕ → ℕ → Kernel P (List UInt8)
  | 0, _, _ => return []
  | fuel + 1, off, n =>
    if n = 0 then return []
    else do
      let addr ← bmap M k (off / BSIZE)
      let m := min n (BSIZE - off % BSIZE)
      let dev ← devOf k
      let bs ← atomic do
        let bp ← bread M dev addr
        return bp.slice (off % BSIZE) m
      return bs ++ (← readLoop k fuel (off + m) (n - m))

/-- Read data from inode. -/
def readi (k : Slot) (off n : UInt32) : Kernel P (ℤ × List UInt8) := do
  let ip ← load k
  if ip.type = T_DEV then
    if devswSet ip.major then consoleread M p k n.toNat else return (-1, [])
  else if off > ip.size ∨ off + n < off then return (-1, [])
  else
    let n := if off + n > ip.size then ip.size - off else n
    let bs ← readLoop M k n.toNat off.toNat n.toNat
    return (n.toNat, bs)

/-- The loop of `writei` for `n` bytes of `src`, with a bound on its passes. -/
def writeLoop (k : Slot) : ℕ → (ℕ → UInt8) → ℕ → ℕ → Kernel P Unit
  | 0, _, _, _ => return ()
  | fuel + 1, src, off, n =>
    if n = 0 then return ()
    else do
      let addr ← bmap M k (off / BSIZE)
      let m := min n (BSIZE - off % BSIZE)
      let dev ← devOf k
      atomic do
        let bp ← bread M dev addr
        logWrite addr (bp.blit (off % BSIZE) ((List.range m).map src))
      writeLoop k fuel (fun i => src (m + i)) (off + m) (n - m)

/-- Write data to inode. -/
def writei (k : Slot) (src : ℕ → UInt8) (off n : UInt32) : Kernel P ℤ := do
  let ip ← load k
  if ip.type = T_DEV then
    if devswSet ip.major then consolewrite M p k n.toNat else return -1
  else if off > ip.size ∨ off + n < off then return -1
  else if (off + n).toNat > MAXFILE * BSIZE then return -1
  else
    writeLoop M k n.toNat src off.toNat n.toNat
    if n > 0 ∧ off + n > ip.size then
      store k ({ · with size := off + n })
      iupdate M k
    return n.toNat

end

end Fs

end Xv6
