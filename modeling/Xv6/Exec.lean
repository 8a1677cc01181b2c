import Xv6.UserMemory
import Xv6.Bytes

/-!
# exec

`exec.c` with the contents of the file, of memory and of the argument strings. `loaduvm` reads the
file into the pages of the new address space, and `copyout` puts the arguments on its stack.

What `exec` does with the inode and the log is a list of calls (`FsCall`). The file is the one that
`namei` finds, if any.
-/

namespace Xv6.Vm

def ELF_MAGIC : UInt32 := 0x464C457F

def ELF_PROG_LOAD : UInt32 := 1

/-- Max exec arguments. -/
def MAXARG : ℕ := 32

/-- The contents of a file, whose size is a `uint`. -/
structure Contents where
  bytes : List UInt8
  lt : bytes.length < 2 ^ 32

/-- A string of C, without the byte that ends it. -/
structure CString where
  chars : List UInt8
  no_nul : 0 ∉ chars
  lt : chars.length + 1 < 2 ^ 32

/-- `readi` : the bytes that are read, unless it returns -1. -/
def readi (file : Contents) (off n : UInt32) : Option (List UInt8) :=
  if off.toNat > file.bytes.length ∨ off + n < off then none
  else some ((file.bytes.drop off.toNat).take n.toNat)

/-- `readi(ip, (char*)&x, off, sizeof(x)) == sizeof(x)`. -/
def readStruct (file : Contents) (off size : UInt32) : Option (List UInt8) :=
  (readi file off size).filter fun bytes => bytes.length = size.toNat

/-- The field of `n` bytes at an offset of a struct. -/
def field (bytes : List UInt8) (off n : ℕ) : ℕ := leNat ((bytes.drop off).take n)

/-- `struct elfhdr`. -/
structure Elf where
  magic : UInt32
  entry : UInt32
  phoff : UInt32
  phnum : UInt16

/-- `struct proghdr`. -/
structure Segment where
  type : UInt32
  off : UInt32
  vaddr : UInt32
  filesz : UInt32
  memsz : UInt32

def readElf (file : Contents) : Option Elf :=
  (readStruct file 0 52).map fun bytes =>
    { magic := .ofNat (field bytes 0 4), entry := .ofNat (field bytes 24 4),
      phoff := .ofNat (field bytes 28 4), phnum := .ofNat (field bytes 44 2) }

def readProghdr (file : Contents) (off : UInt32) : Option Segment :=
  (readStruct file off 32).map fun bytes =>
    { type := .ofNat (field bytes 0 4), off := .ofNat (field bytes 4 4),
      vaddr := .ofNat (field bytes 8 4), filesz := .ofNat (field bytes 16 4),
      memsz := .ofNat (field bytes 20 4) }

/-- The number of bytes that `loaduvm` reads to the page at offset `i`. -/
def chunk (sz i : ℕ) : ℕ := if sz - i < PGSIZE then sz - i else PGSIZE

namespace Store

/-- The loop of `loaduvm`. -/
def loadLoop (file : Contents) (addr : ℕ) (offset : UInt32) (sz : ℕ) :
    ℕ → ℕ → Store → Except Fault (Bool × Store)
  | 0, _, s => .ok (true, s)
  | fuel + 1, i, s =>
    if i < sz then
      match s.pgdir.walk (addr + i) with
      | none => .error .loaduvmExist
      | some pte =>
        let n := chunk sz i
        match readi file (offset + .ofNat i) (.ofNat n) with
        | none => .ok (false, s)
        | some bytes =>
          let s := { s with mem := putBytes s.mem pte.pa bytes }
          if bytes.length = n then loadLoop file addr offset sz fuel (i + PGSIZE) s
          else .ok (false, s)
    else .ok (true, s)

def loaduvm (s : Store) (file : Contents) (addr : ℕ) (offset : UInt32) (sz : ℕ) :
    Except Fault (Bool × Store) :=
  if addr % PGSIZE ≠ 0 then .error .loaduvmAligned else loadLoop file addr offset sz ROUNDS 0 s

variable (k : Kernel)

/-- The loop of `exec` over `n` more program headers, and the size it ends with unless it fails. -/
def loadSegs (file : Contents) : ℕ → UInt32 → ℕ → Store → Except Fault (Option ℕ × Store)
  | 0, _, sz, s => .ok (some sz, s)
  | n + 1, off, sz, s =>
    match readProghdr file off with
    | none => .ok (none, s)
    | some ph =>
      if ph.type ≠ ELF_PROG_LOAD then loadSegs file n (off + 32) sz s
      else if ph.memsz < ph.filesz then .ok (none, s)
      else if ph.vaddr + ph.memsz < ph.vaddr then .ok (none, s)
      else do
        let (sz, s) ← s.allocuvm k sz (ph.vaddr + ph.memsz).toNat
        if sz = 0 then .ok (none, s)
        else if ph.vaddr.toNat % PGSIZE ≠ 0 then .ok (none, s)
        else do
          let (ok, s) ← s.loaduvm file ph.vaddr.toNat ph.off ph.filesz.toNat
          if ok then loadSegs file n (off + 32) sz s else .ok (none, s)

/-- Allocate two pages at the next page boundary. Make the first inaccessible. Use the second as
the user stack. The size is 0 if there is no memory. -/
def allocStack (s : Store) (sz : ℕ) : Except Fault (ℕ × Store) := do
  let sz := PGROUNDUP sz
  let (sz, s) ← s.allocuvm k sz (sz + 2 * PGSIZE)
  if sz = 0 then .ok (0, s)
  else do
    let d ← clearpteu s.pgdir (sz - 2 * PGSIZE)
    .ok (sz, { s with pgdir := d })

/-- Push argument strings : the stack pointer and the pointers to the strings. -/
def pushArgs (null : Pte) :
    List CString → UInt32 → List UInt32 → Store →
      Except Fault (Option (UInt32 × List UInt32) × Store)
  | [], sp, ptrs, s => .ok (some (sp, ptrs), s)
  | arg :: argv, sp, ptrs, s =>
    if ptrs.length ≥ MAXARG then .ok (none, s)
    else do
      let sp := (sp - (.ofNat arg.chars.length + 1)) &&& ~~~3
      let (ok, s) ← s.copyout null sp.toNat (arg.chars ++ [0])
      if ok then pushArgs null argv sp (ptrs ++ [sp]) s else .ok (none, s)

/-- `ustack` : the fake return PC, `argc`, the argv pointer, and what it points to. -/
def ustack (sp : UInt32) (ptrs : List UInt32) : List UInt32 :=
  let argc : UInt32 := .ofNat ptrs.length
  [0xffffffff, argc, sp - (argc + 1) * 4] ++ ptrs ++ [0]

/-- Push the arguments and the rest of the stack : the stack pointer unless that fails. -/
def pushStack (null : Pte) (argv : List CString) (s : Store) (sz : ℕ) :
    Except Fault (Option UInt32 × Store) := do
  let (r, s) ← pushArgs null argv (.ofNat sz) [] s
  match r with
  | none => .ok (none, s)
  | some (sp, ptrs) =>
    let argc : UInt32 := .ofNat ptrs.length
    let sp' := sp - (3 + argc + 1) * 4
    let (ok, s) ← s.copyout null sp'.toNat (leWords ((ustack sp ptrs).map UInt32.toNat))
    if ok then .ok (some sp', s) else .ok (none, s)

/-- `exec` from the allocation of the stack on : the size and the stack pointer unless it fails. -/
def buildStack (null : Pte) (argv : List CString) (s : Store) (sz : ℕ) :
    Except Fault (Option (ℕ × UInt32) × Store) := do
  let (sz, s) ← s.allocStack k sz
  if sz = 0 then .ok (none, s)
  else do
    let (r, s) ← s.pushStack null argv sz
    .ok (r.map fun sp => (sz, sp), s)

end Store

/-! ## The call -/

/-- The parts of `struct proc` that `exec` sets. -/
structure Process where
  pgdir : Pgdir
  sz : ℕ
  name : List UInt8
  eip : UInt32
  esp : UInt32

/-- What `exec` calls in `fs.c` and `log.c` between `namei` and the end. -/
inductive FsCall where
  | beginOp
  | endOp
  | ilock
  | iunlockput
  deriving DecidableEq

/-- What `exec` leaves. -/
structure Executed where
  /-- It returns 0, not -1. -/
  ok : Bool
  proc : Process
  phys : Phys
  calls : List FsCall

/-- Where the loading of the program ends. -/
inductive Loading where
  /-- `goto bad`, with the page directory if there is one. -/
  | bad (pgdir : Option Pgdir) (phys : Phys)
  | image (elf : Elf) (sz : ℕ) (s : Store)

/-- The last element of the path, as far as `safestrcpy` copies it. -/
def lastElem (path : List UInt8) : List UInt8 :=
  let slash : UInt8 := 47
  ((path.reverse.takeWhile (· ≠ slash)).reverse).take 15

variable (k : Kernel)

/-- `exec` from the check of the ELF header to the end of the loop over the program headers. -/
def load (file : Contents) (x : Phys) : Except Fault Loading :=
  match readElf file with
  | none => .ok (.bad none x)
  | some elf =>
    if elf.magic ≠ ELF_MAGIC then .ok (.bad none x)
    else do
      let (d, x) ← Store.setupkvm k x
      match d with
      | none => .ok (.bad none x)
      | some d =>
        let (r, s) ← Store.loadSegs k file elf.phnum.toNat elf.phoff 0 ⟨x, d⟩
        match r with
        | none => .ok (.bad (some s.pgdir) s.toPhys)
        | some sz => .ok (.image elf sz s)

/-- The label `bad`, with `ip` if it is locked. -/
def bad (pgdir : Option Pgdir) (ip : Bool) (proc : Process) (x : Phys) (calls : List FsCall) :
    Except Fault Executed := do
  let x ← match pgdir with
    | none => .ok x
    | some d => Store.freevm k ⟨x, d⟩
  .ok ⟨false, proc, x, if ip then calls ++ [.iunlockput, .endOp] else calls⟩

/-- `exec` by a process. `file` is what `namei` finds and `null` is the word at address 0 of the
process. -/
def Process.exec (null : Pte) (file : Option Contents) (path : CString) (argv : List CString)
    (proc : Process) (x : Phys) : Except Fault Executed :=
  match file with
  | none => .ok ⟨false, proc, x, [.beginOp, .endOp]⟩
  | some file => do
    match ← load k file x with
    | .bad pgdir x => bad k pgdir true proc x [.beginOp, .ilock]
    | .image elf sz s =>
      let calls : List FsCall := [.beginOp, .ilock, .iunlockput, .endOp]
      let (r, s) ← s.buildStack k null argv sz
      match r with
      | none => bad k (some s.pgdir) false proc s.toPhys calls
      | some (sz, sp) => do
        let x ← Store.freevm k ⟨s.toPhys, proc.pgdir⟩
        .ok ⟨true, ⟨s.pgdir, sz, lastElem path.chars, elf.entry, sp⟩, x, calls⟩

end Xv6.Vm
