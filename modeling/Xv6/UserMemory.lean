import Xv6.PageTable
import Xv6.Ram

/-!
# The contents of user memory

The functions of `vm.c` and `growproc` once more, now with what they do to physical memory.
`mem` holds the bytes of the pages that user memory is in. What is in the page of a page table
or of the page directory, and the link that a free page holds, are in the tree and in the free
list.
-/

namespace Xv6.Vm

open Ram

/-- Physical memory, with the free list. -/
structure Phys where
  kmem : List ℕ
  mem : ℕ → UInt8

/-- Physical memory and a page directory. -/
structure Store extends Phys where
  pgdir : Pgdir

def Store.space (s : Store) : Space := ⟨s.kmem, s.pgdir⟩

/-- Where a user address is in physical memory. -/
def Pgdir.user (d : Pgdir) (va : ℕ) : Option ℕ :=
  if va < KERNBASE then
    match d.walk va with
    | none => none
    | some pte => if pte.p then some (pte.pa + va % PGSIZE) else none
  else none

/-- The byte at a user address. -/
def Store.byte (s : Store) (va : ℕ) : Option UInt8 := view s.pgdir.user s.mem va

def memset (mem : ℕ → UInt8) (dst : ℕ) (c : UInt8) (n : ℕ) : ℕ → UInt8 :=
  write mem dst n fun _ => c

/-- `memmove` from another part of memory. -/
def memmove (mem : ℕ → UInt8) (dst src n : ℕ) : ℕ → UInt8 :=
  write mem dst n fun i => mem (src + i)

/-- `memmove` from a list of bytes. -/
def putBytes (mem : ℕ → UInt8) (dst : ℕ) (bytes : List UInt8) : ℕ → UInt8 :=
  write mem dst bytes.length fun i => bytes.getD i 0

def Phys.kfree (k : Kernel) (m : Phys) (pg : ℕ) : Except Fault Phys := do
  let kmem ← Vm.kfree k m.kmem pg
  .ok ⟨kmem, memset m.mem pg 1 PGSIZE⟩

def Phys.freerange (k : Kernel) (m : Phys) (vstart vend : ℕ) : Except Fault Phys :=
  (pagesFrom vstart vend).foldlM (Phys.kfree k) m

namespace Store

variable (k : Kernel)

/-- The loop of `deallocuvm`. -/
def deallocLoop (oldsz : ℕ) : ℕ → ℕ → Store → Except Fault Store
  | 0, _, s => .ok s
  | n + 1, a, s =>
    if a < oldsz then
      match s.pgdir.walk a with
      | none => deallocLoop oldsz n (PGADDR (PDX a + 1) 0 0 - PGSIZE + PGSIZE) s
      | some pte =>
        if pte.p then
          if pte.pa = 0 then .error .kfree
          else do
            let m ← s.toPhys.kfree k pte.pa
            deallocLoop oldsz n (a + PGSIZE) ⟨m, s.pgdir.setPte a .zero⟩
        else deallocLoop oldsz n (a + PGSIZE) s
    else .ok s

def deallocuvm (s : Store) (oldsz newsz : ℕ) : Except Fault (ℕ × Store) :=
  if newsz ≥ oldsz then .ok (oldsz, s)
  else do
    let s ← deallocLoop k oldsz ROUNDS (PGROUNDUP newsz) s
    .ok (newsz, s)

/-- `freevm` frees the page of one page table. -/
def freeTab (d : Pgdir) (m : Phys) (i : Fin NPDENTRIES) : Except Fault Phys :=
  match d.pde i with
  | none => .ok m
  | some t => m.kfree k t.pg

def freevm (s : Store) : Except Fault Phys := do
  let (_, s) ← s.deallocuvm k KERNBASE 0
  let m ← (List.finRange NPDENTRIES).foldlM (freeTab k s.pgdir) s.toPhys
  m.kfree k s.pgdir.pg

/-- `mappages`, which leaves user memory as it is. -/
def mappages (s : Store) (va size pa : ℕ) (w u : Bool) : Except Fault (Bool × Store) := do
  let (ok, v) ← Vm.mappages s.space va size pa w u
  .ok (ok, ⟨⟨v.kmem, s.mem⟩, v.pgdir⟩)

def setupkvm (m : Phys) : Except Fault (Option Pgdir × Phys) :=
  match kalloc m.kmem with
  | none => .ok (none, m)
  | some (pg, kmem) =>
    if PHYSTOP + KERNBASE > DEVSPACE then .error .phystop
    else do
      let (ok, v) ← setupLoop (kmap k) ⟨kmem, ⟨pg, fun _ => none⟩⟩
      if ok then .ok (some v.pgdir, ⟨v.kmem, m.mem⟩)
      else do
        let m ← freevm k ⟨⟨v.kmem, m.mem⟩, v.pgdir⟩
        .ok (none, m)

/-- `inituvm`. The result of `mappages` is not looked at. -/
def inituvm (s : Store) (init : List UInt8) : Except Fault Store :=
  if init.length ≥ PGSIZE then .error .inituvm
  else
    match kalloc s.kmem with
    | none => .error .null
    | some (mem, kmem) => do
      let s : Store := ⟨⟨kmem, memset s.mem mem 0 PGSIZE⟩, s.pgdir⟩
      let (_, s) ← s.mappages 0 PGSIZE mem true true
      .ok { s with mem := putBytes s.mem mem init }

/-- The loop of `allocuvm`. -/
def allocLoop (oldsz newsz : ℕ) : ℕ → ℕ → Store → Except Fault (ℕ × Store)
  | 0, _, s => .ok (newsz, s)
  | n + 1, a, s =>
    if a < newsz then
      match kalloc s.kmem with
      | none => do
        let (_, s) ← s.deallocuvm k newsz oldsz
        .ok (0, s)
      | some (mem, kmem) => do
        let s : Store := ⟨⟨kmem, memset s.mem mem 0 PGSIZE⟩, s.pgdir⟩
        let (ok, s) ← s.mappages a PGSIZE mem true true
        if ok then allocLoop oldsz newsz n (a + PGSIZE) s
        else do
          let (_, s) ← s.deallocuvm k newsz oldsz
          let m ← s.toPhys.kfree k mem
          .ok (0, ⟨m, s.pgdir⟩)
    else .ok (newsz, s)

/-- `allocuvm`, which returns the new size or 0. -/
def allocuvm (s : Store) (oldsz newsz : ℕ) : Except Fault (ℕ × Store) :=
  if newsz ≥ KERNBASE then .ok (0, s)
  else if newsz < oldsz then .ok (oldsz, s)
  else allocLoop k oldsz newsz ROUNDS (PGROUNDUP oldsz) s

/-- The loop of `copyuvm`. It stops early, with `false`, if there is no memory. -/
def copyLoop (pgdir : Pgdir) (sz : ℕ) : ℕ → ℕ → Store → Except Fault (Bool × Store)
  | 0, _, d => .ok (true, d)
  | n + 1, i, d =>
    if i < sz then
      match pgdir.walk i with
      | none => .error .copyuvmExist
      | some pte =>
        if pte.p = false then .error .copyuvmPresent
        else
          match kalloc d.kmem with
          | none => .ok (false, d)
          | some (mem, kmem) => do
            let d : Store := ⟨⟨kmem, memmove d.mem mem pte.pa PGSIZE⟩, d.pgdir⟩
            let (ok, d) ← d.mappages i PGSIZE mem pte.w pte.u
            if ok then copyLoop pgdir sz n (i + PGSIZE) d
            else do
              let m ← d.toPhys.kfree k mem
              .ok (false, ⟨m, d.pgdir⟩)
    else .ok (true, d)

def copyuvm (s : Store) (sz : ℕ) : Except Fault (Option Pgdir × Phys) := do
  let (d, m) ← setupkvm k s.toPhys
  match d with
  | none => .ok (none, m)
  | some d =>
    let (ok, d) ← copyLoop k s.pgdir sz ROUNDS 0 ⟨m, d⟩
    if ok then .ok (some d.pgdir, d.toPhys)
    else do
      let m ← d.freevm k
      .ok (none, m)

/-- `growproc` : the size, unless it returns -1, and the memory. -/
def growproc (s : Store) (sz : ℕ) (n : Int32) : Except Fault (Option ℕ × Store) :=
  let newsz := ((sz + n.toInt) % 2 ^ 32).toNat
  if 0 < n then do
    let (sz, s) ← s.allocuvm k sz newsz
    if sz = 0 then .ok (none, s) else .ok (some sz, s)
  else if n < 0 then do
    let (sz, s) ← s.deallocuvm k sz newsz
    if sz = 0 then .ok (none, s) else .ok (some sz, s)
  else .ok (some sz, s)

end Store

/-- `uva2ka`, as a physical address, or 0. The result of `walkpgdir` is not checked. If it is a null
pointer the word at address 0 of the process is read in its place, and `null` are the flags
there : without them the result is 0, and with them the code has left the address space and the
model stops. -/
def Store.uva2ka (null : Pte) (d : Pgdir) (uva : ℕ) : Except Fault (Option ℕ) :=
  match d.walk uva with
  | none => if null.p && null.u then .error .null else .ok none
  | some pte => .ok (if pte.p && pte.u then some pte.pa else none)

/-- The loop of `copyout`. -/
def copyoutBytes (null : Pte) (d : Pgdir) :
    ℕ → ℕ → List UInt8 → (ℕ → UInt8) → Except Fault (Bool × (ℕ → UInt8))
  | 0, _, _, mem => .ok (true, mem)
  | fuel + 1, va, buf, mem =>
    if buf.length = 0 then .ok (true, mem)
    else do
      let va0 := PGROUNDDOWN va
      let pa0 ← Store.uva2ka null d va0
      match pa0 with
      | none => .ok (false, mem)
      | some pa0 =>
        let n := min (PGSIZE - (va - va0)) buf.length
        copyoutBytes null d fuel ((va0 + PGSIZE) % 2 ^ 32) (buf.drop n)
          (putBytes mem (pa0 + (va - va0)) (buf.take n))

/-- `copyout`, and whether it succeeds. -/
def Store.copyout (null : Pte) (s : Store) (va : ℕ) (buf : List UInt8) :
    Except Fault (Bool × Store) := do
  let (ok, mem) ← copyoutBytes null s.pgdir buf.length va buf s.mem
  .ok (ok, { s with mem := mem })

end Xv6.Vm
