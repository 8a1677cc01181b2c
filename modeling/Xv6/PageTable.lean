import Mathlib.Algebra.Order.Ring.Nat
import Xv6.Outcome
import Mathlib.Data.List.FinRange
import Mathlib.Logic.Function.Basic

/-!
# Pages and page tables

`kalloc.c` and `vm.c`. A page is its physical address, and the free list `kmem` is a list of
pages. A page directory is a tree : its own page, its page tables with their pages, and their
entries. The functions that fill or free pages are in `Xv6.UserMemory`, with the contents of
memory.

A loop of the source that visits page-aligned addresses is a recursive function. Its first
argument bounds the rounds, and `ROUNDS` are enough for every loop.
-/

namespace Xv6.Vm

open Function

def PGSIZE : ℕ := 4096

def NPDENTRIES : ℕ := 1024

def NPTENTRIES : ℕ := 1024

def KERNBASE : ℕ := 0x80000000

def EXTMEM : ℕ := 0x100000

def PHYSTOP : ℕ := 0xE000000

def DEVSPACE : ℕ := 0xFE000000

def KERNLINK : ℕ := KERNBASE + EXTMEM

/-- The number of pages of the address space. -/
def ROUNDS : ℕ := NPDENTRIES * NPTENTRIES

/-- Page directory index. -/
def PDX (va : ℕ) : Fin NPDENTRIES := ⟨va / 2 ^ 22 % NPDENTRIES, Nat.mod_lt _ (by decide)⟩

/-- Page table index. -/
def PTX (va : ℕ) : Fin NPTENTRIES := ⟨va / 2 ^ 12 % NPTENTRIES, Nat.mod_lt _ (by decide)⟩

/-- The address with the indexes and the offset. -/
def PGADDR (d t o : ℕ) : ℕ := d * 2 ^ 22 + t * 2 ^ 12 + o

def PGROUNDUP (sz : ℕ) : ℕ := (sz + PGSIZE - 1) / PGSIZE * PGSIZE % 2 ^ 32

def PGROUNDDOWN (a : ℕ) : ℕ := a / PGSIZE * PGSIZE

/-- The addresses that the linker chooses. -/
structure Kernel where
  data : ℕ
  /-- The first address after the kernel. -/
  «end» : ℕ
  lt_data : KERNLINK < data
  aligned : data % PGSIZE = 0
  data_le : data ≤ «end»
  end_le : «end» ≤ KERNBASE + 4 * 1024 * 1024

/-- Why the kernel stops. -/
inductive Fault where
  /-- The `panic`s. -/
  | kfree
  | remap
  | phystop
  | inituvm
  | loaduvmAligned
  | loaduvmExist
  | clearpteu
  | copyuvmExist
  | copyuvmPresent
  | userinit
  | initExiting
  /-- A null pointer is used. -/
  | null
deriving DecidableEq

/-! ## kalloc.c -/

def kfree (k : Kernel) (kmem : List ℕ) (pg : ℕ) : Except Fault (List ℕ) :=
  if pg % PGSIZE ≠ 0 ∨ pg + KERNBASE < k.end ∨ PHYSTOP ≤ pg then .error .kfree
  else .ok (pg :: kmem)

def kalloc : List ℕ → Option (ℕ × List ℕ)
  | [] => none
  | pg :: kmem => some (pg, kmem)

/-- The pages from `vstart` to `vend`. -/
def pagesFrom (vstart vend : ℕ) : List ℕ :=
  (List.range ((vend - PGROUNDUP vstart) / PGSIZE)).map fun i =>
    PGROUNDUP vstart - KERNBASE + i * PGSIZE

/-! ## Page tables -/

/-- An entry of a page table : its address, `PTE_P`, `PTE_W` and `PTE_U`. -/
structure Pte where
  pa : ℕ
  p : Bool
  w : Bool
  u : Bool
deriving DecidableEq

/-- The entry of a cleared page table. -/
def Pte.zero : Pte := ⟨0, false, false, false⟩

/-- A page table, with the page it is in. -/
structure Pgtab where
  pg : ℕ
  pte : Fin NPTENTRIES → Pte

/-- A page directory, with the page it is in. -/
structure Pgdir where
  pg : ℕ
  pde : Fin NPDENTRIES → Option Pgtab

/-- The free list and a page directory. -/
structure Space where
  kmem : List ℕ
  pgdir : Pgdir

/-- `walkpgdir` without `alloc` : the entry for an address, or none. -/
def Pgdir.walk (d : Pgdir) (va : ℕ) : Option Pte := (d.pde (PDX va)).map fun t => t.pte (PTX va)

/-- Assign to the entry for an address. -/
def Pgdir.setPte (d : Pgdir) (va : ℕ) (e : Pte) : Pgdir :=
  { d with
    pde := update d.pde (PDX va) ((d.pde (PDX va)).map fun t =>
      { t with pte := update t.pte (PTX va) e }) }

/-- `walkpgdir` with `alloc` : the entry, and the state in which there is one. -/
def walkpgdir (v : Space) (va : ℕ) : Option (Pte × Space) :=
  match v.pgdir.pde (PDX va) with
  | some t => some (t.pte (PTX va), v)
  | none =>
    match kalloc v.kmem with
    | none => none
    | some (pg, kmem) =>
      let t := { pg := pg, pte := fun _ => .zero }
      some (.zero, ⟨kmem, { v.pgdir with pde := update v.pgdir.pde (PDX va) (some t) }⟩)

/-- The loop of `mappages`. `n` more pages follow. -/
def mapLoop (w u : Bool) : ℕ → ℕ → ℕ → Space → Except Fault (Bool × Space)
  | n, a, pa, v =>
    match walkpgdir v a with
    | none => .ok (false, v)
    | some (pte, v) =>
      if pte.p then .error .remap
      else
        let v := { v with pgdir := v.pgdir.setPte a ⟨pa, true, w, u⟩ }
        match n with
        | 0 => .ok (true, v)
        | n + 1 => mapLoop w u n (a + PGSIZE) (pa + PGSIZE) v

/-- `mappages`, and whether it succeeds. -/
def mappages (v : Space) (va size pa : ℕ) (w u : Bool) : Except Fault (Bool × Space) :=
  let a := PGROUNDDOWN va
  let last := PGROUNDDOWN (va + size - 1)
  mapLoop w u ((last - a) / PGSIZE) a pa v

/-- `struct kmap`. -/
structure Kmap where
  virt : ℕ
  physStart : ℕ
  physEnd : ℕ
  w : Bool

/-- The kernel's mappings. -/
def kmap (k : Kernel) : List Kmap :=
  [⟨KERNBASE, 0, EXTMEM, true⟩,
   ⟨KERNLINK, KERNLINK - KERNBASE, k.data - KERNBASE, false⟩,
   ⟨k.data, k.data - KERNBASE, PHYSTOP, true⟩,
   ⟨DEVSPACE, DEVSPACE, 0, true⟩]

/-- The loop of `setupkvm`. -/
def setupLoop : List Kmap → Space → Except Fault (Bool × Space)
  | [], v => .ok (true, v)
  | m :: ms, v => do
    let (ok, v) ←
      mappages v m.virt ((m.physEnd + 2 ^ 32 - m.physStart) % 2 ^ 32) m.physStart m.w false
    if ok then setupLoop ms v else .ok (false, v)

def clearpteu (d : Pgdir) (uva : ℕ) : Except Fault Pgdir :=
  match d.walk uva with
  | none => .error .clearpteu
  | some pte => .ok (d.setPte uva { pte with u := false })

end Xv6.Vm
