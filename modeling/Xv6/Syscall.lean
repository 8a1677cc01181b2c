import Mathlib.Data.UInt
import Xv6.Places

/-!
# Arguments of system calls

The functions of `syscall.c` that fetch arguments. They read user memory through the page table
of the process, so that a read of a page that is not present is a fault in the kernel
(`none`). -1 is `some none`.

For a process with pages for all addresses below its size there are no faults, and what the
functions accept lies below the size (`args_checked`).
-/

namespace Xv6.Vm

open Option

/-- The process that makes a system call : its memory, size and stack pointer. -/
structure Curproc extends Store where
  sz : UInt32
  esp : UInt32

namespace Curproc

/-- `*(int*)addr`. -/
def word (p : Curproc) (addr : UInt32) : Option UInt32 := do
  let b0 ← p.byte addr.toNat
  let b1 ← p.byte (addr + 1).toNat
  let b2 ← p.byte (addr + 2).toNat
  let b3 ← p.byte (addr + 3).toNat
  some (b0.toUInt32 + b1.toUInt32 * 2 ^ 8 + b2.toUInt32 * 2 ^ 16 + b3.toUInt32 * 2 ^ 24)

/-- Fetch the int at addr from the current process. -/
def fetchint (p : Curproc) (addr : UInt32) : Option (Option UInt32) :=
  if addr ≥ p.sz ∨ addr + 4 > p.sz then some none else (p.word addr).map some

/-- The loop of `fetchstr`, and the pointer it returns with. -/
def findNul (p : Curproc) : ℕ → UInt32 → Option (Option UInt32)
  | 0, _ => some none
  | n + 1, s =>
    if s < p.sz then
      match p.byte s.toNat with
      | none => none
      | some c => if c = 0 then some (some s) else findNul p n (s + 1)
    else some none

/-- Fetch the nul-terminated string at addr from the current process : its length. -/
def fetchstr (p : Curproc) (addr : UInt32) : Option (Option UInt32) :=
  if addr ≥ p.sz then some none
  else (p.findNul (p.sz - addr).toNat addr).map fun o => o.map fun s => s - addr

/-- The address of the nth argument. -/
def argaddr (p : Curproc) (n : Int32) : UInt32 := p.esp + 4 + (4 * n).toUInt32

/-- Fetch the nth 32-bit system call argument. -/
def argint (p : Curproc) (n : Int32) : Option (Option UInt32) := p.fetchint (p.argaddr n)

/-- Fetch the nth word-sized system call argument as a pointer to a block of memory of size
bytes. -/
def argptr (p : Curproc) (n size : Int32) : Option (Option UInt32) := do
  match ← p.argint n with
  | none => some none
  | some i =>
    if size < 0 ∨ i ≥ p.sz ∨ i + size.toUInt32 > p.sz then some none else some (some i)

/-- Fetch the nth word-sized system call argument as a string pointer, with the length. -/
def argstr (p : Curproc) (n : Int32) : Option (Option (UInt32 × UInt32)) := do
  match ← p.argint n with
  | none => some none
  | some addr => (p.fetchstr addr).map fun o => o.map fun len => (addr, len)

/-- The pages of the process are exactly those below its size, which is below the kernel. -/
structure Sized (p : Curproc) : Prop where
  lt : p.sz.toNat < KERNBASE
  contig : p.pgdir.Contig p.sz.toNat

variable {p : Curproc} {addr : UInt32}

theorem Sized.byte (h : p.Sized) {va : ℕ} (hva : va < p.sz.toNat) : ∃ c, p.byte va = some c := by
  have hk := hva.trans h.lt
  have hle := pgrounddown_le va
  obtain ⟨e, he⟩ := present_iff_entry.1 ((h.contig _ (aligned_pgrounddown (hk.trans kernbase_lt))
    (by omega)).2 (by omega))
  refine ⟨p.mem (e.pa + va % PGSIZE), ?_⟩
  rw [Store.byte, Ram.view, user_of_lt hk, he]
  rfl

/-- A block of memory that lies below the size, in pages that are present. -/
structure Within (p : Curproc) (addr len : ℕ) : Prop where
  le : addr + len ≤ p.sz.toNat
  present : ∀ i < len, ∃ c, p.byte (addr + i) = some c

theorem Sized.within (h : p.Sized) {a len : ℕ} (hle : a + len ≤ p.sz.toNat) : p.Within a len :=
  ⟨hle, fun _ hi => h.byte (by omega)⟩

/-! ## fetchint -/

/-- The bound of `fetchint` does not wrap. -/
theorem add_four_le (h : p.Sized) (hsz : ¬(addr ≥ p.sz ∨ addr + 4 > p.sz)) :
    addr.toNat + 4 ≤ p.sz.toNat := by
  have hlt := h.lt
  simp only [ge_iff_le, gt_iff_lt, UInt32.le_iff_toNat_le, UInt32.lt_iff_toNat_lt,
    UInt32.toNat_add, not_or, not_le, not_lt] at hsz
  simp only [KERNBASE] at hlt
  have h4 : (4 : UInt32).toNat = 4 := rfl
  omega

/-- `addr + i` does not wrap below the kernel. -/
theorem toNat_add_of_lt {i : UInt32} (h : addr.toNat + i.toNat < 2 ^ 32) :
    (addr + i).toNat = addr.toNat + i.toNat := by
  rw [UInt32.toNat_add, Nat.mod_eq_of_lt h]

theorem exists_word (h : p.Sized) (hle : addr.toNat + 4 ≤ p.sz.toNat) :
    ∃ w, p.word addr = some w := by
  have hlt := h.lt
  simp only [KERNBASE] at hlt
  have hread : ∀ i : UInt32, i.toNat < 4 → ∃ c, p.byte (addr + i).toNat = some c := by
    intro i hi
    rw [toNat_add_of_lt (by omega)]
    exact h.byte (by omega)
  obtain ⟨b0, h0⟩ := h.byte (show addr.toNat < p.sz.toNat by omega)
  obtain ⟨b1, h1⟩ := hread 1 (by decide)
  obtain ⟨b2, h2⟩ := hread 2 (by decide)
  obtain ⟨b3, h3⟩ := hread 3 (by decide)
  rw [word, h0, h1, h2, h3]
  exact ⟨_, rfl⟩

/-- `fetchint` reads 4 bytes below the size, or fails. -/
theorem fetchint_ok (h : p.Sized) (addr : UInt32) : ∃ r, p.fetchint addr = some r ∧
    ∀ w, r = some w → p.Within addr.toNat 4 ∧ p.word addr = some w := by
  unfold fetchint
  split_ifs with hsz
  · exact ⟨none, rfl, by simp⟩
  · have hle := add_four_le h hsz
    obtain ⟨w, hw⟩ := exists_word h hle
    refine ⟨some w, by rw [hw]; rfl, fun w' hw' => ?_⟩
    obtain rfl := some.inj hw'
    exact ⟨h.within hle, hw⟩

/-! ## fetchstr -/

/-- There is no 0 from an address to another. -/
def NoNul (p : Curproc) (a z : ℕ) : Prop := ∀ va, a ≤ va → va < z → ∃ c, p.byte va = some c ∧ c ≠ 0

theorem NoNul.cons {a z : ℕ} {c : UInt8} (hc : p.byte a = some c) (h0 : c ≠ 0)
    (h : p.NoNul (a + 1) z) : p.NoNul a z := by
  intro va hva hz
  by_cases heq : va = a
  · exact ⟨c, heq ▸ hc, h0⟩
  · exact h va (by omega) hz

theorem findNul_ok (h : p.Sized) : ∀ (n : ℕ) (s : UInt32), s.toNat + n = p.sz.toNat →
    ∃ r, p.findNul n s = some r ∧
      (∀ q, r = some q → s.toNat ≤ q.toNat ∧ q.toNat < p.sz.toNat ∧ p.byte q.toNat = some 0 ∧
        p.NoNul s.toNat q.toNat) ∧
      (r = none → p.NoNul s.toNat p.sz.toNat)
  | 0, s, hs => ⟨none, rfl, by simp, fun _ va hva hz => by omega⟩
  | n + 1, s, hs => by
    have hlt : s.toNat < p.sz.toNat := by omega
    have hsz := h.lt
    simp only [KERNBASE] at hsz
    have h1 : (1 : UInt32).toNat = 1 := rfl
    have hnext : (s + 1).toNat = s.toNat + 1 := toNat_add_of_lt (by omega)
    obtain ⟨c, hc⟩ := h.byte hlt
    rw [findNul, if_pos (UInt32.lt_iff_toNat_lt.2 hlt), hc]
    dsimp only
    split_ifs with h0
    · subst h0
      refine ⟨some s, rfl, fun q hq => ?_, by simp⟩
      obtain rfl := some.inj hq
      exact ⟨le_rfl, hlt, hc, fun va hva hz => by omega⟩
    · obtain ⟨r, hr, hfound, hnone⟩ := findNul_ok h n (s + 1) (by omega)
      rw [hnext] at hfound hnone
      refine ⟨r, hr, fun q hq => ?_, fun hr' => (hnone hr').cons hc h0⟩
      obtain ⟨hle, hz, hnul, hno⟩ := hfound q hq
      exact ⟨by omega, hz, hnul, hno.cons hc h0⟩

/-- What `fetchstr` returns : the length of the string that starts at the address, which ends
below the size. -/
structure Fetched (p : Curproc) (addr k : ℕ) : Prop where
  within : p.Within addr (k + 1)
  nul : p.byte (addr + k) = some 0
  noNul : p.NoNul addr (addr + k)

/-- The address is below the size, and so is a 0 that comes after it. -/
def HasString (p : Curproc) (addr : ℕ) : Prop :=
  addr < p.sz.toNat ∧ ∃ va, addr ≤ va ∧ va < p.sz.toNat ∧ p.byte va = some 0

theorem fetchstr_ok (h : p.Sized) (addr : UInt32) : ∃ r, p.fetchstr addr = some r ∧
    (∀ k, r = some k → p.Fetched addr.toNat k.toNat) ∧
    (r = none ↔ ¬p.HasString addr.toNat) := by
  unfold fetchstr
  split_ifs with hsz
  · rw [ge_iff_le, UInt32.le_iff_toNat_le] at hsz
    exact ⟨none, rfl, by simp, iff_of_true rfl fun hs => by have := hs.1; omega⟩
  · rw [ge_iff_le, UInt32.le_iff_toNat_le, not_le] at hsz
    have hsub : (p.sz - addr).toNat = p.sz.toNat - addr.toNat :=
      UInt32.toNat_sub_of_le _ _ (UInt32.le_iff_toNat_le.2 hsz.le)
    obtain ⟨r, hr, hfound, hnone⟩ := findNul_ok h (p.sz - addr).toNat addr (by omega)
    rw [hr]
    refine ⟨_, rfl, fun k hk => ?_, ?_⟩
    · obtain ⟨q, rfl, rfl⟩ := map_eq_some_iff.1 hk
      obtain ⟨hle, hz, hnul, hno⟩ := hfound q rfl
      have hlen : (q - addr).toNat = q.toNat - addr.toNat :=
        UInt32.toNat_sub_of_le _ _ (UInt32.le_iff_toNat_le.2 hle)
      have hend : addr.toNat + (q.toNat - addr.toNat) = q.toNat := by omega
      rw [hlen]
      refine ⟨h.within (by omega), ?_, ?_⟩
      · rw [hend]
        exact hnul
      · rw [hend]
        exact hno
    · rw [map_eq_none_iff]
      constructor
      · rintro hr' ⟨-, va, hva, hz, hnul⟩
        obtain ⟨c, hc, h0⟩ := hnone hr' va hva hz
        rw [hnul] at hc
        exact h0 (some.inj hc).symm
      · intro hnot
        cases r with
        | none => rfl
        | some q =>
          obtain ⟨hle, hz, hnul, -⟩ := hfound q rfl
          exact absurd ⟨hsz, q.toNat, hle, hz, hnul⟩ hnot

/-! ## argptr and argstr -/

theorem toNat_toUInt32 {n : Int32} (h : 0 ≤ n.toInt) : n.toUInt32.toNat = n.toInt.toNat := by
  have hint : n.toInt = n.toBitVec.toInt := rfl
  have hnat : n.toUInt32.toNat = n.toBitVec.toNat := rfl
  have hlt := n.toBitVec.isLt
  rw [hint, BitVec.toInt_eq_toNat_cond] at h ⊢
  rw [hnat]
  split_ifs at h ⊢ <;> omega

theorem argptr_ok (h : p.Sized) (n size : Int32) : ∃ r, p.argptr n size = some r ∧
    (size.toInt < 0 → r = none) ∧
    ∀ ptr, r = some ptr → p.argint n = some (some ptr) ∧ p.Within ptr.toNat size.toInt.toNat := by
  obtain ⟨r, hr, -⟩ := fetchint_ok h (p.argaddr n)
  have harg : p.argint n = some r := hr
  unfold argptr
  rw [harg]
  cases r with
  | none => exact ⟨none, rfl, fun _ => rfl, by simp⟩
  | some i =>
    change ∃ r, (if size < 0 ∨ i ≥ p.sz ∨ i + size.toUInt32 > p.sz then some none
      else some (some i)) = some r ∧ _
    split_ifs with hbad
    · exact ⟨none, rfl, fun _ => rfl, by simp⟩
    · simp only [not_or, ge_iff_le, gt_iff_lt, not_le, not_lt, UInt32.le_iff_toNat_le,
        UInt32.lt_iff_toNat_lt, Int32.lt_iff_toInt_lt] at hbad
      obtain ⟨hneg, hlt, hle⟩ := hbad
      have h0 : (0 : Int32).toInt = 0 := rfl
      rw [h0] at hneg
      refine ⟨some i, rfl, fun hn => by omega, fun ptr hptr => ?_⟩
      obtain rfl := some.inj hptr
      refine ⟨rfl, h.within ?_⟩
      -- neither `i` nor `size` reaches the sign bit, so the sum does not wrap
      have hsz := h.lt
      simp only [KERNBASE] at hsz
      have hsize := toNat_toUInt32 hneg
      have hbound := size.toInt_lt
      rw [UInt32.toNat_add, hsize] at hle
      omega

theorem argstr_ok (h : p.Sized) (n : Int32) : ∃ r, p.argstr n = some r ∧
    (∀ addr k, r = some (addr, k) → p.argint n = some (some addr) ∧
      p.Fetched addr.toNat k.toNat) ∧
    (r = none ↔ ∀ addr, p.argint n = some (some addr) → ¬p.HasString addr.toNat) := by
  obtain ⟨r, hr, -⟩ := fetchint_ok h (p.argaddr n)
  have harg : p.argint n = some r := hr
  unfold argstr
  rw [harg]
  cases r with
  | none => exact ⟨none, rfl, by simp, iff_of_true rfl (by simp)⟩
  | some addr =>
    obtain ⟨o, ho, hfound, hnone⟩ := fetchstr_ok h addr
    refine ⟨o.map fun len => (addr, len), ?_, fun addr' k hk => ?_, ?_⟩
    · change (p.fetchstr addr).map _ = _
      rw [ho]
      rfl
    · obtain ⟨k', rfl, hk'⟩ := map_eq_some_iff.1 hk
      obtain ⟨rfl, rfl⟩ := Prod.mk.inj hk'
      exact ⟨rfl, hfound k' rfl⟩
    · rw [map_eq_none_iff, hnone]
      refine ⟨fun hnot addr' haddr => ?_, fun hnot => hnot addr rfl⟩
      obtain rfl := some.inj (some.inj haddr)
      exact hnot

/-- The checks of system call arguments : the kernel does not fault, and the memory that it takes
from the user lies below the size of the process, in pages that are present. -/
theorem args_checked (h : p.Sized) (addr : UInt32) (n size : Int32) :
    (∃ r, p.fetchint addr = some r ∧ ∀ w, r = some w → p.Within addr.toNat 4) ∧
    (∃ r, p.argint n = some r ∧ ∀ w, r = some w → p.Within (p.argaddr n).toNat 4) ∧
    (∃ r, p.argptr n size = some r ∧ (size.toInt < 0 → r = none) ∧
      ∀ ptr, r = some ptr → p.Within ptr.toNat size.toInt.toNat) ∧
    (∃ r, p.fetchstr addr = some r ∧ (∀ k, r = some k → p.Fetched addr.toNat k.toNat) ∧
      (r = none ↔ ¬p.HasString addr.toNat)) ∧
    ∃ r, p.argstr n = some r ∧
      (∀ ptr k, r = some (ptr, k) → p.argint n = some (some ptr) ∧
        p.Fetched ptr.toNat k.toNat) ∧
      (r = none ↔ ∀ ptr, p.argint n = some (some ptr) → ¬p.HasString ptr.toNat) := by
  obtain ⟨r₁, h₁, hw₁⟩ := fetchint_ok h addr
  obtain ⟨r₂, h₂, hw₂⟩ := fetchint_ok h (p.argaddr n)
  obtain ⟨r₃, h₃, hneg, hw₃⟩ := argptr_ok h n size
  exact ⟨⟨r₁, h₁, fun w hw => (hw₁ w hw).1⟩, ⟨r₂, h₂, fun w hw => (hw₂ w hw).1⟩,
    ⟨r₃, h₃, hneg, fun ptr hptr => (hw₃ ptr hptr).2⟩, fetchstr_ok h addr, argstr_ok h n⟩

/-- A process with one page of zeros and its stack pointer near the end of it. -/
def zeroPage (kmem : List ℕ) (pgdir : Pgdir) : Curproc :=
  ⟨⟨⟨kmem, fun _ => 0⟩, pgdir⟩, 4096, 4084⟩

/-- The first process makes a system call. Its last word below the size is a pointer to the block
of 16 bytes and to the string at address 0, and the word after that is refused. -/
theorem args_checked_init : ∃ s c, Sys.usualMain = .ok s ∧
    s.proc Ptable.initproc = some c ∧ c.sz = 4096 ∧
    ((zeroPage s.kmem c.pgdir).argptr 1 16 = some (some 0) ∧
      (zeroPage s.kmem c.pgdir).Within 0 16) ∧
    ((zeroPage s.kmem c.pgdir).argstr 1 = some (some (0, 0)) ∧
      (zeroPage s.kmem c.pgdir).Fetched 0 0) ∧
    (zeroPage s.kmem c.pgdir).argint 2 = some none := by
  obtain ⟨s, c, h, -, hc, hp, -, hsz, -⟩ := Sys.exists_main
  have hsized : (zeroPage s.kmem c.pgdir).Sized := by
    refine ⟨show (4096 : ℕ) < KERNBASE by decide, ?_⟩
    have := hc _ c hp
    rw [hsz] at this
    exact this
  have hb : ∀ va < 4096, (zeroPage s.kmem c.pgdir).byte va = some 0 := fun va hva => by
    obtain ⟨b, hb⟩ := hsized.byte hva
    obtain ⟨x, -, rfl⟩ := map_eq_some_iff.1 hb
    exact hb
  have harg : (zeroPage s.kmem c.pgdir).argint 1 = some (some 0) := by
    change ((zeroPage s.kmem c.pgdir).word 4092).map some = _
    rw [word, hb _ (by decide), hb _ (by decide), hb _ (by decide), hb _ (by decide)]
    rfl
  have hptr : (zeroPage s.kmem c.pgdir).argptr 1 16 = some (some 0) := by
    rw [argptr, harg]
    rfl
  have hstr : (zeroPage s.kmem c.pgdir).argstr 1 = some (some (0, 0)) := by
    have hfetch : (zeroPage s.kmem c.pgdir).fetchstr 0 = some (some 0) := by
      have hsz' : (zeroPage s.kmem c.pgdir).sz = 4096 := rfl
      rw [fetchstr, hsz', if_neg (by decide),
        show ((4096 : UInt32) - 0).toNat = 4095 + 1 by decide, findNul, hsz', if_pos (by decide),
        hb _ (by decide)]
      rfl
    rw [argstr, harg]
    simp only [bind_eq_bind, bind_some, hfetch]
    rfl
  obtain ⟨-, -, ⟨r, hr, -, hwithin⟩, -, r', hr', hfetched, -⟩ := args_checked hsized 0 1 16
  refine ⟨s, c, h, hp, hsz, ⟨hptr, ?_⟩, ⟨hstr, ?_⟩, rfl⟩
  · exact hwithin 0 (some.inj (hr.symm.trans hptr))
  · exact (hfetched 0 0 (some.inj (hr'.symm.trans hstr))).2

end Curproc

end Xv6.Vm
