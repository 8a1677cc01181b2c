import Xv6.PageTable
import Xv6.Count
import Mathlib.Algebra.BigOperators.Fin
import Mathlib.Algebra.Order.BigOperators.Group.Multiset
import Mathlib.Data.Multiset.AddSub
import Mathlib.Tactic.Abel

/-!
# The pages of an address space

`Space.pages` are the pages of the free list and of an address space, counted with multiplicity.
Every function of `vm.c` moves pages between the two, so that the sum stays. `Pgdir.present` says
which addresses have a page.
-/

namespace Xv6.Vm

open Function Finset List Option

/-! ## Addresses -/

variable {kmem : List ℕ}

/-- The address of a page. -/
structure Aligned (a : ℕ) : Prop where
  mod : a % 4096 = 0
  lt : a < 2 ^ 32

/-- A page is known by its two indices. -/
theorem Aligned.eq_of_index {a b : ℕ} (ha : Aligned a) (hb : Aligned b) (hd : PDX a = PDX b)
    (ht : PTX a = PTX b) : a = b := by
  obtain ⟨ha, ha'⟩ := ha
  obtain ⟨hb, hb'⟩ := hb
  have hd := Fin.val_eq_of_eq hd
  have ht := Fin.val_eq_of_eq ht
  simp only [PDX, PTX, NPDENTRIES, NPTENTRIES] at hd ht
  omega

/-- The user has the lower half of a page directory, -/
theorem PDX_lt {a : ℕ} (ha : a < KERNBASE) : (PDX a : ℕ) < 512 := by
  simp only [PDX, NPDENTRIES, KERNBASE] at *
  omega

/-- and the kernel the upper half. -/
theorem le_PDX {a : ℕ} (ha : KERNBASE ≤ a) (ha' : a < 2 ^ 32) : 512 ≤ (PDX a : ℕ) := by
  simp only [PDX, NPDENTRIES, KERNBASE] at *
  omega

/-! ## The pages of an address space -/

/-- The page that an entry maps. -/
def Pte.page (e : Pte) : Multiset ℕ := if e.p then {e.pa} else 0

/-- The pages that a page table maps. -/
def Pgtab.mapped (t : Pgtab) : Multiset ℕ := total (fun _ => Pte.page) t.pte

/-- The pages of an entry of the page directory : the page table, and what it maps if that is
user memory. -/
def slotPages (i : Fin NPDENTRIES) : Option Pgtab → Multiset ℕ
  | none => 0
  | some t => {t.pg} + if (i : ℕ) < 512 then t.mapped else 0

theorem slotPages_user {i : Fin NPDENTRIES} (hi : (i : ℕ) < 512) (t : Pgtab) :
    slotPages i (some t) = {t.pg} + t.mapped := by rw [slotPages, if_pos hi]

theorem slotPages_kernel {i : Fin NPDENTRIES} (hi : 512 ≤ (i : ℕ)) (t : Pgtab) :
    slotPages i (some t) = {t.pg} := by rw [slotPages, if_neg (not_lt.2 hi), add_zero]

/-- The pages of an address space. -/
def Pgdir.pages (d : Pgdir) : Multiset ℕ := {d.pg} + total slotPages d.pde

/-- The free pages and those of an address space. -/
def Space.pages (v : Space) : Multiset ℕ := v.kmem + v.pgdir.pages

variable {v₀ : Space}

variable {d : Pgdir} {a b : ℕ} {e e₀ : Pte}

theorem walk_eq_some : d.walk a = some e ↔ ∃ t, d.pde (PDX a) = some t ∧ t.pte (PTX a) = e :=
  map_eq_some_iff

/-- What a page table maps when one entry changes. -/
theorem mapped_update (t : Pgtab) (j : Fin NPTENTRIES) (e : Pte) :
    Pgtab.mapped { t with pte := update t.pte j e } + (t.pte j).page = t.mapped + e.page :=
  total_update (fun _ => Pte.page) t.pte j e

/-- A user address is mapped to another page. -/
theorem pages_setPte (hw : d.walk a = some e₀) (ha : a < KERNBASE) (e : Pte) :
    (d.setPte a e).pages + e₀.page = d.pages + e.page := by
  obtain ⟨t, ht, rfl⟩ := walk_eq_some.1 hw
  have hout := total_update slotPages d.pde (PDX a)
    (some { t with pte := update t.pte (PTX a) e })
  have hin := mapped_update t (PTX a) e
  rw [ht, slotPages_user (PDX_lt ha), slotPages_user (PDX_lt ha)] at hout
  simp only [Pgdir.pages, Pgdir.setPte, ht, map_some]
  generalize total slotPages (update d.pde (PDX a) _) = new at hout ⊢
  generalize total slotPages d.pde = old at hout ⊢
  refine add_right_cancel (b := {t.pg} + t.mapped) ?_
  calc _ = {d.pg} + (t.pte (PTX a)).page + (new + ({t.pg} + t.mapped)) := by abel
    _ = {d.pg} + old + {t.pg} +
          (Pgtab.mapped { t with pte := update t.pte (PTX a) e } + (t.pte (PTX a)).page) := by
      rw [hout]
      abel
    _ = _ := by
      rw [hin]
      abel

/-- A kernel address is mapped. -/
theorem pages_setPte_kernel (ha : KERNBASE ≤ a) (ha' : a < 2 ^ 32) (e : Pte) :
    (d.setPte a e).pages = d.pages := by
  have hout := total_update slotPages d.pde (PDX a)
    ((d.pde (PDX a)).map fun t => { t with pte := update t.pte (PTX a) e })
  have hsame : slotPages (PDX a) ((d.pde (PDX a)).map fun t =>
      { t with pte := update t.pte (PTX a) e }) = slotPages (PDX a) (d.pde (PDX a)) := by
    cases d.pde (PDX a) with
    | none => rfl
    | some t =>
      have hi := le_PDX ha ha'
      rw [map_some, slotPages_kernel hi, slotPages_kernel hi]
  rw [hsame] at hout
  simp only [Pgdir.pages, Pgdir.setPte]
  rw [add_right_cancel hout]

/-! ## Which addresses have a page -/

/-- The entry for an address is present. -/
def Pgdir.present (d : Pgdir) (a : ℕ) : Prop := ∃ e, d.walk a = some e ∧ e.p = true

theorem walk_setPte_of_ne (h : ¬(PDX b = PDX a ∧ PTX b = PTX a)) (e : Pte) :
    (d.setPte a e).walk b = d.walk b := by
  unfold Pgdir.walk Pgdir.setPte
  by_cases hd : PDX b = PDX a
  · have ht : PTX b ≠ PTX a := fun ht => h ⟨hd, ht⟩
    simp only [hd, update_self, Option.map_map]
    cases d.pde (PDX a) with
    | none => rfl
    | some t => simp only [map_some, comp_apply, update_of_ne ht]
  · simp only [update_of_ne hd]

theorem walk_setPte_self (hw : d.walk a = some e₀) (e : Pte) : (d.setPte a e).walk a = some e := by
  obtain ⟨t, ht, -⟩ := walk_eq_some.1 hw
  simp only [Pgdir.walk, Pgdir.setPte, update_self, ht, map_some]

/-- The pages present after an entry is set. -/
theorem present_setPte (hw : d.walk a = some e₀) (ha : Aligned a) (hb : Aligned b) :
    (d.setPte a e).present b ↔ (b = a ∧ e.p = true) ∨ (b ≠ a ∧ d.present b) := by
  by_cases h : b = a
  · subst h
    simp [Pgdir.present, walk_setPte_self hw]
  · have hne : ¬(PDX b = PDX a ∧ PTX b = PTX a) := fun hi => h (hb.eq_of_index ha hi.1 hi.2)
    simp [Pgdir.present, walk_setPte_of_ne hne, h]

/-! ## Allocation of page tables -/

variable {v v' : Space}

/-- What `walkpgdir` does : it may move a page from the free list to a page table. -/
structure Walked (v v' : Space) (a : ℕ) (e : Pte) : Prop where
  pages : v'.pages = v.pages
  walk : v'.pgdir.walk a = some e
  present : ∀ b, v'.pgdir.present b ↔ v.pgdir.present b
  pde : ∀ i, i ≠ PDX a → v'.pgdir.pde i = v.pgdir.pde i
  kmem : v.kmem.length ≤ v'.kmem.length + 1

theorem Walked.p_iff (h : Walked v v' a e) : e.p = true ↔ v.pgdir.present a := by
  rw [← h.present, Pgdir.present, h.walk]
  simp

/-- `walkpgdir` changes no mapping. -/
theorem walkpgdir_some (h : walkpgdir v a = some (e, v')) : Walked v v' a e := by
  unfold walkpgdir at h
  cases ht : v.pgdir.pde (PDX a) with
  | some t =>
    simp only [ht, some.injEq, Prod.mk.injEq] at h
    obtain ⟨rfl, rfl⟩ := h
    exact ⟨rfl, walk_eq_some.2 ⟨t, ht, rfl⟩, fun _ => Iff.rfl, fun _ _ => rfl, Nat.le_succ _⟩
  | none =>
    cases hk : v.kmem with
    | nil => simp [ht, hk, kalloc] at h
    | cons pg kmem =>
      simp only [ht, hk, kalloc, some.injEq, Prod.mk.injEq] at h
      obtain ⟨rfl, rfl⟩ := h
      refine ⟨?_, ?_, fun b => ?_, fun i hi => update_of_ne hi _ _, by rw [hk, length_cons]⟩
      · have hsum := total_update slotPages v.pgdir.pde (PDX a)
          (some { pg := pg, pte := fun _ => .zero })
        have hz : Pgtab.mapped { pg := pg, pte := fun _ => .zero } = 0 := by
          exact total_eq_zero fun _ => rfl
        have hnew : slotPages (PDX a) (some { pg := pg, pte := fun _ => .zero }) = {pg} := by
          rw [slotPages, hz, ite_self, add_zero]
        rw [ht, hnew, slotPages, add_zero] at hsum
        simp only [Space.pages, Pgdir.pages, hk, hsum, ← Multiset.cons_coe,
          ← Multiset.singleton_add]
        abel
      · simp [Pgdir.walk]
      · unfold Pgdir.present Pgdir.walk
        by_cases hd : PDX b = PDX a
        · simp [hd, ht, Pte.zero]
        · simp only [update_of_ne hd]

/-- `walkpgdir` fails only if there is no free page. -/
theorem walkpgdir_none (h : walkpgdir v a = none) : v.kmem = [] := by
  unfold walkpgdir at h
  cases ht : v.pgdir.pde (PDX a) with
  | some t => simp [ht] at h
  | none =>
    cases hk : v.kmem with
    | nil => rfl
    | cons pg kmem => simp [ht, hk, kalloc] at h

/-! ## mappages -/

variable {pa n : ℕ} {w u : Bool}

theorem pgrounddown_of_aligned (ha : Aligned a) : PGROUNDDOWN a = a := by
  have := ha.mod
  simp only [PGROUNDDOWN, PGSIZE]
  omega

/-- A page that is mapped belongs to the address space. -/
theorem Space.pages_setPte (hw : v.pgdir.walk a = some e₀) (ha : a < KERNBASE) (hp : e₀.p = false) :
    Space.pages { v with pgdir := v.pgdir.setPte a ⟨pa, true, w, u⟩ } = pa ::ₘ v.pages := by
  have h := Vm.pages_setPte hw ha ⟨pa, true, w, u⟩
  simp only [Pte.page, hp, Bool.false_eq_true, if_false, add_zero, if_true] at h
  simp only [Space.pages, h, ← Multiset.singleton_add]
  abel

/-- `mappages` of one page. -/
theorem mappages_one (ha : Aligned a) : mappages v a PGSIZE pa w u =
    match walkpgdir v a with
    | none => .ok (false, v)
    | some (pte, v) =>
      if pte.p then .error .remap
      else .ok (true, { v with pgdir := v.pgdir.setPte a ⟨pa, true, w, u⟩ }) := by
  have hlast : (PGROUNDDOWN (a + PGSIZE - 1) - PGROUNDDOWN a) / PGSIZE = 0 := by
    have := ha.mod
    simp only [PGROUNDDOWN, PGSIZE]
    omega
  rw [mappages, hlast, pgrounddown_of_aligned ha]
  exact mapLoop.eq_1 ..

/-- What happens to an address space when kernel addresses from `a` to `z` are mapped. -/
structure Mapped (v v' : Space) (a z : ℕ) : Prop where
  pages : v'.pages = v.pages
  present : ∀ b, Aligned b → v'.pgdir.present b → v.pgdir.present b ∨ (a ≤ b ∧ b ≤ z)
  pde : ∀ i : Fin NPDENTRIES, (i : ℕ) < 512 → v'.pgdir.pde i = v.pgdir.pde i

/-- One round of `mappages`. -/
theorem Mapped.of_walked (h : Walked v v' a e₀) (ha : Aligned a) (hk : KERNBASE ≤ a) (e : Pte) :
    Mapped v { v' with pgdir := v'.pgdir.setPte a e } a a where
  pages := by
    rw [← h.pages]
    simp only [Space.pages, pages_setPte_kernel hk ha.lt]
  present b hb hp := by
    rcases (present_setPte h.walk ha hb).1 hp with ⟨rfl, -⟩ | ⟨-, hp⟩
    · exact .inr ⟨le_rfl, le_rfl⟩
    · exact .inl ((h.present b).1 hp)
  pde i hi := by
    have hne : i ≠ PDX a := by
      rintro rfl
      exact absurd (le_PDX hk ha.lt) (not_le.2 hi)
    exact (update_of_ne hne _ _).trans (h.pde i hne)

theorem Mapped.trans {v'' : Space} {m m' z : ℕ} (h : Mapped v v' a m) (h' : Mapped v' v'' m' z)
    (hm : m ≤ z) (hm' : a ≤ m') : Mapped v v'' a z where
  pages := h'.pages.trans h.pages
  present b hb hp := by
    rcases h'.present b hb hp with hp | hp
    · rcases h.present b hb hp with hp | hp
      · exact .inl hp
      · exact .inr ⟨hp.1, hp.2.trans hm⟩
    · exact .inr ⟨hm'.trans hp.1, hp.2⟩
  pde i hi := (h'.pde i hi).trans (h.pde i hi)

theorem Mapped.refl (v : Space) (a z : ℕ) : Mapped v v a z :=
  ⟨rfl, fun _ _ h => .inl h, fun _ _ => rfl⟩

/-- The loop of `mappages` for addresses of the kernel. -/
theorem mapLoop_kernel (w u : Bool) (n a pa : ℕ) (v : Space) (ha : Aligned a) (hk : KERNBASE ≤ a)
    (hn : a + n * 4096 < 2 ^ 32)
    (hfree : ∀ b, Aligned b → a ≤ b → b ≤ a + n * 4096 → ¬v.pgdir.present b) :
    Outcome (mapLoop w u n a pa v) (fun _ => False) fun r =>
      Mapped v r.2 a (a + n * 4096) ∧ (r.1 = false → r.2.kmem = []) := by
  unfold mapLoop
  cases hw : walkpgdir v a with
  | none => exact outcome_ok ⟨.refl v _ _, fun _ => walkpgdir_none hw⟩
  | some r =>
    obtain ⟨e, v₁⟩ := r
    have h := walkpgdir_some hw
    dsimp only
    rw [if_neg fun hp => hfree a ha le_rfl (by omega) (h.p_iff.1 hp)]
    have hm := Mapped.of_walked h ha hk ⟨pa, true, w, u⟩
    cases n with
    | zero => exact outcome_ok ⟨by rwa [zero_mul], fun hf => by cases hf⟩
    | succ n =>
      have ha' : Aligned (a + 4096) := ⟨by have := ha.mod; omega, by omega⟩
      refine (mapLoop_kernel w u n (a + 4096) (pa + PGSIZE) _ ha' (by omega) (by omega)
        fun b hb hab hbz hp => ?_).imp ?_
      · rcases hm.present b hb hp with hp | hp
        · exact hfree b hb (by omega) (by omega) hp
        · omega
      · rintro r ⟨hr, hf⟩
        exact ⟨hm.trans (by convert hr using 1; omega) (by omega) (by omega), hf⟩

/-! ## deallocuvm and freevm -/

variable {k : Kernel} {oldsz newsz : ℕ}

/-- A page that `kfree` takes. -/
structure Kernel.Valid (k : Kernel) (pg : ℕ) : Prop where
  mod : pg % 4096 = 0
  le : k.end ≤ pg + KERNBASE
  lt : pg < PHYSTOP

theorem Kernel.Valid.ne_zero {pg : ℕ} (h : k.Valid pg) : pg ≠ 0 := by
  rintro rfl
  have h₁ := h.le
  have h₂ := k.lt_data
  have h₃ := k.data_le
  simp only [KERNLINK, KERNBASE, EXTMEM] at h₁ h₂
  omega

/-- `kfree` does not panic for a page of the allocator. -/
theorem kfree_of_valid {pg : ℕ} (h : k.Valid pg) (kmem : List ℕ) :
    kfree k kmem pg = .ok (pg :: kmem) := by
  refine if_neg ?_
  have h₁ := h.mod
  have h₂ := h.le
  have h₃ := h.lt
  simp only [PGSIZE]
  omega

/-- `kfree` takes every page of the space. -/
def Space.Good (k : Kernel) (v : Space) : Prop := ∀ pg ∈ v.pages, k.Valid pg

theorem Space.Good.congr (h : v.Good k) (hp : v'.pages = v.pages) : v'.Good k :=
  fun pg hpg => h pg (by rwa [hp] at hpg)

/-- The page of a user address is freed. -/
theorem Space.pages_kfree (hw : v.pgdir.walk a = some e) (ha : a < KERNBASE) (hp : e.p = true) :
    Space.pages ⟨e.pa :: v.kmem, v.pgdir.setPte a .zero⟩ = v.pages := by
  have h := Vm.pages_setPte hw ha .zero
  simp only [Pte.page, hp, if_true, Pte.zero, Bool.false_eq_true, if_false, add_zero] at h
  simp only [Space.pages, ← h, ← Multiset.cons_coe, ← Multiset.singleton_add]
  abel

/-- The user pages come from the allocator. -/
theorem Space.Good.walk (h : v.Good k) (hw : v.pgdir.walk a = some e) (ha : a < KERNBASE)
    (hp : e.p = true) : k.Valid e.pa := by
  refine h _ ?_
  rw [← Space.pages_kfree hw ha hp]
  exact Multiset.mem_add.2 (.inl (mem_cons_self ..))

/-- The start of the next page table, where `deallocuvm` goes on if there is none for `a`. -/
theorem next_pgtab (ha : a < KERNBASE) :
    PGADDR (PDX a + 1) 0 0 - PGSIZE + PGSIZE = (a / 4194304 + 1) * 4194304 := by
  simp only [PGADDR, PDX, PGSIZE, NPDENTRIES, KERNBASE] at *
  omega

/-- Before that there is no page table. -/
theorem walk_eq_none_of_lt (hw : d.walk a = none) (hab : a ≤ b)
    (hb : b < (a / 4194304 + 1) * 4194304) : d.walk b = none := by
  have hpd : PDX b = PDX a := by
    refine Fin.ext ?_
    simp only [PDX, NPDENTRIES]
    omega
  rw [Pgdir.walk, map_eq_none_iff] at hw ⊢
  rw [hpd]
  exact hw

/-- The page of a page table. -/
def tabPage : Option Pgtab → Multiset ℕ
  | none => 0
  | some t => {t.pg}

/-- Without user memory there are the page tables only. -/
theorem slotPages_of_absent (h : ∀ b, Aligned b → b < KERNBASE → ¬d.present b)
    (i : Fin NPDENTRIES) : slotPages i (d.pde i) = tabPage (d.pde i) := by
  cases ht : d.pde i with
  | none => rfl
  | some t =>
    by_cases hi : (i : ℕ) < 512
    · rw [slotPages_user hi, tabPage]
      refine add_eq_left.2 (total_eq_zero fun j => ?_)
      have hj : (j : ℕ) < 1024 := j.isLt
      have hpd : PDX (i * 4194304 + j * 4096) = i := by
        refine Fin.ext ?_
        simp only [PDX, NPDENTRIES]
        omega
      have hpt : PTX (i * 4194304 + j * 4096) = j := by
        refine Fin.ext ?_
        simp only [PTX, NPTENTRIES]
        omega
      refine if_neg fun hp => h (i * 4194304 + j * 4096) ⟨by omega, by omega⟩ ?_ ⟨t.pte j, ?_, hp⟩
      · simp only [KERNBASE]
        omega
      · exact walk_eq_some.2 ⟨t, hpd.symm ▸ ht, hpt.symm ▸ rfl⟩
    · rw [slotPages_kernel (not_lt.1 hi), tabPage]

/-! ## setupkvm -/

/-- The size of a mapping. -/
def Kmap.size (m : Kmap) : ℕ := (m.physEnd + 2 ^ 32 - m.physStart) % 2 ^ 32

/-- The mappings are in order, from `z` on. -/
def Ascending : ℕ → List Kmap → Prop
  | _, [] => True
  | z, m :: ms => Aligned m.virt ∧ KERNBASE ≤ m.virt ∧ z ≤ m.virt ∧ 0 < m.size ∧
      m.virt + m.size ≤ 2 ^ 32 ∧ Ascending (m.virt + m.size) ms

/-- The regions of `kmap` do not overlap. -/
theorem ascending_kmap (k : Kernel) : Ascending KERNBASE (kmap k) := by
  have h₁ := k.lt_data
  have h₂ := k.aligned
  have h₃ := k.data_le
  have h₄ := k.end_le
  simp only [KERNLINK, KERNBASE, EXTMEM, PGSIZE] at h₁ h₂ h₄
  simp only [kmap, Ascending, Kmap.size, KERNBASE, KERNLINK, EXTMEM, PHYSTOP, DEVSPACE]
  refine ⟨⟨by omega, by omega⟩, by omega, by omega, by omega, by omega, ⟨by omega, by omega⟩,
    by omega, by omega, by omega, by omega, ⟨by omega, by omega⟩, by omega, by omega, by omega,
    by omega, ⟨by omega, by omega⟩, by omega, by omega, by omega, by omega, trivial⟩

/-- `mappages` of a region of the kernel. -/
theorem mappages_kernel {m : ℕ} {size : ℕ} (ha : Aligned a) (hk : KERNBASE ≤ a) (hs : 0 < size)
    (hz : a + size ≤ 2 ^ 32) (hm : m ≤ a) (hfree : ∀ b, Aligned b → v.pgdir.present b → b < m) :
    Outcome (mappages v a size pa w u) (fun _ => False) fun r =>
      (∀ b, Aligned b → r.2.pgdir.present b → b < a + size) ∧ r.2.pages = v.pages ∧
      (∀ i : Fin NPDENTRIES, (i : ℕ) < 512 → r.2.pgdir.pde i = v.pgdir.pde i) ∧
      (r.1 = false → r.2.kmem = []) := by
  rw [mappages, pgrounddown_of_aligned ha]
  have hmod := ha.mod
  have hn : a + (PGROUNDDOWN (a + size - 1) - a) / PGSIZE * 4096 ≤ a + size - 1 := by
    simp only [PGROUNDDOWN, PGSIZE]
    omega
  refine (mapLoop_kernel w u _ a pa v ha hk (by omega) fun b hb hab _ hp => ?_).imp ?_
  · have := hfree b hb hp
    omega
  · rintro r ⟨hr, hf⟩
    refine ⟨fun b hb hp => ?_, hr.pages, hr.pde, hf⟩
    rcases hr.present b hb hp with hp | hp
    · have := hfree b hb hp
      omega
    · omega

/-- The loop of `setupkvm` does not panic. -/
theorem setupLoop_ok : ∀ (ms : List Kmap) (z : ℕ) (v : Space), Ascending z ms →
    (∀ b, Aligned b → v.pgdir.present b → b < z) →
    Outcome (setupLoop ms v) (fun _ => False) fun r => r.2.pages = v.pages ∧
      (∀ i : Fin NPDENTRIES, (i : ℕ) < 512 → r.2.pgdir.pde i = v.pgdir.pde i) ∧
      (r.1 = false → r.2.kmem = []) := by
  intro ms
  induction ms with
  | nil =>
    intro z v _ _
    exact outcome_ok ⟨rfl, fun _ _ => rfl, fun h => by cases h⟩
  | cons m ms ih =>
    intro z v hm hfree
    obtain ⟨ha, hk, hz, hs, hlt, hms⟩ := hm
    refine (mappages_kernel ha hk hs hlt hz hfree).bind ?_
    rintro ⟨ok, v₁⟩ ⟨hb, hp, hd, hf⟩
    cases ok with
    | false => exact outcome_ok ⟨hp, hd, hf⟩
    | true =>
      refine (ih _ v₁ hms hb).imp fun r hr => ?_
      exact ⟨hr.1.trans hp, fun i hi => (hr.2.1 i hi).trans (hd i hi), hr.2.2⟩

/-- There is no page table for user memory. -/
def Pgdir.NoUser (d : Pgdir) : Prop := ∀ i : Fin NPDENTRIES, (i : ℕ) < 512 → d.pde i = none

theorem Pgdir.NoUser.absent (h : d.NoUser) (hb : b < KERNBASE) : ¬d.present b := by
  rintro ⟨e, he, -⟩
  obtain ⟨t, ht, -⟩ := walk_eq_some.1 he
  rw [h _ (PDX_lt hb)] at ht
  cases ht

/-- At most the directory itself and 512 page tables. -/
theorem Pgdir.NoUser.card_pages (h : d.NoUser) : d.pages.card ≤ 513 := by
  have hc : (total slotPages d.pde).card ≤
      (univ.filter fun i : Fin NPDENTRIES => 512 ≤ (i : ℕ)).card := by
    refine card_total_le fun i => ?_
    by_cases hi : (i : ℕ) < 512
    · rw [h i hi, slotPages, Multiset.card_zero]
      exact Nat.zero_le _
    · rw [if_pos (not_lt.1 hi)]
      cases d.pde i with
      | none => exact Nat.zero_le _
      | some t => rw [slotPages_kernel (not_lt.1 hi), Multiset.card_singleton]
  have hI : (univ.filter fun i : Fin NPDENTRIES => 512 ≤ (i : ℕ)) =
      Ici (⟨512, by decide⟩ : Fin NPDENTRIES) := by
    ext i
    simp [Fin.le_def]
  have hn : NPDENTRIES - ((⟨512, by decide⟩ : Fin NPDENTRIES) : ℕ) = 512 := rfl
  rw [hI, Fin.card_Ici, hn] at hc
  rw [Pgdir.pages, Multiset.card_add, Multiset.card_singleton]
  omega

/-- The loop of `setupkvm`, from an empty page directory in the page `pg`. -/
theorem setupLoop_kmap (k : Kernel) (pg : ℕ) (kmem : List ℕ) :
    Outcome (setupLoop (kmap k) ⟨kmem, ⟨pg, fun _ => none⟩⟩) (fun _ => False) fun r =>
      r.2.pages = ((pg :: kmem : List ℕ) : Multiset ℕ) ∧ r.2.pgdir.NoUser ∧
      (r.1 = false → r.2.kmem = []) := by
  have hpages : Space.pages ⟨kmem, ⟨pg, fun _ => none⟩⟩ =
      ((pg :: kmem : List ℕ) : Multiset ℕ) := by
    have h0 : total slotPages (fun _ => none) = 0 := total_eq_zero fun _ => rfl
    rw [Space.pages, Pgdir.pages, h0, ← Multiset.cons_coe, ← Multiset.singleton_add]
    abel
  refine (setupLoop_ok (kmap k) KERNBASE _ (ascending_kmap k) ?_).imp ?_
  · rintro b - ⟨e, he, -⟩
    simp [Pgdir.walk] at he
  · rintro ⟨ok, v⟩ ⟨hp, hd, hf⟩
    exact ⟨hp.trans hpages, fun i hi => hd i hi, hf⟩

/-! ## User memory -/

theorem Space.pages_cons (v : Space) (mem : ℕ) (kmem : List ℕ) :
    Space.pages { v with kmem := mem :: kmem } = mem ::ₘ Space.pages { v with kmem := kmem } := by
  simp only [Space.pages, ← Multiset.cons_coe, ← Multiset.singleton_add]
  abel

/-- `kalloc` takes a page of the allocator. -/
theorem Space.Good.cons {mem : ℕ} (h : v.Good k) (hk : v.kmem = mem :: kmem) :
    k.Valid mem ∧ Space.Good k { v with kmem := kmem } ∧
      v.pages = mem ::ₘ Space.pages { v with kmem := kmem } := by
  have hp : v.pages = mem ::ₘ Space.pages { v with kmem := kmem } := by
    rw [← Space.pages_cons, ← hk]
  refine ⟨h mem ?_, fun pg hpg => h pg ?_, hp⟩
  · rw [hp]
    exact Multiset.mem_cons_self _ _
  · rw [hp]
    exact Multiset.mem_cons_of_mem hpg

/-- No user address from `sz` on has a page. -/
def Pgdir.Below (d : Pgdir) (sz : ℕ) : Prop :=
  ∀ b, Aligned b → b < KERNBASE → d.present b → b < sz

/-- With so many free pages memory can grow from `oldsz` to `newsz` : for every page there may be
a page table. -/
def growNeed (oldsz newsz : ℕ) : ℕ := 2 * ((newsz - oldsz) / 4096 + 1)

/-- What `allocuvm` does : the addresses from `oldsz` to `newsz` get pages, or nothing happens.
That only is so if memory runs out. -/
structure Grown (v v' : Space) (oldsz newsz r : ℕ) : Prop where
  pages : v'.pages = v.pages
  present : (r = max oldsz newsz ∧ newsz < KERNBASE ∧ ∀ b, Aligned b →
      (v'.pgdir.present b ↔ v.pgdir.present b ∨ (oldsz ≤ b ∧ b < newsz))) ∨
    (r = 0 ∧ ∀ b, Aligned b → (v'.pgdir.present b ↔ v.pgdir.present b))
  room : newsz < KERNBASE → growNeed oldsz newsz ≤ v.kmem.length →
    r = max oldsz newsz ∧ v.kmem.length ≤ v'.kmem.length + growNeed oldsz newsz

/-- The user addresses below `sz` have pages, and no others. -/
def Pgdir.Contig (d : Pgdir) (sz : ℕ) : Prop :=
  ∀ b, Aligned b → b < KERNBASE → (d.present b ↔ b < sz)

/-- `copyuvm` finds an address without a page. -/
def Pgdir.Hole (d : Pgdir) (sz : ℕ) (f : Fault) : Prop :=
  (f = .copyuvmExist ∨ f = .copyuvmPresent) ∧ ∃ b, Aligned b ∧ b < sz ∧ ¬d.present b

/-- Contiguous memory has no holes. -/
theorem Pgdir.Contig.not_hole {sz : ℕ} {f : Fault} (h : d.Contig sz) (hsz : sz ≤ KERNBASE) :
    ¬d.Hole sz f := by
  rintro ⟨-, b, hb, hlt, hn⟩
  exact hn ((h b hb (by omega)).2 hlt)

theorem Pgdir.Contig.below (h : d.Contig sz) : d.Below sz := fun b hb hbk hp => (h b hb hbk).1 hp

/-- A contiguous space grows. -/
theorem Grown.contig {newsz r : ℕ} (h : Grown v v' sz newsz r) (hr : r ≠ 0)
    (hc : v.pgdir.Contig sz) (hsz : sz < KERNBASE) :
    r = max sz newsz ∧ r < KERNBASE ∧ v'.pgdir.Contig r := by
  rcases h.present with ⟨rfl, hnew, hb⟩ | ⟨h0, -⟩
  · refine ⟨rfl, max_lt hsz hnew, fun b hba hbk => ?_⟩
    rw [hb b hba, hc b hba hbk]
    omega
  · exact absurd h0 hr

end Xv6.Vm
