import Xv6.UserSpace
import Xv6.MemoryRules

/-!
# The places of pages

`Sys.places` are all places that a page can be in. They are the pages that the allocator starts
with (`Sys.Inv`), each once, in the state that `main` leaves (`Sys.main_ok`).
-/

namespace Xv6.Vm

open Function Finset Ptable List

variable {k : Kernel} {kmem : List ℕ} {m : Phys} {pg : ℕ}

/-- The pages that the allocator starts with. -/
def Kernel.mem (k : Kernel) : List ℕ :=
  pagesFrom k.end (KERNBASE + 4 * 1024 * 1024) ++
    pagesFrom (KERNBASE + 4 * 1024 * 1024) (KERNBASE + PHYSTOP)

/-- The pages that `freerange` frees are aligned and in range. -/
theorem mem_pagesFrom {vstart vend : ℕ} (h₁ : KERNBASE ≤ vstart) (h₂ : vstart ≤ vend)
    (h₃ : vend ≤ KERNBASE + PHYSTOP) (h : pg ∈ pagesFrom vstart vend) :
    pg % 4096 = 0 ∧ vstart ≤ pg + KERNBASE ∧ pg + KERNBASE + 4096 ≤ vend := by
  obtain ⟨i, hi, rfl⟩ := List.mem_map.1 h
  rw [List.mem_range] at hi
  simp only [PGROUNDUP, PGSIZE, KERNBASE, PHYSTOP] at *
  omega

theorem nodup_pagesFrom (vstart vend : ℕ) : (pagesFrom vstart vend).Nodup := by
  refine List.Nodup.map (fun i j h => ?_) nodup_range
  simp only [PGSIZE] at h
  omega

theorem Kernel.KERNBASE_le_end (k : Kernel) : KERNBASE ≤ k.end := by
  have h₁ := k.lt_data
  have h₂ := k.data_le
  simp only [KERNLINK, EXTMEM] at h₁
  omega

/-- `kfree` accepts the pages of `freerange`. -/
theorem Kernel.valid_of_mem (h : pg ∈ k.mem) : k.Valid pg := by
  have h₁ := k.KERNBASE_le_end
  have h₂ := k.end_le
  rcases mem_append.1 h with h | h
  · obtain ⟨hm, hl, hu⟩ := mem_pagesFrom h₁ h₂ (by decide) h
    exact ⟨hm, hl, by simp only [PHYSTOP]; omega⟩
  · obtain ⟨hm, hl, hu⟩ := mem_pagesFrom (by omega) (by decide) le_rfl h
    exact ⟨hm, by omega, by omega⟩

theorem Kernel.nodup_mem (k : Kernel) : k.mem.Nodup := by
  refine nodup_append.2 ⟨nodup_pagesFrom _ _, nodup_pagesFrom _ _, fun pg h pg' h' => ?_⟩
  have h₁ := mem_pagesFrom k.KERNBASE_le_end k.end_le (by decide) h
  have h₂ := mem_pagesFrom (by omega) (by decide) le_rfl h'
  omega

/-- The pages of a process. -/
def procPages : Option Proc → Multiset ℕ
  | none => 0
  | some c => {c.kstack} + c.pgdir.pages

namespace Sys

variable {s t : Sys} {p : ProcId} {c : Proc}

/-- The pages in use : kernel stacks and address spaces of processes, pipes, and what was
allocated before there was a process. -/
def used (s : Sys) : Multiset ℕ :=
  total (fun _ => procPages) s.proc + ((s.pipe.map Pipe.pg : List ℕ) : Multiset ℕ) +
    (s.kpgdir.pages + s.apstacks)

/-- All places that a page can be in. -/
def places (s : Sys) : Multiset ℕ := s.kmem + s.used

theorem places_eq (s : Sys) : s.places = s.kmem + (total (fun _ => procPages) s.proc +
    ((s.pipe.map Pipe.pg : List ℕ) : Multiset ℕ) + (s.kpgdir.pages + s.apstacks)) := rfl

/-- The invariant. -/
structure Inv (k : Kernel) (s : Sys) : Prop where
  places : s.places = k.mem
  below : ∀ p c, s.proc p = some c → c.sz < KERNBASE ∧ c.pgdir.Below c.sz

/-- The memory of every process is contiguous. -/
def Contig (s : Sys) : Prop := ∀ p c, s.proc p = some c → c.pgdir.Contig c.sz

theorem Inv.valid (h : Inv k s) (hpg : pg ∈ s.kmem ∨ pg ∈ s.used) : k.Valid pg := by
  refine Kernel.valid_of_mem ?_
  have hm : pg ∈ s.places := Multiset.mem_add.2 hpg
  rwa [h.places] at hm

theorem mem_used (hp : s.proc p = some c) (hpg : pg ∈ procPages (some c)) :
    pg ∈ s.used := by
  refine Multiset.mem_add.2 (.inl (Multiset.mem_add.2 (.inl (mem_total.2 ⟨p, ?_⟩))))
  rw [hp]
  exact hpg

/-- The address space of a process. -/
theorem Inv.good (h : Inv k s) (hp : s.proc p = some c) : Space.Good k ⟨s.kmem, c.pgdir⟩ := by
  intro pg hpg
  rcases Multiset.mem_add.1 hpg with hpg | hpg
  · exact h.valid (.inl hpg)
  · exact h.valid (.inr (mem_used hp (Multiset.mem_add.2 (.inr hpg))))

/-- A process changes, with the pages it takes from the free list or gives back. -/
theorem Inv.setProc (h : Inv k s) {o : Option Proc}
    (hpages : (m.kmem : Multiset ℕ) + procPages o = s.kmem + procPages (s.proc p))
    (ho : ∀ c, o = some c → c.sz < KERNBASE ∧ c.pgdir.Below c.sz) :
    Inv k { s with toPhys := m, proc := update s.proc p o } where
  places := by
    have hsum := total_update (fun _ => procPages) s.proc p o
    rw [← h.places, places_eq, places_eq]
    dsimp only at hsum ⊢
    refine Multiset.ext.2 fun pg => ?_
    have h₁ := congrArg (Multiset.count pg) hsum
    have h₂ := congrArg (Multiset.count pg) hpages
    simp only [Multiset.count_add] at h₁ h₂ ⊢
    omega
  below q c' hq := by
    dsimp only at hq
    by_cases hqp : q = p
    · rw [hqp, update_self] at hq
      exact ho c' hq
    · rw [update_of_ne hqp] at hq
      exact h.below q c' hq

/-- A slot is emptied, or gets a process with contiguous memory. -/
theorem Contig.setProc (h : s.Contig) {o : Option Proc}
    (ho : ∀ c, o = some c → c.pgdir.Contig c.sz) :
    Contig { s with toPhys := m, proc := update s.proc p o } := by
  intro q c' hq
  dsimp only at hq
  by_cases hqp : q = p
  · rw [hqp, update_self] at hq
    exact ho c' hq
  · rw [update_of_ne hqp] at hq
    exact h q c' hq

/-- Only the free list changes, in its order. -/
theorem Inv.setKmem (h : Inv k s) (hk : (m.kmem : Multiset ℕ) = s.kmem) :
    Inv k { s with toPhys := m } := by
  refine ⟨?_, h.below⟩
  rw [← h.places, places_eq, places_eq, ← hk]

/-- The pages of the free list and of a process are distinct, whatever is in them. -/
theorem Inv.wf (h : Inv k s) (hp : s.proc p = some c) (mem : ℕ → UInt8) :
    Store.Wf k ⟨⟨s.kmem, mem⟩, c.pgdir⟩ := by
  refine ⟨h.good hp, ?_⟩
  have hnodup : s.places.Nodup := by
    rw [h.places]
    exact k.nodup_mem
  have hproc : c.pgdir.pages ≤ total (fun _ => procPages) s.proc := by
    refine le_trans ?_ (weight_le_total (fun _ => procPages) s.proc p)
    rw [hp, procPages]
    exact Multiset.le_add_left _ _
  have hused : c.pgdir.pages ≤ s.used :=
    hproc.trans ((Multiset.le_add_right _ _).trans (Multiset.le_add_right _ _))
  exact Multiset.nodup_of_le (Multiset.add_le_add_left hused) hnodup


/-! ## The start -/

/-- `freerange` does not panic. -/
theorem freerange_ok {vstart vend : ℕ} (hv : ∀ pg ∈ pagesFrom vstart vend, k.Valid pg) :
    Outcome (m.freerange k vstart vend) (fun _ => False) fun m' =>
      (m'.kmem : Multiset ℕ) = pagesFrom vstart vend + m.kmem := by
  unfold Phys.freerange
  generalize pagesFrom vstart vend = pages at hv ⊢
  refine (Outcome.foldlM (fun rest (m' : Phys) => (∀ pg ∈ rest, k.Valid pg) ∧
    (m'.kmem : Multiset ℕ) + rest = pages + m.kmem) ?_ pages m ⟨hv, add_comm _ _⟩).imp ?_
  · rintro pg rest m' ⟨hrest, hsum⟩
    rw [Phys.kfree_of_valid (hrest pg mem_cons_self)]
    refine outcome_ok ⟨fun pg' h' => hrest pg' (mem_cons_of_mem _ h'), ?_⟩
    rw [← hsum, ← Multiset.cons_coe, ← Multiset.cons_coe, ← Multiset.singleton_add,
      ← Multiset.singleton_add]
    abel
  · rintro m' ⟨-, hsum⟩
    simpa using hsum

/-- `startothers` fails only for want of pages. -/
theorem startothers_ok : ∀ (n : ℕ) (kmem : List ℕ),
    Outcome (startothers n kmem) (fun _ => kmem.length < n) fun r =>
      (r.1 : Multiset ℕ) + r.2 = kmem
  | 0, kmem => outcome_ok (by simp)
  | n + 1, [] => outcome_error (by simp)
  | n + 1, stack :: kmem => by
    rw [startothers, kalloc]
    refine ((startothers_ok n kmem).mono (fun _ h => by simpa using h) fun _ h => h).bind ?_
    rintro ⟨apstacks, kmem'⟩ h
    refine outcome_ok ?_
    dsimp only at h ⊢
    rw [← Multiset.cons_coe, ← Multiset.cons_coe, Multiset.cons_add, h]

/-- The first page of user memory. -/
theorem inituvm_ok {d : Pgdir} {initcode : List UInt8} (hno : d.NoUser) (hlen : 2 ≤ m.kmem.length) :
    Outcome (Store.inituvm ⟨m, d⟩ initcode) (fun _ => 4096 ≤ initcode.length) fun t =>
      t.space.pages = (m.kmem : Multiset ℕ) + d.pages ∧ t.pgdir.Contig PGSIZE ∧
        m.kmem.length ≤ t.kmem.length + 2 := by
  unfold Store.inituvm
  split_ifs with hsz
  · exact outcome_error hsz
  obtain ⟨kmem, mem⟩ := m
  cases kmem with
  | nil => cases hlen
  | cons mem₀ kmem =>
    dsimp only [kalloc]
    refine (((mappages_entry ⟨rfl, by decide⟩ (by decide)).mono ?_ fun _ h => h).of_map
      (Store.mappages_space _ _ _ _ _ _)).bind ?_
    · exact fun f hf => absurd hf (hno.absent (by decide))
    rintro ⟨ok, t⟩ (⟨-, hp, -, hlen₂, hb⟩ | ⟨-, -, hnil⟩)
    · dsimp only [Prod.map] at hp hb hlen₂
      refine outcome_ok ⟨hp.trans (Space.pages_cons ⟨kmem, d⟩ mem₀ kmem).symm, fun b hba hbk => ?_,
        Nat.succ_le_succ hlen₂⟩
      have := hba.mod
      have hbt : t.pgdir.entry b = if b = 0 then some ⟨mem₀, true, true, true⟩ else none :=
        (hb b hba).trans (if_congr Iff.rfl rfl (entry_eq_none_iff.2 (hno.absent hbk)))
      rw [present_iff_entry, hbt]
      split_ifs with hb0
      · simp [hb0, PGSIZE]
      · simp only [PGSIZE]
        exact iff_of_false (by simp) (by omega)
    · rw [length_cons, show kmem = [] from hnil] at hlen
      exact absurd hlen (by decide)

/-- `userinit` panics only if `initcode` is too long. -/
theorem userinit_ok {initcode : List UInt8} (h : Inv k s) (hnone : ∀ p, s.proc p = none)
    (hlen : 516 ≤ s.kmem.length) :
    Outcome (s.userinit k initcode) (fun _ => 4096 ≤ initcode.length) fun t =>
      (Inv k t ∧ t.Contig) ∧ s.kmem.length ≤ t.kmem.length + 516 ∧
      (∀ q, q ≠ initproc → t.proc q = none) ∧
      ∃ c, t.proc initproc = some c ∧ c.zombie = false ∧ c.sz = PGSIZE := by
  unfold userinit
  cases hk : s.kmem with
  | nil => simp [hk] at hlen
  | cons kstack kmem =>
    rw [hk, length_cons] at hlen
    dsimp only [kalloc]
    have hvalid : ∀ pg ∈ kmem, k.Valid pg := fun pg hpg =>
      h.valid (.inl (hk ▸ mem_cons_of_mem _ hpg))
    refine (Store.setupkvm_spec (x := ⟨kmem, s.mem⟩) hvalid).weaken.bind ?_
    rintro ⟨o, m⟩ ⟨-, ⟨-, -, hshort⟩ | ⟨d, ho, hk₁, hno⟩⟩
    · dsimp only at hshort
      omega
    dsimp only at ho hk₁
    subst ho
    have hcard := congrArg Multiset.card hk₁
    rw [Multiset.card_add, Multiset.coe_card, Multiset.coe_card] at hcard
    have hd := hno.card_pages
    dsimp only
    refine (inituvm_ok hno (by omega)).bind fun t ht => ?_
    obtain ⟨hpages, hcontig, hlen₂⟩ := ht
    refine outcome_ok ⟨⟨h.setProc ?_ fun c hc => ?_, Contig.setProc (s := s) ?_ fun c hc => ?_⟩,
      ?_, fun q hq => (update_of_ne hq _ s.proc).trans (hnone q),
      ⟨kstack, t.pgdir, PGSIZE, initproc, false⟩, update_self initproc _ s.proc, rfl, rfl⟩
    · rw [hnone, hk, procPages, procPages, ← Multiset.cons_coe, ← hk₁, ← hpages, Store.space,
        Space.pages, ← Multiset.singleton_add]
      abel
    · obtain rfl := Option.some.inj hc
      exact ⟨show PGSIZE < KERNBASE by decide, hcontig.below⟩
    · exact fun p c hp => by simp [hnone] at hp
    · obtain rfl := Option.some.inj hc
      exact hcontig
    · rw [length_cons]
      dsimp only
      omega

theorem main_ok (ncpu : ℕ) (initcode : List UInt8) (mem : ℕ → UInt8) :
    Outcome (main k ncpu initcode mem)
      (fun _ => 4096 ≤ initcode.length ∨
        (pagesFrom k.end (KERNBASE + 4 * 1024 * 1024)).length < 514 + ncpu)
      fun s => (Inv k s ∧ s.Contig) ∧ 56320 ≤ s.kmem.length + 516 ∧
        (∀ q, q ≠ initproc → s.proc q = none) ∧
        ∃ c, s.proc initproc = some c ∧ c.zombie = false ∧ c.sz = PGSIZE := by
  unfold main
  have hvalid : ∀ pg ∈ k.mem, k.Valid pg := fun pg => Kernel.valid_of_mem
  refine (freerange_ok fun pg hpg => hvalid pg (mem_append_left _ hpg)).weaken.bind ?_
  intro m₁ hk₁
  have hlen₁ : m₁.kmem.length = (pagesFrom k.end (KERNBASE + 4 * 1024 * 1024)).length := by
    simpa using congrArg Multiset.card hk₁
  have hv₁ : ∀ pg ∈ m₁.kmem, k.Valid pg := fun pg hpg => by
    have hm : pg ∈ (m₁.kmem : Multiset ℕ) := hpg
    rw [hk₁] at hm
    exact hvalid pg (mem_append_left _ (by simpa using hm))
  refine (Store.setupkvm_spec hv₁).weaken.bind ?_
  rintro ⟨o, m₂⟩ ⟨-, ⟨ho, -, hshort⟩ | ⟨kpgdir, ho, hk₂, hno⟩⟩
  · dsimp only at ho
    subst ho
    exact outcome_error (.inr (by omega))
  dsimp only at ho hk₂
  subst ho
  have hcard := congrArg Multiset.card hk₂
  rw [Multiset.card_add, Multiset.coe_card, Multiset.coe_card] at hcard
  have hd := hno.card_pages
  refine ((startothers_ok (ncpu - 1) m₂.kmem).mono (fun _ h => .inr (by omega))
    fun _ h => h).bind ?_
  rintro ⟨apstacks, kmem₃⟩ hk₃
  dsimp only at hk₃ ⊢
  refine (freerange_ok fun pg hpg => hvalid pg (mem_append_right _ hpg)).weaken.bind ?_
  intro m₄ hk₄
  have hlen : 56320 ≤ m₄.kmem.length := by
    have := congrArg Multiset.card hk₄
    rw [Multiset.card_add, Multiset.coe_card, Multiset.coe_card, pagesFrom, length_map,
      length_range] at this
    simp only [PGROUNDUP, PGSIZE, KERNBASE, PHYSTOP] at this
    omega
  refine (userinit_ok ⟨?_, fun p c hp => by cases hp⟩ (fun _ => rfl)
    (by dsimp only; omega)).mono (fun _ h => .inl h) fun _ h => ⟨h.1, hlen.trans h.2.1, h.2.2⟩
  rw [places_eq]
  dsimp only
  have h0 : total (fun _ : ProcId => procPages) (fun _ => none) = 0 := total_eq_zero fun _ => rfl
  rw [h0, hk₄, Kernel.mem, ← Multiset.coe_add, map_nil, Multiset.coe_nil]
  rw [Multiset.coe_nil, add_zero] at hk₁
  rw [← hk₁, ← hk₂, ← hk₃]
  abel

/-- A kernel of the usual size. -/
def usualKernel : Kernel where
  data := 0x80108000
  «end» := 0x801154A8
  lt_data := by decide
  aligned := by decide
  data_le := by decide
  end_le := by decide

/-- `initcode.S`. -/
def usualInitcode : List UInt8 :=
  [0x68, 0x24, 0, 0, 0, 0x68, 0x1C, 0, 0, 0, 0x6A, 0, 0xB8, 7, 0, 0, 0, 0xCD, 0x40,
    0xB8, 2, 0, 0, 0, 0xCD, 0x40, 0xEB, 0xF7, 0x2F, 0x69, 0x6E, 0x69, 0x74, 0, 0, 0,
    0x1C, 0, 0, 0, 0, 0, 0, 0]

/-- The start of a machine whose memory is 0. -/
def usualMain : Except Fault Sys := main usualKernel 1 usualInitcode fun _ => 0

/-- The start with the first process, which has one page, and with many free pages. -/
theorem exists_main : ∃ s₀ c, usualMain = .ok s₀ ∧ Inv usualKernel s₀ ∧ s₀.Contig ∧
    s₀.proc initproc = some c ∧ c.zombie = false ∧ c.sz = PGSIZE ∧ 50000 ≤ s₀.kmem.length ∧
    ∀ q, q ≠ initproc → s₀.proc q = none := by
  have hmain := (main_ok (k := usualKernel) 1 usualInitcode fun _ => 0).mono
    (fun _ (h : _ ∨ _) => show False by
      rcases h with h | h
      · exact absurd h (by decide)
      · rw [pagesFrom, length_map, length_range] at h
        exact absurd h (by decide)) fun _ h => h
  obtain ⟨s₀, h₀, ⟨hinv, hc⟩, hlen, hnone, c, hp, hz, hsz⟩ := hmain.exists_ok
  exact ⟨s₀, c, h₀, hinv, hc, hp, hz, hsz, by omega, hnone⟩

end Sys

end Xv6.Vm
