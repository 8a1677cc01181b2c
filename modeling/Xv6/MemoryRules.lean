import Xv6.UserMemory
import Xv6.PageRules

/-!
# What the functions of vm.c do with the contents of memory

One specification for each function says which pages are free or mapped afterwards and which
contents of memory have changed.
-/

namespace Xv6.Vm

open Function Ram List Option

variable {kmem : List ℕ} {va : ℕ}

variable {k : Kernel}

theorem Phys.kfree_of_valid {pg : ℕ} (h : k.Valid pg) (m : Phys) :
    m.kfree k pg = .ok ⟨pg :: m.kmem, memset m.mem pg 1 PGSIZE⟩ := by
  rw [Phys.kfree, Vm.kfree_of_valid h]
  rfl

/-- `mappages` does not depend on the contents. -/
theorem Store.mappages_space (s : Store) (va size pa : ℕ) (w u : Bool) :
    (s.mappages va size pa w u).map (Prod.map id Store.space) =
      Vm.mappages s.space va size pa w u := by
  unfold Store.mappages
  cases Vm.mappages s.space va size pa w u with
  | ok r => rfl
  | error f => rfl

/-! ## Entries -/

variable {d : Pgdir} {a b : ℕ} {e e₀ : Pte}

/-- The entry for an address, if it is present. -/
def Pgdir.entry (d : Pgdir) (b : ℕ) : Option Pte := (d.walk b).filter Pte.p

theorem entry_eq_some : d.entry b = some e ↔ d.walk b = some e ∧ e.p = true := by
  rw [Pgdir.entry, filter_eq_some_iff]

theorem present_iff_entry : d.present b ↔ ∃ e, d.entry b = some e := by
  simp only [Pgdir.present, entry_eq_some]

theorem entry_eq_none_iff : d.entry b = none ↔ ¬d.present b := by
  rw [present_iff_entry, eq_none_iff_forall_ne_some, not_exists]

/-- The entries after one is set. -/
theorem entry_setPte (hw : d.walk a = some e₀) (ha : Aligned a) (hb : Aligned b) :
    (d.setPte a e).entry b = if b = a then (some e).filter Pte.p else d.entry b := by
  split_ifs with h
  · rw [h, Pgdir.entry, walk_setPte_self hw]
  · have hne : ¬(PDX b = PDX a ∧ PTX b = PTX a) := fun hi => h (hb.eq_of_index ha hi.1 hi.2)
    rw [Pgdir.entry, walk_setPte_of_ne hne, Pgdir.entry]

/-- A user page is one of the pages of the address space. -/
theorem pages_eq_cons (he : d.entry b = some e) (hb : b < KERNBASE) :
    d.pages = e.pa ::ₘ (d.setPte b .zero).pages := by
  obtain ⟨hw, hp⟩ := entry_eq_some.1 he
  have h := pages_setPte hw hb .zero
  simp only [Pte.page, hp, if_true, Pte.zero, Bool.false_eq_true, if_false, add_zero] at h
  rw [← h, ← Multiset.singleton_add, add_comm]
  rfl

/-- A user page belongs to the page directory. -/
theorem entry_mem_pages (he : d.entry b = some e) (hb : b < KERNBASE) : e.pa ∈ d.pages := by
  rw [pages_eq_cons he hb]
  exact Multiset.mem_cons_self _ _

/-- Different user addresses have different pages. -/
theorem entry_inj {b' : ℕ} {e' : Pte} (hn : d.pages.Nodup) (hb : Aligned b) (hb' : Aligned b')
    (hk : b < KERNBASE) (hk' : b' < KERNBASE) (he : d.entry b = some e)
    (he' : d.entry b' = some e') (hpa : e.pa = e'.pa) : b = b' := by
  by_contra hne
  rw [pages_eq_cons he hk, Multiset.nodup_cons] at hn
  have hrest : (d.setPte b .zero).entry b' = some e' := by
    rw [entry_setPte (entry_eq_some.1 he).1 hb hb', if_neg (Ne.symm hne), he']
  exact hn.1 (hpa ▸ entry_mem_pages hrest hk')

variable {v v' : Space}

/-- `walkpgdir` changes no entry. -/
theorem walkpgdir_entry (h : walkpgdir v a = some (e, v')) :
    (∀ b, v'.pgdir.entry b = v.pgdir.entry b) ∧ v'.kmem <:+ v.kmem := by
  unfold walkpgdir at h
  cases ht : v.pgdir.pde (PDX a) with
  | some t =>
    simp only [ht, some.injEq, Prod.mk.injEq] at h
    obtain ⟨-, rfl⟩ := h
    exact ⟨fun _ => rfl, suffix_refl _⟩
  | none =>
    cases hk : v.kmem with
    | nil => simp [ht, hk, kalloc] at h
    | cons pg kmem =>
      simp only [ht, hk, kalloc, some.injEq, Prod.mk.injEq] at h
      obtain ⟨-, rfl⟩ := h
      refine ⟨fun b => ?_, suffix_cons _ _⟩
      unfold Pgdir.entry Pgdir.walk
      by_cases hd : PDX b = PDX a
      · simp [hd, ht, Pte.zero]
      · simp only [update_of_ne hd]

/-- One page of user memory is mapped, or there is no page for the page table. -/
theorem mappages_entry {pa : ℕ} {w u : Bool} (ha : Aligned a) (hk : a < KERNBASE) :
    Outcome (mappages v a PGSIZE pa w u) (fun _ => v.pgdir.present a) fun r =>
      (r.1 = true ∧ r.2.pages = pa ::ₘ v.pages ∧ r.2.kmem <:+ v.kmem ∧
        v.kmem.length ≤ r.2.kmem.length + 1 ∧ ∀ b, Aligned b →
          r.2.pgdir.entry b = if b = a then some ⟨pa, true, w, u⟩ else v.pgdir.entry b) ∨
      (r.1 = false ∧ r.2 = v ∧ v.kmem = []) := by
  rw [mappages_one ha]
  cases hw : walkpgdir v a with
  | none => exact outcome_ok (.inr ⟨rfl, rfl, walkpgdir_none hw⟩)
  | some r =>
    obtain ⟨e, v₁⟩ := r
    have h := walkpgdir_some hw
    obtain ⟨hentry, hkmem⟩ := walkpgdir_entry hw
    dsimp only
    split_ifs with hp
    · exact outcome_error (h.p_iff.1 hp)
    · refine outcome_ok (.inl ⟨rfl, ?_, hkmem, h.kmem, fun b hb => ?_⟩)
      · rw [Space.pages_setPte h.walk hk (by simpa using hp), h.pages]
      · rw [entry_setPte h.walk ha hb, hentry]
        rfl

/-! ## Contents -/

variable {m m' m'' : ℕ → UInt8} {pg pg' oldsz newsz n : ℕ}

/-- The contents of a page are the same. -/
def SamePage (pg : ℕ) (m m' : ℕ → UInt8) : Prop := ∀ i < PGSIZE, m' (pg + i) = m (pg + i)

theorem SamePage.refl (pg : ℕ) (m : ℕ → UInt8) : SamePage pg m m := fun _ _ => rfl

theorem SamePage.trans (h : SamePage pg m m') (h' : SamePage pg m' m'') : SamePage pg m m'' :=
  fun i hi => (h' i hi).trans (h i hi)

/-- Another page is written. -/
theorem samePage_write {f : ℕ → UInt8} (hpg : pg % 4096 = 0) (hpg' : pg' % 4096 = 0)
    (hne : pg' ≠ pg) : SamePage pg m (write m pg' PGSIZE f) := by
  intro i hi
  refine write_of_not ?_
  simp only [PGSIZE] at hi ⊢
  omega

/-- Filling one page leaves the others alone. -/
theorem samePage_memset {c : UInt8} (hpg : pg % 4096 = 0) (hpg' : pg' % 4096 = 0)
    (hne : pg' ≠ pg) : SamePage pg m (memset m pg' c PGSIZE) :=
  samePage_write hpg hpg' hne

/-- The user addresses from `a` to `z` lose their pages, and only these pages change. -/
structure Freed (s t : Store) (a z : ℕ) : Prop where
  entry : ∀ b, Aligned b →
    t.pgdir.entry b = if a ≤ b ∧ b < z then none else s.pgdir.entry b
  same : ∀ pg, pg % 4096 = 0 →
    (∀ b e, Aligned b → a ≤ b → b < z → s.pgdir.entry b = some e → e.pa ≠ pg) →
    SamePage pg s.mem t.mem

theorem Freed.present {s t : Store} {z : ℕ} (h : Freed s t a z) (hb : Aligned b) :
    t.pgdir.present b ↔ s.pgdir.present b ∧ ¬(a ≤ b ∧ b < z) := by
  rw [present_iff_entry, h.entry b hb, present_iff_entry]
  split_ifs with hr <;> simp [hr]

theorem Freed.of_le (s : Store) (h : n ≤ a) : Freed s s a n :=
  ⟨fun b _ => by rw [if_neg (by omega)], fun pg _ _ => .refl pg _⟩

/-- A round of the loop, and the rest of it. -/
theorem Freed.cons {s s₁ t : Store} {c z : ℕ} (h : Freed s₁ t c z) (hac : a ≤ c)
    (hentry : ∀ b, Aligned b →
      s₁.pgdir.entry b = if a ≤ b ∧ b < c ∧ b < z then none else s.pgdir.entry b)
    (hsame : ∀ pg, pg % 4096 = 0 →
      (∀ b e, Aligned b → a ≤ b → b < z → s.pgdir.entry b = some e → e.pa ≠ pg) →
      SamePage pg s.mem s₁.mem) : Freed s t a z where
  entry b hb := by
    rw [h.entry b hb, hentry b hb]
    split_ifs <;> first | rfl | omega
  same pg hpg hfree := by
    refine (hsame pg hpg hfree).trans (h.same pg hpg fun b e hb hcb hbz he => ?_)
    rw [hentry b hb, if_neg (by omega)] at he
    exact hfree b e hb (by omega) hbz he

namespace Store

/-- The loop of `deallocuvm`. -/
theorem deallocLoop_spec (hold : oldsz ≤ KERNBASE) : ∀ (n a : ℕ) (s : Store), a % 4096 = 0 →
    oldsz ≤ a + n * 4096 → s.space.Good k →
    Outcome (deallocLoop k oldsz n a s) (fun _ => False) fun t =>
      t.space.pages = s.space.pages ∧ Freed s t a oldsz
  | 0, a, s, _, hn, _ => outcome_ok ⟨rfl, .of_le s (by omega)⟩
  | n + 1, a, s, ha, hn, hs => by
    rw [deallocLoop]
    split_ifs with hlt
    swap
    · exact outcome_ok ⟨rfl, .of_le s (by omega)⟩
    have haA : Aligned a := ⟨ha, by simp only [KERNBASE] at hold; omega⟩
    cases hw : s.pgdir.walk a with
    | none =>
      dsimp only
      rw [next_pgtab (by omega)]
      refine (deallocLoop_spec hold n _ s (by omega) (by omega) hs).imp fun t ht => ⟨ht.1, ?_⟩
      refine ht.2.cons (by omega) (fun b hb => ?_) fun pg _ _ => .refl pg _
      split_ifs with hbr
      · rw [Pgdir.entry, walk_eq_none_of_lt hw hbr.1 hbr.2.1]
        rfl
      · rfl
    | some pte =>
      dsimp only
      -- the rest of the loop, after a round that only changes what happens at `a`
      have hround : ∀ s₁ : Store, s₁.space.pages = s.space.pages → (∀ b, Aligned b →
          s₁.pgdir.entry b = if b = a then none else s.pgdir.entry b) →
          (∀ pg, pg % 4096 = 0 → (∀ b e, Aligned b → a ≤ b → b < oldsz →
            s.pgdir.entry b = some e → e.pa ≠ pg) → SamePage pg s.mem s₁.mem) →
          Outcome (deallocLoop k oldsz n (a + PGSIZE) s₁) (fun _ => False) fun t =>
            t.space.pages = s.space.pages ∧ Freed s t a oldsz := by
        intro s₁ hp₁ hentry hsame
        refine (deallocLoop_spec hold n (a + 4096) s₁ (by omega) (by omega) (hs.congr hp₁)).imp
          fun t ht => ⟨ht.1.trans hp₁, ht.2.cons (by omega) (fun b hb => ?_) hsame⟩
        rw [hentry b hb]
        have := hb.mod
        split_ifs <;> first | rfl | omega
      split_ifs with hp h0
      · exact absurd h0 (hs.walk hw (by omega) hp).ne_zero
      · have hvalid := hs.walk hw (by omega) hp
        rw [Phys.kfree_of_valid hvalid]
        refine hround _ (Space.pages_kfree (v := s.space) hw (by omega) hp)
          (fun b hb => entry_setPte hw haA hb) fun pg hpg hfree => samePage_memset hpg hvalid.mod ?_
        exact hfree a pte haA le_rfl hlt (entry_eq_some.2 ⟨hw, hp⟩)
      · refine hround s rfl (fun b hb => ?_) fun pg _ _ => .refl pg _
        split_ifs with hba
        · rw [hba, Pgdir.entry, hw]
          simpa using hp
        · rfl

/-- The user addresses from `newsz` on lose their pages. -/
theorem deallocuvm_spec (hold : oldsz ≤ KERNBASE) {s : Store} (hs : s.space.Good k) (newsz : ℕ) :
    Outcome (s.deallocuvm k oldsz newsz) (fun _ => False) fun r => Freed s r.2 newsz oldsz ∧
      r.1 = min oldsz newsz ∧ r.2.space.pages = s.space.pages := by
  unfold deallocuvm
  split_ifs with h
  · exact outcome_ok ⟨.of_le s h, (min_eq_left h).symm, rfl⟩
  have hup : PGROUNDUP newsz = (newsz + 4095) / 4096 * 4096 := by
    simp only [PGROUNDUP, PGSIZE, KERNBASE] at *
    omega
  rw [hup]
  refine (deallocLoop_spec hold ROUNDS _ s (by omega) ?_ hs).bind fun t ht =>
    outcome_ok ⟨⟨fun b hb => ?_, fun pg hpg hfree => ht.2.same pg hpg fun b e hb hab => ?_⟩,
      (min_eq_right (by omega)).symm, ht.1⟩
  · simp only [ROUNDS, NPDENTRIES, NPTENTRIES, KERNBASE] at *
    omega
  · rw [ht.2.entry b hb]
    have := hb.mod
    refine if_congr (and_congr_left fun _ => ?_) rfl rfl
    omega
  · exact hfree b e hb (by omega)

/-- The pages are distinct, and `kfree` takes them. -/
structure Wf (k : Kernel) (s : Store) : Prop where
  good : s.space.Good k
  nodup : s.space.pages.Nodup

variable {s t : Store}

theorem Wf.congr (h : s.Wf k) (hp : t.space.pages = s.space.pages) : t.Wf k :=
  ⟨h.good.congr hp, by rw [hp]; exact h.nodup⟩

theorem Wf.nodup_pgdir (h : s.Wf k) : s.pgdir.pages.Nodup := (Multiset.nodup_add.1 h.nodup).2.1

theorem Wf.mod (h : s.Wf k) (hpg : pg ∈ s.space.pages) : pg % 4096 = 0 := (h.good pg hpg).mod

theorem Wf.entry_mod (h : s.Wf k) (he : s.pgdir.entry b = some e) (hb : b < KERNBASE) :
    e.pa % 4096 = 0 :=
  h.mod (Multiset.mem_add.2 (.inr (entry_mem_pages he hb)))

/-- A user page is not free. -/
theorem Wf.entry_not_mem (h : s.Wf k) (he : s.pgdir.entry b = some e) (hb : b < KERNBASE) :
    e.pa ∉ s.kmem := fun hmem =>
  Multiset.disjoint_left.1 (Multiset.nodup_add.1 h.nodup).2.2 hmem (entry_mem_pages he hb)

/-- The first free page. -/
theorem Wf.cons {mem : ℕ} (h : s.Wf k) (hk : s.kmem = mem :: kmem) :
    mem % 4096 = 0 ∧ mem ∉ kmem ∧
      s.space.pages = mem ::ₘ Space.pages ⟨kmem, s.pgdir⟩ := by
  obtain ⟨hmem, -, hp⟩ := h.good.cons hk
  have hn : s.kmem.Nodup := (Multiset.nodup_add.1 h.nodup).1
  rw [hk] at hn
  exact ⟨hmem.mod, (nodup_cons.1 hn).1, hp⟩

theorem Wf.tail {mem : ℕ} (h : s.Wf k) (hk : s.kmem = mem :: kmem) :
    Wf k ⟨⟨kmem, s.mem⟩, s.pgdir⟩ := by
  obtain ⟨-, hgood, hp⟩ := h.good.cons hk
  have hn := h.nodup
  rw [hp, Multiset.nodup_cons] at hn
  exact ⟨hgood, hn.2⟩

/-- A write to the first free page leaves those in use alone. -/
theorem Wf.same_write {mem : ℕ} {m f : ℕ → UInt8} (h : s.Wf k) (hk : s.kmem = mem :: kmem)
    (hpg : pg % 4096 = 0) (hpgk : pg ∉ s.kmem) : SamePage pg m (write m mem PGSIZE f) := by
  refine samePage_write hpg (h.cons hk).1 fun heq => hpgk ?_
  rw [hk, heq]
  exact mem_cons_self

/-- The user addresses from `a` to `z` have got pages with zeros, and no page that was in use has
changed. -/
structure Fresh (s t : Store) (a z : ℕ) : Prop where
  new : ∀ b, Aligned b → a ≤ b → b < z → ∃ e, t.pgdir.entry b = some e ∧ e.w = true ∧ e.u = true ∧
    e.pa ∈ s.kmem ∧ ∀ i < PGSIZE, t.mem (e.pa + i) = 0
  old : ∀ b, Aligned b → ¬(a ≤ b ∧ b < z) → t.pgdir.entry b = s.pgdir.entry b
  same : ∀ pg, pg % 4096 = 0 → pg ∉ s.kmem → SamePage pg s.mem t.mem

theorem Fresh.of_le (s : Store) (h : n ≤ a) : Fresh s s a n :=
  ⟨fun b _ hab hbz => by omega, fun _ _ _ => rfl, fun pg _ _ => .refl pg _⟩

/-- Memory runs out, and the user addresses from `a` to `z` lose their pages. -/
structure Undone (s t : Store) (a z : ℕ) : Prop where
  entry : ∀ b, Aligned b →
    t.pgdir.entry b = if a ≤ b ∧ b < z then none else s.pgdir.entry b
  same : ∀ pg, pg % 4096 = 0 → pg ∉ s.kmem →
    (∀ b e, Aligned b → a ≤ b → b < z → s.pgdir.entry b = some e → e.pa ≠ pg) →
    SamePage pg s.mem t.mem

/-- The page `mem`, with other contents, is mapped at `a`. -/
structure Taken (s t : Store) (a mem : ℕ) (w u : Bool) : Prop where
  pages : t.space.pages = s.space.pages
  kmem : ∀ pg ∈ t.kmem, pg ∈ s.kmem ∧ pg ≠ mem
  length : s.kmem.length ≤ t.kmem.length + 2
  entry : ∀ b, Aligned b →
    t.pgdir.entry b = if b = a then some ⟨mem, true, w, u⟩ else s.pgdir.entry b
  mem_mem : mem ∈ s.kmem
  mod : mem % 4096 = 0

/-- `mappages` of a page that was just allocated. -/
theorem mappages_taken {mem : ℕ} {w u : Bool} {f : ℕ → UInt8} (h : s.Wf k)
    (hk : s.kmem = mem :: kmem) (ha : Aligned a) (hak : a < KERNBASE) :
    Outcome (mappages ⟨⟨kmem, f⟩, s.pgdir⟩ a PGSIZE mem w u) (fun _ => s.pgdir.present a) fun r =>
      r.2.mem = f ∧ ((r.1 = true ∧ Taken s r.2 a mem w u) ∨
        (r.1 = false ∧ r.2 = ⟨⟨kmem, f⟩, s.pgdir⟩ ∧ kmem = [])) := by
  obtain ⟨hmod, hnot, hpages⟩ := h.cons hk
  unfold mappages
  refine (mappages_entry ha hak).bind ?_
  rintro ⟨ok, v⟩ (⟨rfl, hp, hkm, hlen, hentry⟩ | ⟨rfl, rfl, hnil⟩)
  · refine outcome_ok ⟨rfl, .inl ⟨rfl, hp.trans hpages.symm, fun pg hpg => ?_, ?_, hentry, ?_,
      hmod⟩⟩
    · have hpg' : pg ∈ kmem := hkm.subset hpg
      refine ⟨?_, fun heq => hnot (heq ▸ hpg')⟩
      rw [hk]
      exact mem_cons_of_mem _ hpg'
    · rw [hk]
      exact Nat.succ_le_succ hlen
    · rw [hk]
      exact mem_cons_self
  · exact outcome_ok ⟨rfl, .inr ⟨rfl, rfl, hnil⟩⟩

/-- The loop of `allocuvm` stops at an address that has a page, or it ends. It allocates at most
two pages in each round, and fails only if there are not so many. -/
theorem allocLoop_spec (hnew : newsz < KERNBASE) : ∀ (n a : ℕ) (s : Store), s.Wf k →
    a % 4096 = 0 → oldsz ≤ a → newsz ≤ a + n * 4096 →
    Outcome (allocLoop k oldsz newsz n a s)
      (fun _ => ∃ b, Aligned b ∧ a ≤ b ∧ b < newsz ∧ s.pgdir.present b) fun r =>
      r.2.space.pages = s.space.pages ∧
      ((r.1 = newsz ∧ Fresh s r.2 a newsz ∧
          s.kmem.length ≤ r.2.kmem.length + 2 * ((newsz + 4095 - a) / 4096)) ∨
        (r.1 = 0 ∧ Undone s r.2 oldsz newsz ∧ s.kmem.length < 2 * ((newsz + 4095 - a) / 4096)))
  | 0, a, s, _, _, _, hn =>
    outcome_ok ⟨rfl, .inl ⟨rfl, .of_le s (by omega), Nat.le_add_right _ _⟩⟩
  | n + 1, a, s, hs, ha, hoa, hn => by
    rw [allocLoop]
    split_ifs with hlt
    swap
    · exact outcome_ok ⟨rfl, .inl ⟨rfl, .of_le s (by omega), Nat.le_add_right _ _⟩⟩
    have haA : Aligned a := ⟨ha, by simp only [KERNBASE] at hnew; omega⟩
    cases hk : s.kmem with
    | nil =>
      dsimp only [kalloc]
      refine (deallocuvm_spec hnew.le hs.good oldsz).weaken.bind fun r hr => outcome_ok ?_
      refine ⟨hr.2.2, .inr ⟨rfl, ⟨hr.1.entry, fun pg hpg _ => hr.1.same pg hpg⟩, ?_⟩⟩
      rw [length_nil]
      omega
    | cons mem kmem =>
      dsimp only [kalloc]
      rw [← hk]
      refine ((mappages_taken hs hk haA (by omega)).mono
        (fun _ hpr => ⟨a, haA, le_rfl, hlt, hpr⟩) fun _ h => h).bind ?_
      rintro ⟨ok, s₁⟩ ⟨hmem, ⟨hok, h₁⟩ | ⟨hok, h₁, hnil⟩⟩
      · dsimp only at hmem hok h₁
        subst hok
        have hsame : ∀ pg, pg % 4096 = 0 → pg ∉ s.kmem → SamePage pg s.mem s₁.mem := by
          rw [hmem]
          exact fun pg => hs.same_write hk
        have hlen := h₁.length
        refine (allocLoop_spec hnew n (a + 4096) s₁ (hs.congr h₁.pages) (by omega) (by omega)
          (by omega)).mono ?_ ?_
        · rintro _ ⟨b, hb, hab, hbz, hpr⟩
          refine ⟨b, hb, by omega, hbz, ?_⟩
          rwa [present_iff_entry, h₁.entry b hb, if_neg (by omega), ← present_iff_entry] at hpr
        rintro r ⟨hp, ⟨hr, hf, hroom⟩ | ⟨hr, hu, hroom⟩⟩
        · refine ⟨hp.trans h₁.pages, .inl ⟨hr, ⟨fun b hb hab hbz => ?_, fun b hb hnot' => ?_,
            fun pg hpg hpgk => ?_⟩, by omega⟩⟩
          · by_cases hba : b = a
            · refine ⟨⟨mem, true, true, true⟩, ?_, rfl, rfl, h₁.mem_mem, fun i hi => ?_⟩
              · rw [hf.old b hb (by omega), h₁.entry b hb, if_pos hba]
              · rw [hf.same mem h₁.mod (fun hm => (h₁.kmem mem hm).2 rfl) i hi, hmem]
                exact write_add hi
            · have := hb.mod
              obtain ⟨e, he, hw, hu, hpa, hz⟩ := hf.new b hb (by omega) hbz
              exact ⟨e, he, hw, hu, (h₁.kmem _ hpa).1, hz⟩
          · rw [hf.old b hb (by omega), h₁.entry b hb, if_neg (by omega)]
          · exact (hsame pg hpg hpgk).trans (hf.same pg hpg fun hm => hpgk (h₁.kmem pg hm).1)
        · refine ⟨hp.trans h₁.pages, .inr ⟨hr, ⟨fun b hb => ?_, fun pg hpg hpgk hfree => ?_⟩,
            by omega⟩⟩
          · rw [hu.entry b hb, h₁.entry b hb]
            split_ifs <;> first | rfl | omega
          · refine (hsame pg hpg hpgk).trans (hu.same pg hpg (fun hm => hpgk (h₁.kmem pg hm).1)
              fun b e hb hob hbz he => ?_)
            rw [h₁.entry b hb] at he
            split_ifs at he with hba
            · obtain rfl := some.inj he
              exact fun heq => hpgk (heq ▸ h₁.mem_mem)
            · exact hfree b e hb hob hbz he
      · dsimp only at hmem hok h₁
        subst hok h₁ hnil
        obtain ⟨hvalid, hgood, hpages⟩ := hs.good.cons hk
        refine (deallocuvm_spec hnew.le hgood oldsz).weaken.bind ?_
        rintro ⟨_, s₂⟩ ⟨h₂, -, hp₂⟩
        dsimp only at h₂ hp₂ ⊢
        rw [Phys.kfree_of_valid hvalid]
        refine outcome_ok ⟨?_, .inr ⟨rfl, ⟨h₂.entry, fun pg hpg hpgk hfree => ?_⟩, ?_⟩⟩
        · rw [hpages]
          exact (Space.pages_cons s₂.space mem s₂.kmem).trans (congrArg (mem ::ₘ ·) hp₂)
        · refine (hs.same_write (f := fun _ => 0) hk hpg hpgk).trans ?_
          exact (h₂.same pg hpg hfree).trans (hs.same_write (f := fun _ => 1) hk hpg hpgk)
        · rw [hk, length_singleton]
          omega

/-- `allocuvm` in an address space with any pages. -/
theorem allocuvm_any (hs : s.Wf k) (oldsz newsz : ℕ) :
    Outcome (s.allocuvm k oldsz newsz) (fun _ => ¬s.pgdir.Below oldsz) fun r =>
      r.2.space.pages = s.space.pages ∧
      ((r.1 = max oldsz newsz ∧ newsz < KERNBASE ∧ Fresh s r.2 oldsz newsz) ∨
        (r.1 = 0 ∧ ∃ z < KERNBASE, Undone s r.2 oldsz z)) ∧
      (newsz < KERNBASE → growNeed oldsz newsz ≤ s.kmem.length →
        r.1 = max oldsz newsz ∧ s.kmem.length ≤ r.2.kmem.length + growNeed oldsz newsz) := by
  unfold allocuvm
  split_ifs with hnew hlt
  · refine outcome_ok ⟨rfl, .inr ⟨rfl, 0, by decide, fun b _ => ?_, fun pg _ _ _ => .refl pg _⟩,
      fun h => absurd h (not_lt.2 hnew)⟩
    rw [if_neg (by omega)]
  · exact outcome_ok ⟨rfl, .inl ⟨(max_eq_left hlt.le).symm, not_le.1 hnew, .of_le s hlt.le⟩,
      fun _ _ => ⟨(max_eq_left hlt.le).symm, Nat.le_add_right _ _⟩⟩
  · have hup : PGROUNDUP oldsz = (oldsz + 4095) / 4096 * 4096 := by
      simp only [PGROUNDUP, PGSIZE, KERNBASE] at *
      omega
    have hmax : newsz = max oldsz newsz := (max_eq_right (not_lt.1 hlt)).symm
    rw [hup]
    refine (allocLoop_spec (not_le.1 hnew) _ _ s hs (by omega) (by omega) ?_).mono ?_ ?_
    · simp only [ROUNDS, NPDENTRIES, NPTENTRIES, KERNBASE] at *
      omega
    · rintro _ ⟨b, hb, hab, hbz, hpr⟩ hbelow
      have := hbelow b hb (by omega) hpr
      omega
    rintro r ⟨hp, ⟨hr, hf, hroom⟩ | ⟨hr, hu, hroom⟩⟩
    · refine ⟨hp, .inl ⟨hr.trans hmax, not_le.1 hnew, fun b hb hab hbz => ?_, fun b hb hnot => ?_,
        hf.same⟩, fun _ _ => ⟨hr.trans hmax, ?_⟩⟩
      · have := hb.mod
        exact hf.new b hb (by omega) hbz
      · exact hf.old b hb (by omega)
      · rw [growNeed]
        omega
    · refine ⟨hp, .inr ⟨hr, newsz, not_le.1 hnew, hu⟩, fun _ hneed => ?_⟩
      rw [growNeed] at hneed
      omega

theorem Fresh.present {z : ℕ} (h : Fresh s t a z) (hb : Aligned b) :
    t.pgdir.present b ↔ s.pgdir.present b ∨ (a ≤ b ∧ b < z) := by
  by_cases hr : a ≤ b ∧ b < z
  · obtain ⟨e, he, -⟩ := h.new b hb hr.1 hr.2
    exact iff_of_true (present_iff_entry.2 ⟨e, he⟩) (.inr hr)
  · rw [present_iff_entry, h.old b hb hr, ← present_iff_entry]
    exact (or_iff_left hr).symm

/-- `allocuvm`, if the memory ends at the old size. -/
theorem allocuvm_spec (hs : s.Wf k) (hfree : s.pgdir.Below oldsz) (newsz : ℕ) :
    Outcome (s.allocuvm k oldsz newsz) (fun _ => False) fun r =>
      ((r.1 = max oldsz newsz ∧ newsz < KERNBASE ∧ Fresh s r.2 oldsz newsz) ∨
        (r.1 = 0 ∧ Fresh s r.2 oldsz oldsz)) ∧
      Grown s.space r.2.space oldsz newsz r.1 := by
  refine (allocuvm_any hs oldsz newsz).mono (fun _ h => h hfree) ?_
  rintro r ⟨hp, ⟨hr, hnew, hf⟩ | ⟨hr, z, hz, hu⟩, hroom⟩
  · exact ⟨.inl ⟨hr, hnew, hf⟩, hp, .inl ⟨hr, hnew, fun b => hf.present⟩, hroom⟩
  · have hnone : ∀ b, Aligned b → oldsz ≤ b → b < z → s.pgdir.entry b = none := fun b hb hob hbz =>
      entry_eq_none_iff.2 fun hpr => by
        have := hfree b hb (hbz.trans hz) hpr
        omega
    have hf : Fresh s r.2 oldsz oldsz := by
      refine ⟨fun b _ hab hbz => by omega, fun b hb _ => ?_, fun pg hpg hpgk => ?_⟩
      · rw [hu.entry b hb]
        split_ifs with hbr
        · exact (hnone b hb hbr.1 hbr.2).symm
        · rfl
      · refine hu.same pg hpg hpgk fun b e hb hob hbz he => ?_
        rw [hnone b hb hob hbz] at he
        cases he
    refine ⟨.inr ⟨hr, hf⟩, hp, .inr ⟨hr, fun b hb => (hf.present hb).trans ?_⟩, hroom⟩
    exact or_iff_left fun h => by omega

/-! ### freevm and setupkvm -/

theorem tab_mem_pages {i : Fin NPDENTRIES} {x : Pgtab} (hx : d.pde i = some x) :
    x.pg ∈ d.pages := by
  refine Multiset.mem_add.2 (.inr (mem_total.2 ⟨i, ?_⟩))
  rw [hx, slotPages]
  exact Multiset.mem_add.2 (.inl (Multiset.mem_singleton_self _))

/-- The loop of `freevm`, if the user has no page. -/
theorem freeTabs_spec (hs : s.space.Good k)
    (h : ∀ b, Aligned b → b < KERNBASE → ¬s.pgdir.present b) :
    Outcome ((List.finRange NPDENTRIES).foldlM (freeTab k s.pgdir) s.toPhys) (fun _ => False)
      fun y => ((s.pgdir.pg :: y.kmem : List ℕ) : Multiset ℕ) = s.space.pages ∧
        ∀ pg, pg % 4096 = 0 → pg ∉ s.pgdir.pages → SamePage pg s.mem y.mem := by
  have htotal : s.space.pages =
      {s.pgdir.pg} + (s.kmem + total (fun _ => tabPage) s.pgdir.pde) := by
    rw [← total_congr (slotPages_of_absent h)]
    exact add_left_comm _ _ _
  refine (Outcome.foldlM (fun is (y : Phys) => (y.kmem : Multiset ℕ) +
      (is.map fun i => tabPage (s.pgdir.pde i)).sum =
        s.kmem + total (fun _ => tabPage) s.pgdir.pde ∧
      ∀ pg, pg % 4096 = 0 → pg ∉ s.pgdir.pages → SamePage pg s.mem y.mem) ?_ _ _ ⟨?_, ?_⟩).imp ?_
  · rintro i is y ⟨hj, hsame⟩
    unfold freeTab
    rw [List.map_cons, List.sum_cons] at hj
    cases hi : s.pgdir.pde i with
    | none =>
      rw [hi, tabPage, zero_add] at hj
      exact outcome_ok ⟨hj, hsame⟩
    | some tab =>
      rw [hi, tabPage] at hj
      have hmem := tab_mem_pages hi
      have hvalid := hs _ (Multiset.mem_add.2 (.inr hmem))
      dsimp only
      rw [Phys.kfree_of_valid hvalid]
      refine outcome_ok ⟨Eq.trans ?_ hj, fun pg hpg hnot => (hsame pg hpg hnot).trans
        (samePage_memset hpg hvalid.mod ?_)⟩
      · rw [← Multiset.cons_coe, ← Multiset.singleton_add]
        abel
      · rintro rfl
        exact hnot hmem
  · rw [total, Fin.sum_univ_def]
  · exact fun pg _ _ => .refl pg _
  · rintro y ⟨hj, hsame⟩
    rw [map_nil, sum_nil, add_zero] at hj
    rw [htotal, ← hj, ← Multiset.cons_coe, ← Multiset.singleton_add]
    exact ⟨rfl, hsame⟩

/-- All pages of an address space are freed, and no other page is written to. -/
theorem freevm_spec (hs : s.space.Good k) :
    Outcome (s.freevm k) (fun _ => False) fun y =>
      (∀ pg, pg % 4096 = 0 → pg ∉ s.space.pages → SamePage pg s.mem y.mem) ∧
      (y.kmem : Multiset ℕ) = s.space.pages := by
  unfold freevm
  refine (deallocuvm_spec le_rfl hs 0).bind ?_
  rintro ⟨_, s₁⟩ ⟨hfreed, -, hpages⟩
  dsimp only at hfreed hpages ⊢
  have hs₁ := hs.congr hpages
  refine (freeTabs_spec hs₁ fun b hb hbk hpr =>
    ((hfreed.present hb).1 hpr).2 ⟨Nat.zero_le _, hbk⟩).bind ?_
  rintro y ⟨hkmem, hy⟩
  have hmem : s₁.pgdir.pg ∈ s₁.pgdir.pages :=
    Multiset.mem_add.2 (.inl (Multiset.mem_singleton_self _))
  have hvalid := hs₁ _ (Multiset.mem_add.2 (.inr hmem))
  rw [Phys.kfree_of_valid hvalid]
  refine outcome_ok ⟨fun pg hpg hnot => ?_, hkmem.trans hpages⟩
  have hnot₁ : pg ∉ s₁.pgdir.pages := fun hmem => hnot (by
    rw [← hpages]
    exact Multiset.mem_add.2 (.inr hmem))
  refine ((hfreed.same pg hpg fun b e _ _ hbz he => ?_).trans (hy pg hpg hnot₁)).trans
    (samePage_memset hpg hvalid.mod ?_)
  · rintro rfl
    exact hnot (Multiset.mem_add.2 (.inr (entry_mem_pages he hbz)))
  · rintro rfl
    exact hnot₁ hmem

/-- A page directory without user memory, or less than 514 pages. No page that was in use is
written to. -/
theorem setupkvm_spec {x : Phys} (hk : ∀ pg ∈ x.kmem, k.Valid pg) :
    Outcome (setupkvm k x) (fun _ => False) fun r =>
      (∀ pg, pg % 4096 = 0 → pg ∉ x.kmem → SamePage pg x.mem r.2.mem) ∧
      ((r.1 = none ∧ (r.2.kmem : Multiset ℕ) = x.kmem ∧ x.kmem.length ≤ 513) ∨
        ∃ d, r.1 = some d ∧ (r.2.kmem : Multiset ℕ) + d.pages = x.kmem ∧ d.NoUser) := by
  unfold setupkvm
  cases hx : x.kmem with
  | nil => exact outcome_ok ⟨fun pg _ _ => .refl pg _, .inl ⟨rfl, congrArg _ hx, by simp⟩⟩
  | cons p kmem =>
    dsimp only [kalloc]
    rw [if_neg (by decide)]
    refine (setupLoop_kmap k p kmem).bind ?_
    rintro ⟨ok, v⟩ ⟨hp, hno, hf⟩
    dsimp only at hp hno hf
    cases ok with
    | true => exact outcome_ok ⟨fun pg _ _ => .refl pg _, .inr ⟨v.pgdir, rfl, hp, hno⟩⟩
    | false =>
      have hgood : Space.Good k (space ⟨⟨v.kmem, x.mem⟩, v.pgdir⟩) := fun pg hpg =>
        hk pg (by
          rw [hx]
          rw [show space ⟨⟨v.kmem, x.mem⟩, v.pgdir⟩ = v from rfl, hp] at hpg
          exact hpg)
      refine (freevm_spec hgood).bind fun y hy => outcome_ok ⟨fun pg hpg hnot =>
        hy.1 pg hpg fun hmem => hnot ?_, .inl ⟨rfl, hy.2.trans hp, ?_⟩⟩
      · rw [show space ⟨⟨v.kmem, x.mem⟩, v.pgdir⟩ = v from rfl, hp] at hmem
        exact hmem
      · have hcard := congrArg Multiset.card hp
        rw [Space.pages, hf rfl, Multiset.card_add, Multiset.coe_nil, Multiset.card_zero, zero_add,
          Multiset.coe_card] at hcard
        rw [← hcard]
        exact hno.card_pages

/-! ### copyuvm -/

/-- The user addresses from `a` to `z` have got copies of the pages of `src`, and no page that was
in use has changed. -/
structure Copied (src : Pgdir) (s t : Store) (a z : ℕ) : Prop where
  new : ∀ b, Aligned b → a ≤ b → b < z → ∃ e e', src.entry b = some e ∧ t.pgdir.entry b = some e' ∧
    e'.w = e.w ∧ e'.u = e.u ∧ e'.pa ∈ s.kmem ∧
    ∀ i < PGSIZE, t.mem (e'.pa + i) = s.mem (e.pa + i)
  old : ∀ b, Aligned b → ¬(a ≤ b ∧ b < z) → t.pgdir.entry b = s.pgdir.entry b

theorem Copied.of_le {src : Pgdir} (s : Store) (h : n ≤ a) : Copied src s s a n :=
  ⟨fun b _ hab hbz => by omega, fun _ _ _ => rfl⟩

/-- The loop of `copyuvm` copies to addresses without pages. It stops at an address that has
nothing to copy, or it ends, and fails only if there is not enough memory. -/
theorem copyLoop_spec {src : Pgdir} {sz : ℕ} (hsz : sz ≤ KERNBASE) :
    ∀ (n i : ℕ) (s : Store), s.Wf k → i % 4096 = 0 → sz ≤ i + n * 4096 →
    (∀ b, Aligned b → i ≤ b → b < sz → s.pgdir.entry b = none) →
    (∀ b e, Aligned b → b < sz → src.entry b = some e → e.pa % 4096 = 0 ∧ e.pa ∉ s.kmem) →
    Outcome (copyLoop k src sz n i s) (src.Hole sz) fun r =>
      r.2.space.pages = s.space.pages ∧
      ((r.1 = true ∧ Copied src s r.2 i sz) ∨
        (r.1 = false ∧ s.kmem.length < 2 * ((sz + 4095 - i) / 4096))) ∧
      ∀ pg, pg % 4096 = 0 → pg ∉ s.kmem → SamePage pg s.mem r.2.mem
  | 0, i, s, _, _, hn, _, _ =>
    outcome_ok ⟨rfl, .inl ⟨rfl, .of_le s (by omega)⟩, fun pg _ _ => .refl pg _⟩
  | n + 1, i, s, hs, hi, hn, hnone, hsrc => by
    rw [copyLoop]
    split_ifs with hlt
    swap
    · exact outcome_ok ⟨rfl, .inl ⟨rfl, .of_le s (by omega)⟩, fun pg _ _ => .refl pg _⟩
    have hiA : Aligned i := ⟨hi, by simp only [KERNBASE] at hsz; omega⟩
    have habs : ∀ x, src.walk i = x → (∀ e, x = some e → e.p = false) → ¬src.present i := by
      rintro _ rfl hp ⟨e, hw, he⟩
      rw [hp e hw] at he
      cases he
    cases hw : src.walk i with
    | none => exact outcome_error ⟨.inl rfl, i, hiA, hlt, habs _ hw (by simp)⟩
    | some e =>
      dsimp only
      split_ifs with hep
      · exact outcome_error ⟨.inr rfl, i, hiA, hlt, habs _ hw (by simp [hep])⟩
      have he : src.entry i = some e := entry_eq_some.2 ⟨hw, by simpa using hep⟩
      obtain ⟨hemod, hek⟩ := hsrc i e hiA hlt he
      cases hk : s.kmem with
      | nil =>
        refine outcome_ok ⟨rfl, .inr ⟨rfl, ?_⟩, fun pg _ _ => .refl pg _⟩
        rw [length_nil]
        omega
      | cons mem kmem =>
        dsimp only [kalloc]
        rw [← hk]
        refine ((mappages_taken hs hk hiA (by omega)).mono (fun _ hpr => ?_) fun _ h => h).bind ?_
        · exact absurd hpr (entry_eq_none_iff.1 (hnone i hiA le_rfl hlt))
        rintro ⟨ok, s₁⟩ ⟨hmem, ⟨hok, h₁⟩ | ⟨hok, h₁, hnil⟩⟩
        · dsimp only at hmem hok h₁
          subst hok
          have hsame : ∀ pg, pg % 4096 = 0 → pg ∉ s.kmem → SamePage pg s.mem s₁.mem := by
            rw [hmem]
            exact fun pg => hs.same_write hk
          have hlen := h₁.length
          refine (copyLoop_spec hsz n (i + 4096) s₁ (hs.congr h₁.pages) (by omega) (by omega)
            (fun b hb hib hbz => ?_) fun b e hb hbz hbe => ?_).imp ?_
          · rw [h₁.entry b hb, if_neg (by omega)]
            exact hnone b hb (by omega) hbz
          · obtain ⟨hm, hk'⟩ := hsrc b e hb hbz hbe
            exact ⟨hm, fun hm' => hk' (h₁.kmem _ hm').1⟩
          rintro r ⟨hp, hr, hsame'⟩
          refine ⟨hp.trans h₁.pages, ?_, fun pg hpg hpgk =>
            (hsame pg hpg hpgk).trans (hsame' pg hpg fun hm => hpgk (h₁.kmem pg hm).1)⟩
          obtain ⟨hr, hcop⟩ | ⟨hr, hroom⟩ := hr
          swap
          · exact .inr ⟨hr, by omega⟩
          refine .inl ⟨hr, fun b hb hib hbz => ?_, fun b hb hnot' => ?_⟩
          · by_cases hbi : b = i
            · subst hbi
              refine ⟨e, ⟨mem, true, e.w, e.u⟩, he, ?_, rfl, rfl, h₁.mem_mem, fun j hj => ?_⟩
              · rw [hcop.old b hb (by omega), h₁.entry b hb, if_pos rfl]
              · rw [hsame' mem h₁.mod (fun hm => (h₁.kmem mem hm).2 rfl) j hj, hmem]
                exact write_add hj
            · have := hb.mod
              obtain ⟨x, x', hx, hx', hxw, hxu, hpa, hbytes⟩ := hcop.new b hb (by omega) hbz
              refine ⟨x, x', hx, hx', hxw, hxu, (h₁.kmem _ hpa).1, fun j hj => ?_⟩
              obtain ⟨hxm, hxk⟩ := hsrc b x hb hbz hx
              rw [hbytes j hj, hsame x.pa hxm hxk j hj]
          · rw [hcop.old b hb (by omega), h₁.entry b hb, if_neg (by omega)]
        · dsimp only at hmem hok h₁
          subst hok h₁ hnil
          obtain ⟨hvalid, -, hpages⟩ := hs.good.cons hk
          dsimp only
          rw [Phys.kfree_of_valid hvalid]
          refine outcome_ok ⟨?_, .inr ⟨rfl, ?_⟩, fun pg hpg hpgk => ?_⟩
          · rw [hpages]
            exact Space.pages_cons s.space mem []
          · rw [hk, length_singleton]
            omega
          · refine (hs.same_write (f := fun i => s.mem (e.pa + i)) hk hpg hpgk).trans ?_
            exact hs.same_write (f := fun _ => 1) hk hpg hpgk

end Store

/-! ## User memory -/

theorem PDX_pgrounddown (va : ℕ) : PDX (PGROUNDDOWN va) = PDX va := by
  refine Fin.ext ?_
  simp only [PDX, PGROUNDDOWN, PGSIZE, NPDENTRIES]
  omega

theorem PTX_pgrounddown (va : ℕ) : PTX (PGROUNDDOWN va) = PTX va := by
  refine Fin.ext ?_
  simp only [PTX, PGROUNDDOWN, PGSIZE, NPTENTRIES]
  omega

theorem walk_pgrounddown (d : Pgdir) (va : ℕ) : d.walk (PGROUNDDOWN va) = d.walk va := by
  rw [Pgdir.walk, Pgdir.walk, PDX_pgrounddown, PTX_pgrounddown]

theorem entry_pgrounddown (d : Pgdir) (va : ℕ) : d.entry (PGROUNDDOWN va) = d.entry va := by
  rw [Pgdir.entry, walk_pgrounddown, Pgdir.entry]

theorem aligned_pgrounddown (hva : va < 2 ^ 32) : Aligned (PGROUNDDOWN va) := by
  simp only [PGROUNDDOWN, PGSIZE]
  exact ⟨by omega, by omega⟩

theorem pgrounddown_le (va : ℕ) : PGROUNDDOWN va ≤ va := by
  simp only [PGROUNDDOWN, PGSIZE]
  omega

theorem user_of_lt (hva : va < KERNBASE) :
    d.user va = (d.entry (PGROUNDDOWN va)).map fun e => e.pa + va % PGSIZE := by
  rw [Pgdir.user, if_pos hva, Pgdir.entry, walk_pgrounddown]
  cases d.walk va with
  | none => rfl
  | some e => cases hp : e.p <;> simp [hp]

theorem user_eq_some {x : ℕ} : d.user va = some x ↔
    va < KERNBASE ∧ ∃ e, d.entry (PGROUNDDOWN va) = some e ∧ x = e.pa + va % PGSIZE := by
  by_cases hva : va < KERNBASE
  · rw [user_of_lt hva, map_eq_some_iff]
    simp only [hva, true_and, eq_comm]
  · simp [Pgdir.user, hva]

theorem kernbase_lt : KERNBASE < 2 ^ 32 := by decide

/-- The cells of a user address are in one of the pages. -/
theorem user_page {x : ℕ} (hmod : ∀ pg ∈ d.pages, pg % 4096 = 0) (h : d.user va = some x) :
    PGROUNDDOWN x ∈ d.pages := by
  obtain ⟨hva, e, he, rfl⟩ := user_eq_some.1 h
  have hmem := entry_mem_pages he (lt_of_le_of_lt (pgrounddown_le va) hva)
  have hpa : PGROUNDDOWN (e.pa + va % PGSIZE) = e.pa := by
    have := hmod _ hmem
    simp only [PGROUNDDOWN, PGSIZE]
    omega
  rw [hpa]
  exact hmem

/-- No two user addresses have one cell. -/
theorem separate_user (hn : d.pages.Nodup) (hmod : ∀ pg ∈ d.pages, pg % 4096 = 0) :
    Separate d.user := by
  intro va va' x h h'
  obtain ⟨hva, e, he, hx⟩ := user_eq_some.1 h
  obtain ⟨hva', e', he', hx'⟩ := user_eq_some.1 h'
  have hk := lt_of_le_of_lt (pgrounddown_le va) hva
  have hk' := lt_of_le_of_lt (pgrounddown_le va') hva'
  have hm := hmod _ (entry_mem_pages he hk)
  have hm' := hmod _ (entry_mem_pages he' hk')
  simp only [PGSIZE] at hx hx'
  have hpa : e.pa = e'.pa := by omega
  have hb := entry_inj hn (aligned_pgrounddown (hva.trans kernbase_lt))
    (aligned_pgrounddown (hva'.trans kernbase_lt)) hk hk' he he' hpa
  simp only [PGROUNDDOWN, PGSIZE] at hb
  omega

namespace Store

variable {s t : Store}

theorem Wf.pgdir_mod (h : s.Wf k) : ∀ pg ∈ s.pgdir.pages, pg % 4096 = 0 :=
  fun _ hpg => h.mod (Multiset.mem_add.2 (.inr hpg))

/-- Different user addresses have different cells. -/
theorem Wf.separate (h : s.Wf k) : Separate s.pgdir.user :=
  separate_user h.nodup_pgdir h.pgdir_mod

theorem byte_of_not_lt (hva : ¬va < KERNBASE) : s.byte va = none := by
  rw [byte, view, Pgdir.user, if_neg hva]
  rfl

/-- A page that is mapped as before and has the same contents is seen as before. -/
theorem byte_congr (he : t.pgdir.entry (PGROUNDDOWN va) = s.pgdir.entry (PGROUNDDOWN va))
    (hsame : ∀ e, s.pgdir.entry (PGROUNDDOWN va) = some e → SamePage e.pa s.mem t.mem) :
    t.byte va = s.byte va := by
  by_cases hva : va < KERNBASE
  · rw [byte, byte, view, view, user_of_lt hva, user_of_lt hva, he]
    cases hent : s.pgdir.entry (PGROUNDDOWN va) with
    | none => rfl
    | some e => exact congrArg some (hsame e hent _ (Nat.mod_lt _ (by decide)))
  · rw [byte_of_not_lt hva, byte_of_not_lt hva]

/-- User memory stays the same if its pages do. -/
theorem byte_of_same {x : Phys} (h : s.Wf k)
    (hsame : ∀ pg, pg % 4096 = 0 → pg ∉ s.kmem → SamePage pg s.mem x.mem) (va : ℕ) :
    byte ⟨x, s.pgdir⟩ va = s.byte va := by
  by_cases hva : va < KERNBASE
  · have hk := lt_of_le_of_lt (pgrounddown_le va) hva
    exact byte_congr rfl fun e he => hsame e.pa (h.entry_mod he hk) (h.entry_not_mem he hk)
  · rw [byte_of_not_lt hva, byte_of_not_lt hva]

end Store

end Xv6.Vm
