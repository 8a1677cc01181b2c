import Xv6.MemoryCalls

/-!
# The loop of deallocuvm

`deallocuvm` jumps over the addresses without a page table. `Word.deallocLoop` is its loop with the
arithmetic of the source, and `pageByPage` visits every page. Both do the same, also when they
panic (`deallocLoop_word`). A visit of every page frees the pages that are mapped and clears their
entries (`pageByPage_ok`), unless `kfree` does not take one of them (`pageByPage_error`). If no
page is mapped twice, each is freed once (`deallocuvm_page_by_page`).
-/

namespace Xv6.Vm

open Function List Option

/-! ## The loops -/

/-- The loop of `deallocuvm` with 32-bit addresses. The first argument bounds the rounds, and
`none` is a loop that goes on. -/
def Word.deallocLoop (k : Kernel) (oldsz : ℕ) : ℕ → ℕ → Space → Option (Except Fault Space)
  | 0, _, _ => none
  | n + 1, a, v =>
    if a < oldsz then
      match v.pgdir.walk a with
      | none =>
        let a := (PGADDR (PDX a + 1) 0 0 + 2 ^ 32 - PGSIZE) % 2 ^ 32
        Word.deallocLoop k oldsz n ((a + PGSIZE) % 2 ^ 32) v
      | some pte =>
        if pte.p then
          if pte.pa = 0 then some (.error .kfree)
          else
            match kfree k v.kmem pte.pa with
            | .error f => some (.error f)
            | .ok kmem =>
              Word.deallocLoop k oldsz n ((a + PGSIZE) % 2 ^ 32) ⟨kmem, v.pgdir.setPte a .zero⟩
        else Word.deallocLoop k oldsz n ((a + PGSIZE) % 2 ^ 32) v
    else some (.ok v)

/-- A visit of one page. -/
def visit (k : Kernel) (v : Space) (a : ℕ) : Except Fault Space :=
  match v.pgdir.walk a with
  | none => .ok v
  | some pte =>
    if pte.p then
      if pte.pa = 0 then .error .kfree
      else do
        let kmem ← kfree k v.kmem pte.pa
        .ok ⟨kmem, v.pgdir.setPte a .zero⟩
    else .ok v

/-- The pages from `a` on, up to `oldsz`. -/
def pagesUpTo (a oldsz : ℕ) : List ℕ :=
  (List.range ((oldsz + PGSIZE - 1 - a) / PGSIZE)).map fun i => a + i * PGSIZE

/-- The loop without the jump. -/
def pageByPage (k : Kernel) (v : Space) (a oldsz : ℕ) : Except Fault Space :=
  (pagesUpTo a oldsz).foldlM (visit k) v

variable {k : Kernel} {v v' : Space} {a b oldsz newsz : ℕ}

theorem pagesUpTo_of_le (h : oldsz ≤ a) : pagesUpTo a oldsz = [] := by
  have hzero : (oldsz + PGSIZE - 1 - a) / PGSIZE = 0 := by
    simp only [PGSIZE]
    omega
  rw [pagesUpTo, hzero]
  rfl

theorem pagesUpTo_of_lt (h : a < oldsz) :
    pagesUpTo a oldsz = a :: pagesUpTo (a + PGSIZE) oldsz := by
  have hsucc : (oldsz + PGSIZE - 1 - a) / PGSIZE =
      (oldsz + PGSIZE - 1 - (a + PGSIZE)) / PGSIZE + 1 := by
    simp only [PGSIZE]
    omega
  rw [pagesUpTo, hsucc, List.range_succ_eq_map, List.map_cons, List.map_map, pagesUpTo]
  refine congrArg₂ List.cons (by omega) (List.map_congr_left fun i _ => ?_)
  simp only [comp_apply, Nat.succ_eq_add_one, PGSIZE]
  omega

theorem mem_pagesUpTo (ha : a % 4096 = 0) :
    b ∈ pagesUpTo a oldsz ↔ b % 4096 = 0 ∧ a ≤ b ∧ b < oldsz := by
  simp only [pagesUpTo, List.mem_map, List.mem_range, PGSIZE]
  constructor
  · rintro ⟨i, hi, rfl⟩
    omega
  · rintro ⟨hb, hab, hlt⟩
    exact ⟨(b - a) / 4096, by omega, by omega⟩

theorem pageByPage_of_le (k : Kernel) (v : Space) (h : oldsz ≤ a) :
    pageByPage k v a oldsz = .ok v := by
  rw [pageByPage, pagesUpTo_of_le h, List.foldlM_nil]
  rfl

theorem pageByPage_of_lt (k : Kernel) (v : Space) (h : a < oldsz) :
    pageByPage k v a oldsz = visit k v a >>= fun v => pageByPage k v (a + PGSIZE) oldsz := by
  unfold pageByPage
  rw [pagesUpTo_of_lt h, List.foldlM_cons]

/-- The pages without a page table are passed over. -/
theorem pageByPage_skip (k : Kernel) (v : Space) : ∀ (n a : ℕ),
    (∀ i < n, v.pgdir.walk (a + i * PGSIZE) = none) →
    pageByPage k v a oldsz = pageByPage k v (a + n * PGSIZE) oldsz
  | 0, a, _ => by rw [zero_mul, add_zero]
  | n + 1, a, h => by
    have hP : PGSIZE = 4096 := rfl
    rcases lt_or_ge a oldsz with hlt | hge
    · have h0 := h 0 (Nat.succ_pos n)
      rw [zero_mul, add_zero] at h0
      have hvisit : visit k v a = .ok v := by rw [visit, h0]
      have hnext := pageByPage_skip k v n (a + PGSIZE) fun i hi => by
        have := h (i + 1) (by omega)
        rwa [add_mul, one_mul, add_comm (i * PGSIZE), ← add_assoc] at this
      have hend : a + (n + 1) * PGSIZE = a + PGSIZE + n * PGSIZE := by
        rw [add_mul, one_mul, add_comm (n * PGSIZE), add_assoc]
      rw [pageByPage_of_lt k v hlt, hvisit, ok_bind, hend, ← hnext]
    · rw [pageByPage_of_le k v hge, pageByPage_of_le k v (hge.trans (Nat.le_add_right ..))]

/-- Where the loop goes on if there is no page table for `a`. -/
theorem jump_eq (ha : a < KERNBASE) :
    ((PGADDR (PDX a + 1) 0 0 + 2 ^ 32 - PGSIZE) % 2 ^ 32 + PGSIZE) % 2 ^ 32 =
      (a / 4194304 + 1) * 4194304 := by
  simp only [PGADDR, PDX, PGSIZE, NPDENTRIES, KERNBASE] at *
  omega

/-- The loop with the jump ends, and does the same. -/
theorem deallocLoop_word (hold : oldsz ≤ KERNBASE) : ∀ (n a : ℕ) (v : Space), a % 4096 = 0 →
    oldsz < a + n * 4096 → Word.deallocLoop k oldsz (n + 1) a v = some (pageByPage k v a oldsz)
  | n, a, v, ha, hn => by
    have hP : PGSIZE = 4096 := rfl
    have hK : KERNBASE = 2147483648 := rfl
    rw [Word.deallocLoop]
    split_ifs with hlt
    swap
    · rw [pageByPage_of_le k v (by omega)]
    cases n with
    | zero => omega
    | succ n =>
      have hnext : (a + PGSIZE) % 2 ^ 32 = a + PGSIZE := Nat.mod_eq_of_lt (by omega)
      have hrest := fun v => deallocLoop_word hold n (a + PGSIZE) v (by omega) (by omega)
      cases hw : v.pgdir.walk a with
      | none =>
        obtain ⟨m, hm⟩ : ∃ m, (a / 4194304 + 1) * 4194304 = a + m * PGSIZE :=
          ⟨((a / 4194304 + 1) * 4194304 - a) / 4096, by rw [hP]; omega⟩
        dsimp only
        rw [jump_eq (by omega), hm, deallocLoop_word hold n _ v (by omega) (by omega),
          ← pageByPage_skip k v m a fun i hi => ?_]
        refine walk_eq_none_of_lt hw (Nat.le_add_right ..) ?_
        rw [hm, hP]
        omega
      | some pte =>
        rw [pageByPage_of_lt k v hlt, visit, hw]
        dsimp only
        split_ifs with hp h0
        · rw [error_bind]
        · cases hfree : kfree k v.kmem pte.pa with
          | error f => rw [error_bind, error_bind]
          | ok kmem =>
            dsimp only
            rw [hnext, hrest, ok_bind, ok_bind]
        · rw [hnext, hrest, ok_bind]

/-! ## What a visit of every page does -/

theorem kfree_of_not_valid {pg : ℕ} (h : ¬k.Valid pg) (kmem : List ℕ) :
    kfree k kmem pg = .error .kfree := by
  refine if_pos ?_
  by_contra hno
  simp only [not_or, not_not, not_lt, not_le, PGSIZE] at hno
  exact h ⟨hno.1, hno.2.1, hno.2.2⟩

theorem visit_of_none (k : Kernel) (h : v.pgdir.entry a = none) : visit k v a = .ok v := by
  rw [visit]
  cases hw : v.pgdir.walk a with
  | none => rfl
  | some pte =>
    have hp : pte.p ≠ true := fun hp => by
      rw [entry_eq_some.2 ⟨hw, hp⟩] at h
      cases h
    exact if_neg hp

theorem visit_of_some {e : Pte} (h : v.pgdir.entry a = some e) (hv : k.Valid e.pa) :
    visit k v a = .ok ⟨e.pa :: v.kmem, v.pgdir.setPte a .zero⟩ := by
  obtain ⟨hw, hp⟩ := entry_eq_some.1 h
  rw [visit, hw]
  dsimp only
  rw [if_pos hp, if_neg hv.ne_zero, kfree_of_valid hv, ok_bind]

theorem visit_error {e : Pte} (h : v.pgdir.entry a = some e) (hv : ¬k.Valid e.pa) :
    visit k v a = .error .kfree := by
  obtain ⟨hw, hp⟩ := entry_eq_some.1 h
  rw [visit, hw]
  dsimp only
  rw [if_pos hp, kfree_of_not_valid hv, error_bind, ite_self]

/-- The pages that are mapped at some addresses. -/
def mappedPages (d : Pgdir) (as : List ℕ) : List ℕ := as.filterMap fun a => (d.entry a).map Pte.pa

/-- The page that an address maps is freed once for each of the addresses, and their entries are
cleared. -/
structure Cleared (v : Space) (as : List ℕ) (v' : Space) : Prop where
  kmem : v'.kmem = (mappedPages v.pgdir as).reverse ++ v.kmem
  walk : ∀ b < 2 ^ 32, v'.pgdir.walk b =
    if PGROUNDDOWN b ∈ as ∧ (v.pgdir.entry b).isSome then some .zero else v.pgdir.walk b
  pg : v'.pgdir.pg = v.pgdir.pg
  tables : ∀ i, (v'.pgdir.pde i).map Pgtab.pg = (v.pgdir.pde i).map Pgtab.pg

theorem cleared_nil (v : Space) : Cleared v [] v :=
  ⟨rfl, fun b _ => by simp, rfl, fun _ => rfl⟩

variable {as : List ℕ}

/-- An address without a page. -/
theorem Cleared.cons_none (h : Cleared v as v') (hno : v.pgdir.entry a = none) :
    Cleared v (a :: as) v' :=
  { h with
    kmem := by
      rw [h.kmem, mappedPages, mappedPages, filterMap_cons, hno]
      rfl
    walk := fun b hb => by
      rw [h.walk b hb]
      refine if_congr (and_congr_left fun hp => ?_) rfl rfl
      rw [mem_cons]
      refine (or_iff_right ?_).symm
      rintro rfl
      rw [entry_pgrounddown] at hno
      rw [hno] at hp
      cases hp }

theorem tables_setPte (d : Pgdir) (a : ℕ) (e : Pte) (i : Fin NPDENTRIES) :
    ((d.setPte a e).pde i).map Pgtab.pg = (d.pde i).map Pgtab.pg := by
  unfold Pgdir.setPte
  by_cases hi : i = PDX a
  · subst hi
    simp only [update_self, Option.map_map]
    rfl
  · simp only [update_of_ne hi]

/-- An address with a page. -/
theorem Cleared.cons_some {e : Pte}
    (h : Cleared ⟨e.pa :: v.kmem, v.pgdir.setPte a .zero⟩ as v')
    (he : v.pgdir.entry a = some e) (ha : Aligned a) (has : ∀ b ∈ as, Aligned b) (hnot : a ∉ as) :
    Cleared v (a :: as) v' where
  kmem := by
    have hsame : mappedPages (v.pgdir.setPte a .zero) as = mappedPages v.pgdir as := by
      refine filterMap_congr fun b hb => ?_
      have hne : b ≠ a := fun hba => hnot (hba ▸ hb)
      rw [entry_setPte (entry_eq_some.1 he).1 ha (has b hb), if_neg hne]
    rw [h.kmem, hsame, mappedPages, mappedPages, filterMap_cons, he]
    simp
  walk b hb := by
    have hround := aligned_pgrounddown hb
    obtain ⟨hw, -⟩ := entry_eq_some.1 he
    rw [h.walk b hb, ← walk_pgrounddown, ← walk_pgrounddown v.pgdir, ← entry_pgrounddown,
      ← entry_pgrounddown v.pgdir]
    by_cases hba : PGROUNDDOWN b = a
    · rw [hba, if_neg fun hc => hnot hc.1, if_pos ⟨mem_cons_self, by rw [he]; rfl⟩]
      exact walk_setPte_self hw _
    · have hne : ¬(PDX (PGROUNDDOWN b) = PDX a ∧ PTX (PGROUNDDOWN b) = PTX a) := fun hi =>
        hba (hround.eq_of_index ha hi.1 hi.2)
      have hmem : PGROUNDDOWN b ∈ a :: as ↔ PGROUNDDOWN b ∈ as := by
        rw [mem_cons, or_iff_right hba]
      rw [entry_setPte hw ha hround, if_neg hba, walk_setPte_of_ne hne]
      simp only [hmem]
  pg := h.pg
  tables i := (h.tables i).trans (tables_setPte ..)

/-- A visit of pages that `kfree` takes. -/
theorem visits_ok : ∀ (as : List ℕ) (v : Space), (∀ a ∈ as, Aligned a) → as.Nodup →
    (∀ a ∈ as, ∀ e, v.pgdir.entry a = some e → k.Valid e.pa) →
    ∃ v', as.foldlM (visit k) v = .ok v' ∧ Cleared v as v'
  | [], v, _, _, _ => ⟨v, rfl, cleared_nil v⟩
  | a :: as, v, hal, hnd, hvalid => by
    obtain ⟨hnot, hnd⟩ := nodup_cons.1 hnd
    obtain ⟨ha, has⟩ := forall_mem_cons.1 hal
    rw [foldlM_cons]
    cases he : v.pgdir.entry a with
    | none =>
      obtain ⟨v', hrun, hv'⟩ := visits_ok as v has hnd fun b hb =>
        hvalid b (mem_cons_of_mem _ hb)
      exact ⟨v', by rw [visit_of_none k he, ok_bind, hrun], hv'.cons_none he⟩
    | some e =>
      obtain ⟨v', hrun, hv'⟩ := visits_ok as ⟨e.pa :: v.kmem, v.pgdir.setPte a .zero⟩ has hnd
        fun b hb e' he' => by
          have hne : b ≠ a := fun hba => hnot (hba ▸ hb)
          rw [entry_setPte (entry_eq_some.1 he).1 ha (has b hb), if_neg hne] at he'
          exact hvalid b (mem_cons_of_mem _ hb) e' he'
      have hfree := visit_of_some he (hvalid a mem_cons_self e he)
      exact ⟨v', by rw [hfree, ok_bind, hrun], hv'.cons_some he ha has hnot⟩

/-- A visit of a page that `kfree` does not take. -/
theorem visits_error : ∀ (as : List ℕ) (v : Space), (∀ a ∈ as, Aligned a) → as.Nodup →
    (∃ a ∈ as, ∃ e, v.pgdir.entry a = some e ∧ ¬k.Valid e.pa) →
    as.foldlM (visit k) v = .error .kfree
  | [], _, _, _, ⟨_, hmem, _⟩ => by cases hmem
  | a :: as, v, hal, hnd, ⟨b, hmem, e, he, hbad⟩ => by
    obtain ⟨hnot, hnd⟩ := nodup_cons.1 hnd
    obtain ⟨ha, has⟩ := forall_mem_cons.1 hal
    rw [foldlM_cons]
    rcases mem_cons.1 hmem with rfl | hb
    · rw [visit_error he hbad, error_bind]
    · cases he' : v.pgdir.entry a with
      | none =>
        rw [visit_of_none k he', ok_bind]
        exact visits_error as v has hnd ⟨b, hb, e, he, hbad⟩
      | some e' =>
        by_cases hv : k.Valid e'.pa
        · have hne : b ≠ a := fun hba => hnot (hba ▸ hb)
          rw [visit_of_some he' hv, ok_bind]
          refine visits_error as _ has hnd ⟨b, hb, e, ?_, hbad⟩
          rw [entry_setPte (entry_eq_some.1 he').1 ha (has b hb), if_neg hne, he]
        · rw [visit_error he' hv, error_bind]

/-! ## deallocuvm -/

/-- `deallocuvm` with this loop. -/
def Word.deallocuvm (k : Kernel) (v : Space) (oldsz newsz : ℕ) :
    Option (Except Fault (ℕ × Space)) :=
  if newsz ≥ oldsz then some (.ok (oldsz, v))
  else (Word.deallocLoop k oldsz ROUNDS (PGROUNDUP newsz) v).map fun r => r.map fun v => (newsz, v)

theorem pgroundup_eq (h : newsz ≤ KERNBASE) : PGROUNDUP newsz = (newsz + 4095) / 4096 * 4096 := by
  simp only [PGROUNDUP, PGSIZE, KERNBASE] at *
  omega

theorem pagesUpTo_aligned (ha : a % 4096 = 0) (hold : oldsz ≤ KERNBASE) :
    ∀ b ∈ pagesUpTo a oldsz, Aligned b := by
  intro b hb
  obtain ⟨hmod, -, hlt⟩ := (mem_pagesUpTo ha).1 hb
  have hK : KERNBASE < 2 ^ 32 := by decide
  exact ⟨hmod, by omega⟩

theorem nodup_pagesUpTo (a oldsz : ℕ) : (pagesUpTo a oldsz).Nodup := by
  refine nodup_range.map fun i j hij => ?_
  simp only [PGSIZE] at hij
  omega

section

variable (h : newsz < oldsz) (hold : oldsz ≤ KERNBASE)

include h hold

theorem pgroundup_mod : PGROUNDUP newsz % 4096 = 0 := by
  rw [pgroundup_eq (h.le.trans hold)]
  omega

/-- The loop ends, and is a visit of every page. -/
theorem deallocuvm_word (k : Kernel) (v : Space) : Word.deallocuvm k v oldsz newsz =
    some ((pageByPage k v (PGROUNDUP newsz) oldsz).map fun v => (newsz, v)) := by
  have hR : ROUNDS = 1048575 + 1 := rfl
  have hK : KERNBASE = 2147483648 := rfl
  rw [Word.deallocuvm, if_neg (not_le.2 h), hR,
    deallocLoop_word hold _ _ v (pgroundup_mod h hold) (by omega)]
  rfl

theorem pageByPage_ok
    (hv : ∀ a ∈ pagesUpTo (PGROUNDUP newsz) oldsz, ∀ e, v.pgdir.entry a = some e → k.Valid e.pa) :
    ∃ v', pageByPage k v (PGROUNDUP newsz) oldsz = .ok v' ∧
      Cleared v (pagesUpTo (PGROUNDUP newsz) oldsz) v' :=
  visits_ok _ v (pagesUpTo_aligned (pgroundup_mod h hold) hold) (nodup_pagesUpTo ..) hv

theorem pageByPage_error
    (hv : ∃ a ∈ pagesUpTo (PGROUNDUP newsz) oldsz, ∃ e, v.pgdir.entry a = some e ∧
      ¬k.Valid e.pa) : pageByPage k v (PGROUNDUP newsz) oldsz = .error .kfree :=
  visits_error _ v (pagesUpTo_aligned (pgroundup_mod h hold) hold) (nodup_pagesUpTo ..) hv

end

/-- This is the loop of `deallocuvm`, with the contents of memory left out. -/
theorem deallocLoop_of_word (hold : oldsz ≤ KERNBASE) : ∀ (n a : ℕ) (s : Store)
    (r : Except Fault Space), Word.deallocLoop k oldsz n a s.space = some r →
      (s.deallocLoop k oldsz n a).map Store.space = r
  | 0, _, _, _, h => by cases h
  | n + 1, a, s, r, h => by
    have hP : PGSIZE = 4096 := rfl
    have hK : KERNBASE = 2147483648 := rfl
    rw [Word.deallocLoop, show s.space.pgdir = s.pgdir from rfl,
      show s.space.kmem = s.kmem from rfl] at h
    rw [Store.deallocLoop]
    split_ifs at h ⊢ with hlt
    swap
    · exact some.inj h
    have hnext : (a + PGSIZE) % 2 ^ 32 = a + PGSIZE := Nat.mod_eq_of_lt (by omega)
    rw [hnext] at h
    cases hw : s.pgdir.walk a with
    | none =>
      rw [hw] at h
      dsimp only at h ⊢
      rw [jump_eq (by omega)] at h
      rw [next_pgtab (by omega)]
      exact deallocLoop_of_word hold n _ s r h
    | some pte =>
      rw [hw] at h
      dsimp only at h ⊢
      split_ifs at h ⊢ with hp h0
      · exact some.inj h
      · unfold Phys.kfree
        cases hfree : kfree k s.kmem pte.pa with
        | error f =>
          rw [hfree] at h
          exact some.inj h
        | ok kmem =>
          rw [hfree] at h
          exact deallocLoop_of_word hold n _ _ r h
      · exact deallocLoop_of_word hold n _ _ r h

theorem deallocuvm_eq_pageByPage (h : newsz < oldsz) (hold : oldsz ≤ KERNBASE) (k : Kernel)
    (s : Store) : (s.deallocuvm k oldsz newsz).map (Prod.map id Store.space) =
      (pageByPage k s.space (PGROUNDUP newsz) oldsz).map fun v => (newsz, v) := by
  have hR : ROUNDS = 1048575 + 1 := rfl
  have hK : KERNBASE = 2147483648 := rfl
  have hloop := deallocLoop_of_word hold _ _ _ _
    (deallocLoop_word (k := k) hold 1048575 _ s.space (pgroundup_mod h hold) (by omega))
  rw [Store.deallocuvm, if_neg (not_le.2 h), hR]
  refine (map_bind_eq hloop (c := fun v => .ok (newsz, v)) fun _ => rfl).trans ?_
  cases pageByPage k s.space (PGROUNDUP newsz) oldsz <;> rfl

/-- A page that an entry has mapped is in the free list once, if all pages are distinct. -/
theorem Cleared.count_kmem {e : Pte} (hc : Cleared v as v') (hpages : v'.pages = v.pages)
    (hnd : v.pages.Nodup) (ha : a ∈ as) (hlt : a < KERNBASE) (he : v.pgdir.entry a = some e) :
    e.pa ∉ v.kmem ∧ v'.kmem.count e.pa = 1 := by
  have hnd' : v'.kmem.Nodup := by
    rw [← hpages] at hnd
    exact (Multiset.nodup_add.1 hnd).1
  refine ⟨fun hmem => ?_, count_eq_one_of_mem hnd' ?_⟩
  · exact Multiset.disjoint_left.1 (Multiset.nodup_add.1 hnd).2.2 hmem (entry_mem_pages he hlt)
  · rw [hc.kmem, mem_append, mem_reverse]
    exact Or.inl (mem_filterMap.2 ⟨a, ha, by rw [he]; rfl⟩)

/-- `deallocuvm` ends, and does the same as a visit of every page from `newsz` to `oldsz`. If
`kfree` takes the pages that are mapped there, each is freed once for every address that maps it,
and the entries are cleared and no others. In a table as the kernel builds them no page is mapped
twice, so that each page is freed exactly once. If `kfree` does not take one of the pages,
`deallocuvm` panics. -/
theorem deallocuvm_page_by_page (k : Kernel) (s : Store) {oldsz newsz : ℕ} (h : newsz < oldsz)
    (hold : oldsz ≤ KERNBASE) :
    Word.deallocuvm k s.space oldsz newsz =
        some ((s.deallocuvm k oldsz newsz).map (Prod.map id Store.space)) ∧
      (s.deallocuvm k oldsz newsz).map (Prod.map id Store.space) =
        (pageByPage k s.space (PGROUNDUP newsz) oldsz).map (fun v => (newsz, v)) ∧
      (s.Wf k → ∃ t, s.deallocuvm k oldsz newsz = .ok (newsz, t) ∧
        Cleared s.space (pagesUpTo (PGROUNDUP newsz) oldsz) t.space ∧
        ∀ a ∈ pagesUpTo (PGROUNDUP newsz) oldsz, ∀ e, s.pgdir.entry a = some e →
          e.pa ∉ s.kmem ∧ t.kmem.count e.pa = 1) ∧
      ((∀ a ∈ pagesUpTo (PGROUNDUP newsz) oldsz, ∀ e, s.pgdir.entry a = some e → k.Valid e.pa) →
        ∃ v', pageByPage k s.space (PGROUNDUP newsz) oldsz = .ok v' ∧
          Cleared s.space (pagesUpTo (PGROUNDUP newsz) oldsz) v') ∧
      ((∃ a ∈ pagesUpTo (PGROUNDUP newsz) oldsz, ∃ e, s.pgdir.entry a = some e ∧ ¬k.Valid e.pa) →
        pageByPage k s.space (PGROUNDUP newsz) oldsz = .error .kfree) := by
  refine ⟨by rw [deallocuvm_word h hold, deallocuvm_eq_pageByPage h hold],
    deallocuvm_eq_pageByPage h hold k s, fun hs => ?_, pageByPage_ok (v := s.space) h hold,
    pageByPage_error (v := s.space) h hold⟩
  have hlt : ∀ a ∈ pagesUpTo (PGROUNDUP newsz) oldsz, a < KERNBASE := fun a ha =>
    ((mem_pagesUpTo (pgroundup_mod h hold)).1 ha).2.2.trans_le hold
  obtain ⟨v', hv', hc⟩ := pageByPage_ok (v := s.space) h hold fun a ha e he =>
    hs.good.walk (entry_eq_some.1 he).1 (hlt a ha) (entry_eq_some.1 he).2
  have heq := deallocuvm_eq_pageByPage h hold k s
  obtain ⟨⟨r, t⟩, hrun, -, hr, hpages⟩ := (Store.deallocuvm_spec hold hs.good newsz).exists_ok
  rw [hrun, hv'] at heq
  obtain ⟨rfl, rfl⟩ := Prod.mk.inj (Except.ok.inj heq)
  exact ⟨t, hrun, hc, fun a ha e he => hc.count_kmem hpages hs.nodup ha (hlt a ha) he⟩

/-- The first process gives back its page. -/
theorem deallocuvm_page_by_page_init : ∃ s c e v',
    Sys.usualMain = .ok s ∧ s.proc Ptable.initproc = some c ∧
      c.pgdir.entry 0 = some e ∧
      Word.deallocuvm Sys.usualKernel ⟨s.kmem, c.pgdir⟩ PGSIZE 0 = some (.ok (0, v')) ∧
      e.pa ∉ s.kmem ∧ v'.kmem.count e.pa = 1 ∧ v'.pgdir.entry 0 = none := by
  obtain ⟨s, c, h, hinv, hcontig, hp, -, hsz, -⟩ := Sys.exists_main
  have hwf := hinv.wf hp fun _ => 0
  obtain ⟨e, hw, hpres⟩ := (hcontig _ c hp 0 ⟨rfl, by decide⟩ (by decide)).2 (by rw [hsz]; decide)
  have he : c.pgdir.entry 0 = some e := entry_eq_some.2 ⟨hw, hpres⟩
  have hmem : 0 ∈ pagesUpTo (PGROUNDUP 0) PGSIZE := by decide
  obtain ⟨hword, -, hok, -⟩ := deallocuvm_page_by_page Sys.usualKernel
    ⟨⟨s.kmem, fun _ => 0⟩, c.pgdir⟩ (show 0 < PGSIZE by decide) (by decide)
  obtain ⟨t, hrun, hc, hfree⟩ := hok hwf
  obtain ⟨hnot, hcount⟩ := hfree 0 hmem e he
  rw [hrun] at hword
  refine ⟨s, c, e, t.space, h, hp, he, hword, hnot, hcount, ?_⟩
  have hwalk := hc.walk 0 (by decide)
  rw [if_pos ⟨hmem, isSome_iff_exists.2 ⟨e, he⟩⟩] at hwalk
  rw [Pgdir.entry, hwalk]
  rfl

end Xv6.Vm
