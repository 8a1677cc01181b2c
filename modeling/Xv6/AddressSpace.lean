import Xv6.ExecCall
import Xv6.Runs

/-!
# Address spaces and the pages of the machine

What the calls do with memory. Every call keeps the places that pages are in (`call_ok`).

Two results follow for all runs. `pages_conserved` : every page is in exactly one place.
`user_memory_contiguous` : as long as no `growproc` has failed, the addresses below the size of a
process have pages and no others, so that no call panics.
-/

namespace Xv6.Vm.Sys

open Function Finset Ptable List Option

variable {k : Kernel} {s t : Sys} {p : ProcId} {c : Proc} {sz : ℕ} {u : Store}

/-! ## Calls -/

/-- `fork` panics at a hole of the parent only. -/
theorem fork_ok (h : Inv k s) (hp : s.proc p = some c) :
    Outcome (s.fork k p c) (c.pgdir.Hole c.sz) fun r =>
      Inv k r.2 ∧ (s.Contig → r.2.Contig) := by
  unfold fork
  cases hf : (List.finRange NPROC).find? fun q => (s.proc q).isNone with
  | none => exact outcome_ok ⟨h, id⟩
  | some np =>
    have hnp : s.proc np = none := by simpa using List.find?_some hf
    cases hk : s.kmem with
    | nil => exact outcome_ok ⟨h, id⟩
    | cons kstack kmem =>
      dsimp only [kalloc]
      obtain ⟨hsz, -⟩ := h.below p c hp
      have hvalid : ∀ pg ∈ kstack :: kmem, k.Valid pg := fun pg hpg => h.valid (.inl (hk ▸ hpg))
      refine (Store.copyuvm_spec ((h.wf hp s.mem).tail hk) hsz.le).bind ?_
      rintro ⟨o, m⟩ ⟨-, ⟨ho, hk₁, -⟩ | ⟨d, ho, hk₁, hc, -⟩⟩
      · dsimp only at ho hk₁
        subst ho
        dsimp only
        rw [Phys.kfree_of_valid (hvalid kstack mem_cons_self)]
        refine outcome_ok ⟨h.setKmem ?_, id⟩
        rw [hk, ← Multiset.cons_coe, hk₁, Multiset.cons_coe]
      · dsimp only at ho hk₁
        subst ho
        refine outcome_ok ⟨h.setProc ?_ fun c' hc' => ?_, fun hs => hs.setProc fun c' hc' => ?_⟩
        · rw [hnp, hk, ← Multiset.cons_coe, ← hk₁, procPages, procPages, ← Multiset.singleton_add]
          abel
        · obtain rfl := some.inj hc'
          exact ⟨hsz, hc.below⟩
        · obtain rfl := some.inj hc'
          exact hc

/-- `fork` makes a child if there is a free entry in the table and there is enough memory. -/
theorem fork_child (h : Inv k s) (hp : s.proc p = some c) (hc : c.pgdir.Contig c.sz)
    (hfree : ∃ q, s.proc q = none) (hroom : 515 + growNeed 0 c.sz ≤ s.kmem.length) :
    ∃ np d t, s.fork k p c = .ok (true, t) ∧ s.proc np = none ∧
      t.proc np = some ⟨s.kmem.headD 0, d, c.sz, p, false⟩ := by
  obtain ⟨q, hq⟩ := hfree
  obtain ⟨np, hnp⟩ : ∃ np, (List.finRange NPROC).find? (fun q => (s.proc q).isNone) = some np := by
    rw [← isSome_iff_exists, List.find?_isSome]
    exact ⟨q, mem_finRange q, by rw [hq]; rfl⟩
  have hnone : s.proc np = none := by simpa using List.find?_some hnp
  unfold fork
  rw [hnp]
  cases hk : s.kmem with
  | nil => simp [hk] at hroom
  | cons kstack kmem =>
    rw [hk, length_cons] at hroom
    have hsz := (h.below p c hp).1.le
    obtain ⟨d, m, hrun⟩ := Store.copyuvm_some ((h.wf hp s.mem).tail hk) hsz hc
      (by dsimp only; omega)
    dsimp only [kalloc]
    rw [hrun, ok_bind]
    exact ⟨np, d, _, rfl, hnone, update_self np _ s.proc⟩

/-- A process gets an address space made of its own pages and free ones. -/
theorem Inv.setSpace (h : Inv k s) (hp : s.proc p = some c)
    (hu : u.space.pages = (s.kmem : Multiset ℕ) + c.pgdir.pages) (hsz : sz < KERNBASE)
    (hb : u.pgdir.Below sz) : Inv k (s.setSpace p c sz u) := by
  refine h.setProc ?_ fun c' hc' => ?_
  · rw [hp, procPages, procPages]
    dsimp only
    rw [add_left_comm, add_left_comm (s.kmem : Multiset ℕ), ← hu]
    rfl
  · obtain rfl := some.inj hc'
    exact ⟨hsz, hb⟩

theorem Contig.setSpace (h : s.Contig) (hc : u.pgdir.Contig sz) :
    (s.setSpace p c sz u).Contig := by
  refine h.setProc fun c' hc' => ?_
  obtain rfl := some.inj hc'
  exact hc

/-- What `growproc` does with the pages of a process. -/
theorem growproc_pages (hu : u.Wf k) (hsz : sz < KERNBASE) (hb : u.pgdir.Below sz) (n : Int32) :
    Outcome (u.growproc k sz n) (fun _ => False) fun r =>
      r.2.space.pages = u.space.pages ∧ r.1.getD sz < KERNBASE ∧ r.2.pgdir.Below (r.1.getD sz) ∧
      (r.1.isSome = true → u.pgdir.Contig sz → r.2.pgdir.Contig (r.1.getD sz)) := by
  unfold Store.growproc
  dsimp only
  generalize ((sz + n.toInt) % 2 ^ 32).toNat = newsz
  by_cases hpos : 0 < n
  · rw [if_pos hpos]
    refine (Store.allocuvm_spec hu hb newsz).bind ?_
    rintro ⟨r, t⟩ ⟨-, hg⟩
    dsimp only at hg ⊢
    have hbelow : t.pgdir.Below (max sz newsz) := fun b hba hbk hpr => by
      rcases hg.present with ⟨-, -, hb'⟩ | ⟨-, hb'⟩
      · rcases (hb' b hba).1 hpr with h' | h'
        · have := hb b hba hbk h'
          omega
        · omega
      · have := hb b hba hbk ((hb' b hba).1 hpr)
        omega
    by_cases hr : r = 0
    · rw [if_pos hr]
      refine outcome_ok ⟨hg.pages, hsz, fun b hba hbk hpr => ?_, fun hf => by cases hf⟩
      rcases hg.present with ⟨hmax, -⟩ | ⟨-, hb'⟩
      · have := hbelow b hba hbk hpr
        omega
      · exact hb b hba hbk ((hb' b hba).1 hpr)
    · rw [if_neg hr]
      obtain ⟨rfl, hnew, -⟩ := hg.present.resolve_right fun h0 => hr h0.1
      exact outcome_ok ⟨hg.pages, max_lt hsz hnew, hbelow, fun _ hc => (hg.contig hr hc hsz).2.2⟩
  rw [if_neg hpos]
  by_cases hneg : n < 0
  · rw [if_pos hneg]
    refine (Store.deallocuvm_spec hsz.le hu.good newsz).bind ?_
    rintro ⟨r, t⟩ ⟨hfreed, hr, ht⟩
    dsimp only at hfreed hr ht ⊢
    have hbelow : ∀ b, Aligned b → b < KERNBASE → t.pgdir.present b → b < sz ∧ b < newsz := by
      intro b hba hbk hpr
      obtain ⟨hpr, hn⟩ := (hfreed.present hba).1 hpr
      have := hb b hba hbk hpr
      omega
    by_cases hr0 : r = 0
    · rw [if_pos hr0]
      exact outcome_ok ⟨ht, hsz, fun b hba hbk hpr => (hbelow b hba hbk hpr).1,
        fun hf => by cases hf⟩
    · rw [if_neg hr0]
      refine outcome_ok ⟨ht, lt_of_le_of_lt (hr.trans_le (min_le_left _ _)) hsz,
        fun b hba hbk hpr => ?_, fun _ hc b hba hbk => ?_⟩
      · exact (lt_min (hbelow b hba hbk hpr).1 (hbelow b hba hbk hpr).2).trans_eq hr.symm
      · rw [hfreed.present hba, hc b hba hbk, getD_some]
        omega
  · rw [if_neg hneg]
    exact outcome_ok ⟨rfl, hsz, hb, fun _ hc => hc⟩

/-- `growproc` leaves no holes unless it fails. -/
theorem growproc_ok (h : Inv k s) (hp : s.proc p = some c) (n : Int32) :
    Outcome (s.growproc k p c n) (fun _ => False) fun r =>
      Inv k r.2 ∧ (r.1 = true → s.Contig → r.2.Contig) := by
  obtain ⟨hsz, hb⟩ := h.below p c hp
  refine (growproc_pages (h.wf hp s.mem) hsz hb n).bind fun r hr => outcome_ok ?_
  exact ⟨h.setSpace hp hr.1 hr.2.1 hr.2.2.1,
    fun hok hs => hs.setSpace (hr.2.2.2 hok (hs p c hp))⟩

/-- `exec` faults only through a null pointer. -/
theorem sysExec_ok (h : Inv k s) (hp : s.proc p = some c) {null : Pte} {file : Option Contents}
    {path : CString} {argv : List CString} :
    Outcome (s.sysExec k p c null file path argv) (fun f => f = .null) fun r =>
      Inv k r.2 ∧ (s.Contig → r.2.Contig) := by
  have hspec := @exec_spec k s.toPhys ⟨c.pgdir, c.sz, [], 0, 0⟩ (h.wf hp s.mem) null file path argv
  refine (hspec.mono (fun _ hf => hf.1) fun _ h => h).bind ?_
  rintro r (hf | ⟨-, data, elf, sz, t, ptrs, -, hr⟩)
  · obtain ⟨hsz, hb⟩ := h.below p c hp
    have hpages : (Store.space ⟨r.phys, c.pgdir⟩).pages = (s.kmem : Multiset ℕ) + c.pgdir.pages :=
      congrArg (· + c.pgdir.pages) hf.phys.kmem
    rw [hf.proc]
    exact outcome_ok ⟨h.setSpace hp hpages hsz hb, fun hs => hs.setSpace (hs p c hp)⟩
  · have hstack := hr.built.stack
    exact outcome_ok ⟨h.setSpace hp hr.pages hstack.lt hstack.contig.below,
      fun hs => hs.setSpace hstack.contig⟩

theorem store_ok (h : Inv k s) {va : ℕ} {b : UInt8} :
    Outcome (s.store c va b) (fun _ => False) fun r => Inv k r.2 ∧ (s.Contig → r.2.Contig) := by
  unfold store
  split
  · exact outcome_ok ⟨h, id⟩
  · split_ifs
    · exact outcome_ok ⟨⟨h.places, h.below⟩, id⟩
    · exact outcome_ok ⟨h, id⟩

/-- The table after `exit`, slot by slot. -/
theorem exit_ok (h : Inv k s) (hp : s.proc p = some c) :
    Outcome (s.exit p c) (fun f => f = .initExiting) fun r =>
      Inv k r.2 ∧ (s.Contig → r.2.Contig) := by
  unfold exit
  split_ifs
  · exact outcome_error rfl
  -- every process keeps its memory
  have hsame : ∀ q c', (if q = p then some { c with zombie := true }
      else (s.proc q).map fun c => if c.parent = p then { c with parent := initproc } else c) =
        some c' →
      ∃ c₀, s.proc q = some c₀ ∧ c₀.kstack = c'.kstack ∧ c₀.pgdir = c'.pgdir ∧ c₀.sz = c'.sz := by
    intro q c' hq
    split_ifs at hq with hqp
    · obtain rfl := some.inj hq
      exact ⟨c, hqp ▸ hp, rfl, rfl, rfl⟩
    · obtain ⟨c₀, hc₀, rfl⟩ := map_eq_some_iff.1 hq
      refine ⟨c₀, hc₀, ?_⟩
      split_ifs <;> exact ⟨rfl, rfl, rfl⟩
  have hpages : ∀ q, procPages (if q = p then some { c with zombie := true }
      else (s.proc q).map fun c => if c.parent = p then { c with parent := initproc } else c) =
        procPages (s.proc q) := by
    intro q
    split_ifs with hqp
    · rw [hqp, hp]
      rfl
    · cases s.proc q with
      | none => rfl
      | some c₀ =>
        rw [map_some]
        split_ifs <;> rfl
  refine outcome_ok ⟨⟨?_, fun q c' hq => ?_⟩, fun hs q c' hq => ?_⟩
  · rw [← h.places, places_eq, places_eq]
    dsimp only
    rw [total_congr hpages]
  · obtain ⟨c₀, hc₀, -, hd, hz⟩ := hsame q c' hq
    rw [← hd, ← hz]
    exact h.below q c₀ hc₀
  · obtain ⟨c₀, hc₀, -, hd, hz⟩ := hsame q c' hq
    rw [← hd, ← hz]
    exact hs q c₀ hc₀

/-- `wait` frees the page directory of a zombie. -/
theorem wait_ok (h : Inv k s) :
    Outcome (s.wait k p) (fun _ => False) fun r => Inv k r.2 ∧ (s.Contig → r.2.Contig) := by
  unfold wait
  cases (List.finRange NPROC).find? (s.isZombie p) with
  | none => exact outcome_ok ⟨h, id⟩
  | some q =>
    dsimp only
    cases hq : s.proc q with
    | none => exact outcome_ok ⟨h, id⟩
    | some c =>
      have hks : k.Valid c.kstack :=
        h.valid (.inr (mem_used hq (Multiset.mem_add.2 (.inl (Multiset.mem_singleton_self _)))))
      dsimp only
      rw [Phys.kfree_of_valid hks, ok_bind]
      have hgood : Space.Good k ⟨c.kstack :: s.kmem, c.pgdir⟩ := by
        intro pg hpg
        rw [Space.pages_cons ⟨s.kmem, c.pgdir⟩] at hpg
        rcases Multiset.mem_cons.1 hpg with rfl | hpg
        · exact hks
        · exact h.good hq pg hpg
      refine (Store.freevm_spec hgood).bind fun m hk => ?_
      refine outcome_ok ⟨h.setProc ?_ (fun _ h => by cases h),
        fun hs => hs.setProc fun _ h => by cases h⟩
      rw [hk.2, hq, Store.space, Space.pages, procPages, procPages, ← Multiset.cons_coe,
        ← Multiset.singleton_add]
      abel

/-- A pipe lives in a page of its own. -/
theorem pipealloc_ok (h : Inv k s) {files : Bool} :
    Outcome (s.pipealloc files) (fun _ => False) fun r =>
      Inv k r.2 ∧ (s.Contig → r.2.Contig) := by
  unfold pipealloc
  split_ifs
  · cases hk : s.kmem with
    | nil => exact outcome_ok ⟨h, id⟩
    | cons pg kmem =>
      refine outcome_ok ⟨⟨?_, h.below⟩, id⟩
      rw [← h.places, places_eq, places_eq]
      dsimp only
      rw [hk, List.map_cons, ← Multiset.cons_coe, ← Multiset.cons_coe, ← Multiset.singleton_add,
        ← Multiset.singleton_add]
      abel
  · exact outcome_ok ⟨h, id⟩

/-- The second end to be closed frees the page. -/
theorem pipeclose_ok (h : Inv k s) {i : ℕ} {writable : Bool} :
    Outcome (s.pipeclose k i writable) (fun _ => False) fun r =>
      Inv k r.2 ∧ (s.Contig → r.2.Contig) := by
  unfold pipeclose
  cases hi : s.pipe[i]? with
  | none => exact outcome_ok ⟨h, id⟩
  | some x =>
    obtain ⟨hlt, hx⟩ := List.getElem?_eq_some_iff.1 hi
    dsimp only
    have hpg : (if writable = true then { x with writeopen := false }
        else { x with readopen := false }).pg = x.pg := by split_ifs <;> rfl
    generalize (if writable = true then { x with writeopen := false }
        else { x with readopen := false }) = x' at hpg
    by_cases hclosed : x'.readopen = false ∧ x'.writeopen = false
    · rw [if_pos hclosed, hpg]
      have hmem : x.pg ∈ s.used := by
        refine Multiset.mem_add.2 (.inl (Multiset.mem_add.2 (.inr ?_)))
        exact mem_map.2 ⟨x, hx ▸ getElem_mem hlt, rfl⟩
      rw [Phys.kfree_of_valid (h.valid (.inr hmem))]
      refine outcome_ok ⟨⟨?_, h.below⟩, id⟩
      have hperm : ((s.pipe.map Pipe.pg : List ℕ) : Multiset ℕ) =
          x.pg ::ₘ ((s.pipe.eraseIdx i).map Pipe.pg : List ℕ) := by
        rw [Multiset.cons_coe, ← List.map_cons, Multiset.coe_eq_coe, ← hx]
        exact ((getElem_cons_eraseIdx_perm hlt).map _).symm
      rw [← h.places, places_eq, places_eq, hperm]
      dsimp only
      rw [← Multiset.cons_coe, ← Multiset.singleton_add, ← Multiset.singleton_add]
      abel
    · rw [if_neg hclosed]
      refine outcome_ok ⟨⟨?_, h.below⟩, id⟩
      have hmap : (s.pipe.set i x').map Pipe.pg = s.pipe.map Pipe.pg := by
        rw [map_set, hpg, ← hx, ← map_set, set_getElem_self]
      rw [← h.places, places_eq, places_eq]
      dsimp only
      rw [hmap]

/-! ## Runs -/

theorem withProc_eq_some {f : Proc → Except Fault (Bool × Sys)} {m : Except Fault (Bool × Sys)}
    (h : s.withProc p f = some m) : ∃ c, s.proc p = some c ∧ m = f c := by
  unfold withProc at h
  cases hp : s.proc p with
  | none => simp [hp] at h
  | some c =>
    simp only [hp] at h
    split_ifs at h
    exact ⟨c, rfl, (some.inj h).symm⟩

/-- A call that returns has not failed to grow or shrink a process. -/
def Act.Grows (a : Act) (ok : Bool) : Prop := ∀ p n, a = .growproc p n → ok = true

/-- The faults of a call. -/
inductive Stops (s : Sys) : Fault → Prop
  | null : Stops s .null
  | initExiting : Stops s .initExiting
  | hole {p : ProcId} {c : Proc} {f : Fault} (hp : s.proc p = some c)
      (hf : c.pgdir.Hole c.sz f) : Stops s f

/-- The specification of every call. -/
theorem call_ok (h : Inv k s) {a : Act} {m : Except Fault (Bool × Sys)}
    (hm : s.call k a = some m) :
    Outcome m (Stops s) fun r => Inv k r.2 ∧ (a.Grows r.1 → s.Contig → r.2.Contig) := by
  cases a with
  | fork p =>
    obtain ⟨c, hp, rfl⟩ := withProc_eq_some hm
    exact (fork_ok h hp).mono (fun _ hf => .hole hp hf) fun r hr => ⟨hr.1, fun _ => hr.2⟩
  | exec p null file path argv =>
    obtain ⟨c, hp, rfl⟩ := withProc_eq_some hm
    exact (sysExec_ok h hp).mono (fun _ hf => hf ▸ .null) fun r hr => ⟨hr.1, fun _ => hr.2⟩
  | store p va b =>
    obtain ⟨c, -, rfl⟩ := withProc_eq_some hm
    exact (store_ok h).weaken.imp fun r hr => ⟨hr.1, fun _ => hr.2⟩
  | growproc p n =>
    obtain ⟨c, hp, rfl⟩ := withProc_eq_some hm
    exact (growproc_ok h hp n).weaken.imp fun r hr => ⟨hr.1, fun hg => hr.2 (hg p n rfl)⟩
  | exit p =>
    obtain ⟨c, hp, rfl⟩ := withProc_eq_some hm
    exact (exit_ok h hp).mono (fun _ hf => hf ▸ .initExiting) fun r hr => ⟨hr.1, fun _ => hr.2⟩
  | wait p =>
    obtain ⟨c, -, rfl⟩ := withProc_eq_some hm
    exact (wait_ok h).weaken.imp fun r hr => ⟨hr.1, fun _ => hr.2⟩
  | pipealloc files =>
    obtain rfl := some.inj hm
    exact (pipealloc_ok h).weaken.imp fun r hr => ⟨hr.1, fun _ => hr.2⟩
  | pipeclose i writable =>
    obtain rfl := some.inj hm
    exact (pipeclose_ok h).weaken.imp fun r hr => ⟨hr.1, fun _ => hr.2⟩

theorem step_eq_some {a : Act} (h : step k s a = some t) :
    ∃ ok, s.call k a = some (.ok (ok, t)) := by
  unfold step at h
  split at h
  · next ok t' hc =>
    obtain rfl := some.inj h
    exact ⟨ok, hc⟩
  · cases h

theorem Inv.step (h : Inv k s) {a : Act} (ha : Sys.step k s a = some t) : Inv k t := by
  obtain ⟨ok, hc⟩ := step_eq_some ha
  exact ((call_ok h hc).of_ok rfl).1

/-- No `growproc` fails. -/
def GrowsOk (k : Kernel) (s : Sys) (a : Act) : Prop :=
  ∀ ok t, s.call k a = some (.ok (ok, t)) → a.Grows ok

theorem Contig.step (h : Inv k s) (hc : s.Contig) {a : Act} (ha : Sys.step k s a = some t)
    (hok : GrowsOk k s a) : t.Contig := by
  obtain ⟨ok, hcall⟩ := step_eq_some ha
  exact ((call_ok h hcall).of_ok rfl).2 (hok ok t hcall) hc

/-- With contiguous memory there is no hole to stop at. -/
theorem Contig.not_hole (h : Inv k s) (hc : s.Contig) {f : Fault} (hf : Stops s f) :
    f = .null ∨ f = .initExiting := by
  cases hf with
  | null => exact .inl rfl
  | initExiting => exact .inr rfl
  | hole hp hf => exact absurd hf ((hc _ _ hp).not_hole (h.below _ _ hp).1.le)

variable {ncpu : ℕ} {initcode : List UInt8} {mem : ℕ → UInt8} {s₀ : Sys} {as : List Act}

/-- The first process calls `sbrk(4096)` and forks. -/
def growAndFork : List Act := [.growproc initproc 4096, .fork initproc]

/-- Its child has two pages. -/
theorem exists_run : ∃ s₀ s np c, usualMain = .ok s₀ ∧
    Xv6.exec (step usualKernel) s₀ growAndFork = some s ∧
    Along (step usualKernel) (GrowsOk usualKernel) s₀ growAndFork ∧
    s.proc np = some c ∧ c.parent = initproc ∧ c.sz = 2 * PGSIZE := by
  obtain ⟨s₀, c, h₀, hinv, hc, hp, hz, hsz, hlen, hnone⟩ := exists_main
  obtain ⟨⟨r, v⟩, halloc, -, hg⟩ :=
    (Store.allocuvm_spec (hinv.wf hp s₀.mem) (hc _ c hp).below (2 * PGSIZE)).exists_ok
  obtain ⟨hr, hlen'⟩ := hg.room (by decide) (by
    rw [hsz]
    exact le_trans (by decide) hlen)
  dsimp only at hr hlen'
  rw [hsz] at hr hlen'
  obtain rfl : r = 2 * PGSIZE := hr
  have hgrow : s₀.growproc usualKernel initproc c 4096 =
      .ok (true, s₀.setSpace initproc c (2 * PGSIZE) v) := by
    have hnew : ((c.sz + (4096 : Int32).toInt) % 2 ^ 32).toNat = 2 * PGSIZE := by
      rw [hsz]
      decide
    rw [growproc, Store.growproc, hnew, if_pos (by decide)]
    dsimp only
    rw [halloc]
    rfl
  obtain ⟨hinv₁, hcon₁⟩ := (growproc_ok hinv hp 4096).of_ok hgrow
  have hp₁ : (s₀.setSpace initproc c (2 * PGSIZE) v).proc initproc =
      some { c with pgdir := v.pgdir, sz := 2 * PGSIZE } := update_self initproc _ s₀.proc
  obtain ⟨q, hq⟩ : ∃ q : ProcId, q ≠ initproc := ⟨⟨1, by decide⟩, by decide⟩
  have hfree : (s₀.setSpace initproc c (2 * PGSIZE) v).proc q = none := by
    simp [setSpace, hq, hnone q hq]
  have hroom : 515 + growNeed 0 (2 * PGSIZE) ≤
      (s₀.setSpace initproc c (2 * PGSIZE) v).kmem.length := by
    have hneed : growNeed PGSIZE (2 * PGSIZE) = 4 := by decide
    have hneed' : growNeed 0 (2 * PGSIZE) = 6 := by decide
    rw [hneed] at hlen'
    dsimp only [setSpace, Store.space] at hlen' ⊢
    omega
  dsimp only at hinv₁ hcon₁
  generalize s₀.setSpace initproc c (2 * PGSIZE) v = s₁ at *
  obtain ⟨np, d, s, hfork, -, hchild⟩ :=
    fork_child hinv₁ hp₁ (hcon₁ rfl hc _ _ hp₁) ⟨_, hfree⟩ hroom
  have hcall₁ : s₀.call usualKernel (.growproc initproc 4096) = some (.ok (true, s₁)) := by
    simp [call, withProc, hp, hz, hgrow]
  have hcall₂ : s₁.call usualKernel (.fork initproc) = some (.ok (true, s)) := by
    rw [call, withProc, hp₁]
    exact (if_neg (by simp [hz])).trans (congrArg some hfork)
  refine ⟨s₀, s, np, _, h₀, ?_, ⟨?_, fun t ht => ⟨?_, fun _ _ => trivial⟩⟩, hchild, rfl, rfl⟩
  · rw [growAndFork, exec_cons_eq_some]
    refine ⟨_, by rw [step, hcall₁], exec_cons_eq_some.2 ⟨s, by rw [step, hcall₂], rfl⟩⟩
  · intro ok' t' ht' p n _
    rw [hcall₁] at ht'
    cases ht'
    rfl
  · intro ok' t' _ p n hpn
    cases hpn

/-- Every page that the allocator started with is in exactly one place : on the free list or in
use. -/
theorem pages_conserved (h₀ : main k ncpu initcode mem = .ok s₀)
    (hrun : Xv6.exec (step k) s₀ as = some s) :
    (∀ pg ∈ k.mem, s.places.count pg = 1) ∧ (∀ pg ∈ s.places, pg ∈ k.mem) ∧
    ∀ pg kmem, kalloc s.kmem = some (pg, kmem) → pg ∉ s.used := by
  have h := exec_invariant_all (Inv k) (fun _ _ _ hs ha => hs.step ha)
    ((main_ok _ _ _).of_ok h₀).1.1
    hrun
  have hnodup : s.places.Nodup := by
    rw [h.places]
    exact k.nodup_mem
  refine ⟨fun pg hpg => ?_, fun pg hpg => ?_, fun pg kmem hk hu => ?_⟩
  · exact Multiset.count_eq_one_of_mem hnodup (by rw [h.places]; exact hpg)
  · rw [h.places] at hpg
    exact hpg
  · cases hkm : s.kmem with
    | nil => simp [hkm, kalloc] at hk
    | cons pg' kmem' =>
      rw [hkm, kalloc] at hk
      obtain ⟨rfl, rfl⟩ := Prod.mk.inj (some.inj hk)
      have hdisj := (Multiset.nodup_add.1 hnodup).2.2
      refine Multiset.disjoint_left.1 hdisj ?_ hu
      rw [hkm]
      exact mem_cons_self ..

/-- A page after the first process has grown and forked, with its child. -/
theorem pages_conserved_fork : ∃ s₀ s np c, usualMain = .ok s₀ ∧
    Xv6.exec (step usualKernel) s₀ growAndFork = some s ∧
    s.proc np = some c ∧ c.parent = initproc ∧ s.places.count (4 * 1024 * 1024) = 1 := by
  obtain ⟨s₀, s, np, c, h₀, hrun, -, hp, hparent, -⟩ := exists_run
  refine ⟨s₀, s, np, c, h₀, hrun, hp, hparent, (pages_conserved h₀ hrun).1 _
    (mem_append_right _ ?_)⟩
  exact List.mem_map.2 ⟨0, List.mem_range.2 (by decide), by decide⟩

/-- User memory is contiguous as long as every `growproc` returns 0. Then no call panics, except
for an `exit` of the first process, and the only other way to stop is the null pointer of
`uva2ka`. -/
theorem user_memory_contiguous (h₀ : main k ncpu initcode mem = .ok s₀)
    (hrun : Xv6.exec (step k) s₀ as = some s) (hgrow : Along (step k) (GrowsOk k) s₀ as) :
    (∀ p c, s.proc p = some c → c.sz < KERNBASE ∧
      ∀ a, a % PGSIZE = 0 → a < KERNBASE → (c.pgdir.present a ↔ a < c.sz)) ∧
    ∀ a f, s.call k a = some (.error f) → f = .null ∨ f = .initExiting := by
  have h := exec_invariant (fun s => Inv k s ∧ s.Contig)
    (fun _ _ _ hs hok ha => ⟨hs.1.step ha, hs.2.step hs.1 ha hok⟩) ((main_ok _ _ _).of_ok h₀).1
    hgrow hrun
  refine ⟨fun p c hp => ⟨(h.1.below p c hp).1, fun a ha hk => ?_⟩, fun a f hcall => ?_⟩
  · exact h.2 p c hp a ⟨ha, hk.trans (by decide)⟩ hk
  · exact h.2.not_hole h.1 (outcome_error_iff.1 (call_ok h.1 hcall))

/-- The child of the first process, which has grown, has both pages. -/
theorem user_memory_contiguous_fork : ∃ s₀ s np c, usualMain = .ok s₀ ∧
    Xv6.exec (step usualKernel) s₀ growAndFork = some s ∧
    s.proc np = some c ∧ c.parent = initproc ∧ c.sz = 2 * PGSIZE ∧ c.pgdir.present PGSIZE ∧
    ¬c.pgdir.present (2 * PGSIZE) := by
  obtain ⟨s₀, s, np, c, h₀, hrun, hgrow, hp, hparent, hsz⟩ := exists_run
  obtain ⟨-, hcontig⟩ := (user_memory_contiguous h₀ hrun hgrow).1 np c hp
  refine ⟨s₀, s, np, c, h₀, hrun, hp, hparent, hsz, ?_, ?_⟩
  · rw [hcontig _ (by decide) (by decide), hsz]
    decide
  · rw [hcontig _ (by decide) (by decide), hsz]
    decide

end Xv6.Vm.Sys
