import Xv6.UmallocRules
import Xv6.MemoryCalls

/-!
# Programs that use the allocator

What holds along every run of a program that calls `malloc` and `free` and writes to its blocks.
The free list is well formed after every call and every call returns (`free_list_well_formed`),
as long as every request to `sbrk` is below `2 ^ 31`. If the number of bytes does not wrap
either, `malloc` returns a block of that size or 0 (`malloc_enough`). Otherwise it may return
less, or make the process smaller (`malloc_wraps`).

The size of the process changes as in `growproc` of the kernel (`growproc_sbrk`).
-/

namespace Xv6.Umalloc

open Region List Option

variable {t : State} {nbytes : UInt32} {r : ℕ}

variable {base start u q : ℕ} {s : Heap} {l : List Region} {x : Region}

/-- A program before its first call, or with a free list. -/
def Begun (base start : ℕ) (s : Heap) (l : List Region) : Prop :=
  s.freep = 0 ∧ s.live = [] ∧ s.sz = start ∧ l = [] ∨ Inv base start s l

/-- The state in which the loop of `malloc` starts. -/
def ready (base : ℕ) (s : State) : State :=
  if s.freep = 0 then { s with mem := setSize (setPtr s.mem base base) base 0, freep := base }
  else s

theorem malloc_eq (base : ℕ) (room : Bool) (s : State) (nbytes : UInt32) :
    malloc base room s nbytes = if (ready base s).Maps (ready base s).freep 4 then
      Umalloc.mallocLoop room (nunits nbytes) ROUNDS (ready base s).freep
        (ptr (ready base s).mem (ready base s).freep) (ready base s) else none := rfl

/-- A call that returns has come through the loop. -/
theorem loop_of_malloc {room : Bool} {s : State} (h : malloc base room s nbytes = some (r, t)) :
    Umalloc.mallocLoop room (nunits nbytes) ROUNDS (ready base s).freep
      (ptr (ready base s).mem (ready base s).freep) (ready base s) = some (r, t) := by
  rw [malloc_eq] at h
  split_ifs at h
  exact h

theorem ready_sz (base : ℕ) (s : State) : (ready base s).sz = s.sz := by
  rw [ready]
  split_ifs <;> rfl

theorem ready_asked (base : ℕ) (s : State) : (ready base s).asked = s.asked := by
  rw [ready]
  split_ifs <;> rfl

theorem Begun.ready (h : Begun base start s l) (hbase : 0 < base) (hstart : base + 8 ≤ start)
    (hend : start < 2 ^ 32) : Inv base start ⟨ready base s.toState, s.live⟩ l := by
  rcases h with ⟨hf, hlive, hsz, rfl⟩ | h
  · have hptr : ptr (setSize (setPtr s.mem base base) base 0) base = base := by
      rw [ptr_setSize, ptr_setPtr, Nat.mod_eq_of_lt (by omega)]
    have hlen : len (setSize (setPtr s.mem base base) base 0) base = 0 := by
      rw [len, size_setSize]
      rfl
    rw [Umalloc.ready, if_pos hf, hlive]
    refine ⟨⟨hlen, hptr, trivial⟩, ⟨_, mem_cons_self, rfl⟩, pairwise_singleton _ _, ?_,
      fun b hb => absurd hb not_mem_nil, ?_⟩
    · change Tiles start s.sz []
      rw [hsz]
      exact Tiles.nil
    · change s.sz < 2 ^ 32
      omega
  · rw [Umalloc.ready, if_neg (h.freep_ne_zero hbase)]
    exact h

theorem nunits_pos (nbytes : UInt32) : 0 < nunits nbytes := Nat.succ_pos _

/-- `malloc` returns. -/
theorem Begun.malloc (h : Begun base start s l) (hbase : 0 < base) (hstart : base + 8 ≤ start)
    (hend : start < 2 ^ 32) (nbytes : UInt32) (room : Bool)
    (hreq : (∀ b ∈ l, b.len < 8 * nunits nbytes) → request (nunits nbytes) < 2 ^ 31) :
    ∃ r t, Umalloc.malloc base room s.toState nbytes = some (r, t) ∧
      Returned base start s (nunits nbytes) r t := by
  have hready := h.ready hbase hstart hend
  obtain ⟨r, t, hloop, hret⟩ :=
    hready.mallocLoop hbase hstart (nunits_pos nbytes) hreq room
  have hfreep : (Umalloc.ready base s.toState).Maps (Umalloc.ready base s.toState).freep 4 :=
    (Nat.add_le_add_left (by decide) _).trans (hready.maps_iterate hstart 0)
  refine ⟨r, t, ?_, ?_, ?_, hret.inv⟩
  · rw [malloc_eq, if_pos hfreep]
    exact hloop
  · rw [← ready_sz base s.toState]
    exact hret.sz_le
  · rw [← ready_asked base s.toState]
    exact hret.asked

/-- What has been returned, when all requests were below `2 ^ 31`. -/
theorem Begun.returned {room : Bool} (h : Begun base start s l) (hbase : 0 < base)
    (hstart : base + 8 ≤ start) (hend : start < 2 ^ 32)
    (hm : Umalloc.malloc base room s.toState nbytes = some (r, t))
    (hreq : ∀ n ∈ t.asked, n < 2 ^ 31) :
    Returned base start s (nunits nbytes) r t := by
  have hready := h.ready hbase hstart hend
  obtain ⟨r', t', hm', hret⟩ := h.malloc hbase hstart hend nbytes room fun hfit =>
    hreq _ (hready.request_mem hstart (nunits_pos nbytes) hfit (loop_of_malloc hm))
  rw [hm] at hm'
  obtain ⟨rfl, rfl⟩ := Prod.mk.inj (some.inj hm')
  exact hret

theorem Returned.got (h : Returned base start s u r t) :
    ∃ l, Inv base start (Heap.got s.live (r, t)) l := by
  rw [Heap.got]
  rcases h.inv with ⟨rfl, l, hinv⟩ | ⟨x, l, rfl, hinv⟩
  · exact ⟨l, hinv⟩
  · refine ⟨l, ?_⟩
    have hlen : 8 * size t.mem x = 8 * u := hinv.header _ mem_cons_self
    rw [if_neg (Nat.succ_ne_zero _)]
    dsimp only
    rw [Nat.add_sub_cancel, hlen]
    exact hinv

theorem same_write {a : ℕ} (m : ℕ → UInt8) (v : UInt8) (h : a < q ∨ q + 8 ≤ a) :
    Same m (fun x => if x = a then v else m x) q := by
  have hload : ∀ b, q ≤ b → b + 4 ≤ q + 8 → load (fun x => if x = a then v else m x) b = load m b :=
    fun b hb hb' => by
      rw [load, load]
      refine congrArg leNat (map_congr_left fun i hi => if_neg ?_)
      have := mem_range.1 hi
      omega
  exact ⟨hload q le_rfl (by omega), hload (q + 4) (by omega) le_rfl⟩

/-- The program writes to a live block. -/
theorem Inv.write {a : ℕ} (h : Inv base start s l) (hstart : base + 8 ≤ start) (hx : x ∈ s.live)
    (ha : x.addr + 8 ≤ a) (ha' : a < x.stop) (v : UInt8) :
    Inv base start { s with mem := fun y => if y = a then v else s.mem y } l := by
  have hxb := h.bounds (mem_append_right l hx)
  have hsame : ∀ d ∈ ⟨base, 0⟩ :: (l ++ s.live),
      Same s.mem (fun y => if y = a then v else s.mem y) (Region.addr d) := by
    intro d hd
    refine same_write _ _ ?_
    rcases mem_cons.1 hd with rfl | hd
    · exact Or.inr (by change base + 8 ≤ a; omega)
    · by_cases hdx : d = x
      · rw [hdx]
        exact Or.inr ha
      · have hdb := h.bounds hd
        have : Std.Symm Apart := ⟨fun _ _ => Apart.symm⟩
        have hapart : Apart d x := h.tiles.apart.forall hd (mem_append_right l hx) hdx
        rw [Apart] at hapart
        omega
  refine ⟨threaded_same h.ring fun d hd => hsame d ?_, h.rover, h.rising, h.tiles, fun d hd => ?_,
    h.sz_lt⟩
  · exact mem_append_left s.live hd
  · exact (hsame d (mem_cons_of_mem _ (mem_append_right l hd))).len.trans (h.header d hd)


theorem Inv.step_free {ap : ℕ} (h : Inv base start s l) (hbase : 0 < base)
    (hstart : base + 8 ≤ start) (hap : ∃ b ∈ s.live, b.addr + 8 = ap) :
    ∃ t l', step base s (.free ap) = some t ∧ Inv base start t l' := by
  obtain ⟨b, hb, hbap⟩ := hap
  obtain ⟨x, l₁, l₂, -, hx, hlive, herase⟩ :=
    exists_of_eraseP (p := fun b => decide (b.addr + 8 = ap)) hb (decide_eq_true hbap)
  obtain rfl := of_decide_eq_true hx
  have hperm : s.live.Perm (x :: (l₁ ++ l₂)) := by
    rw [hlive]
    exact perm_middle
  obtain ⟨t, l', hfree, hinv, -⟩ := h.free hbase hstart hperm
  refine ⟨⟨t, l₁ ++ l₂⟩, l', ?_, hinv⟩
  rw [step, if_pos ⟨b, hb, hbap⟩, hfree, map_some, herase]

theorem asked_step {op : Op} {t : Heap} (h : step base s op = some t) : s.asked ⊆ t.asked := by
  cases op with
  | malloc nbytes room =>
    obtain ⟨⟨r, t⟩, hm, rfl⟩ := map_eq_some_iff.1 h
    have hasked : (Heap.got s.live (r, t)).asked = t.asked := by
      rw [Heap.got]
      split_ifs <;> rfl
    rw [hasked, ← ready_asked base s.toState]
    exact (asked_mallocLoop (loop_of_malloc hm)).subset
  | free ap =>
    rw [step] at h
    split_ifs at h with hap
    obtain ⟨t, hfree, rfl⟩ := map_eq_some_iff.1 h
    rw [asked_free hfree]
    exact List.Subset.refl _
  | write a v =>
    rw [step] at h
    split_ifs at h with ha
    obtain rfl := some.inj h
    exact List.Subset.refl _

/-- One step of a program. -/
theorem Begun.step {op : Op} {t : Heap} (h : Begun base start s l) (hbase : 0 < base)
    (hstart : base + 8 ≤ start) (hend : start < 2 ^ 32) (hstep : step base s op = some t)
    (hreq : ∀ n ∈ t.asked, n < 2 ^ 31) : ∃ l', Inv base start t l' := by
  have hinv : s.live ≠ [] → Inv base start s l := fun hne =>
    h.resolve_left fun h0 => hne h0.2.1
  cases op with
  | malloc nbytes room =>
    obtain ⟨⟨r, t⟩, hm, rfl⟩ := map_eq_some_iff.1 hstep
    have hasked : (Heap.got s.live (r, t)).asked = t.asked := by
      rw [Heap.got]
      split_ifs <;> rfl
    rw [hasked] at hreq
    exact (h.returned hbase hstart hend hm hreq).got
  | free ap =>
    have hap : ∃ b ∈ s.live, b.addr + 8 = ap := by
      by_contra hnot
      rw [Umalloc.step, if_neg hnot] at hstep
      cases hstep
    have hne : s.live ≠ [] := by
      obtain ⟨b, hb, -⟩ := hap
      exact ne_nil_of_mem hb
    obtain ⟨t', l', hstep', hinv'⟩ := (hinv hne).step_free hbase hstart hap
    rw [hstep] at hstep'
    obtain rfl := some.inj hstep'
    exact ⟨l', hinv'⟩
  | write a v =>
    rw [Umalloc.step] at hstep
    split_ifs at hstep with hlive
    obtain rfl := some.inj hstep
    obtain ⟨b, hb, hba, hab⟩ := hlive
    exact ⟨l, (hinv (ne_nil_of_mem hb)).write hstart hb hba hab v⟩

theorem begun_boot (mem : ℕ → UInt8) : Begun base start (boot mem start) [] :=
  Or.inl ⟨rfl, rfl, rfl, rfl⟩

/-- Every state that a program reaches by a call. -/
theorem inv_run {mem : ℕ → UInt8} {ops : List Op} (hbase : 0 < base) (hstart : base + 8 ≤ start)
    (hend : start < 2 ^ 32) (hops : ops ≠ [])
    (hrun : exec (step base) (boot mem start) ops = some s) (hreq : ∀ n ∈ s.asked, n < 2 ^ 31) :
    ∃ l, Inv base start s l := by
  obtain ⟨op, ops, rfl⟩ := exists_cons_of_ne_nil hops
  obtain ⟨t, ht, hrun⟩ := exec_cons_eq_some.1 hrun
  have hstep : ∀ s op t, ((∀ n ∈ s.asked, n < 2 ^ 31) → ∃ l, Inv base start s l) →
      step base s op = some t → (∀ n ∈ t.asked, n < 2 ^ 31) → ∃ l, Inv base start t l := by
    intro s op t hs hst hreq
    obtain ⟨l, hinv⟩ := hs fun n hn => hreq n (asked_step hst hn)
    exact Begun.step (Or.inr hinv) hbase hstart hend hst hreq
  exact exec_invariant_all (fun s => (∀ n ∈ s.asked, n < 2 ^ 31) → ∃ l, Inv base start s l) hstep
    ((begun_boot mem).step hbase hstart hend ht) hrun hreq

theorem begun_run {mem : ℕ → UInt8} {ops : List Op} (hbase : 0 < base) (hstart : base + 8 ≤ start)
    (hend : start < 2 ^ 32) (hrun : exec (step base) (boot mem start) ops = some s)
    (hreq : ∀ n ∈ s.asked, n < 2 ^ 31) :
    ∃ l, Begun base start s l ∧ (ops = [] → l = []) ∧ (ops ≠ [] → Inv base start s l) := by
  by_cases hops : ops = []
  · subst hops
    obtain rfl := some.inj hrun
    exact ⟨[], begun_boot mem, fun _ => rfl, fun h => absurd rfl h⟩
  · obtain ⟨l, hinv⟩ := inv_run hbase hstart hend hops hrun hreq
    exact ⟨l, Or.inr hinv, fun h => absurd h hops, fun _ => hinv⟩

/-- A free list as the program text describes it. -/
structure WellFormed (base start : ℕ) (s : Heap) (free : List Region) : Prop where
  /-- From `freep` on, the list visits the static header and the free blocks once each. -/
  visits : (List.iterate (ptr s.mem) s.freep (free.length + 1)).IsRotated
    (base :: free.map Region.addr)
  circular : (ptr s.mem)^[free.length + 1] s.freep = s.freep
  /-- The addresses increase, but for the wrap from the last block to the static header. -/
  increasing : (base :: free.map Region.addr).Pairwise (· < ·)
  nonempty : ∀ b ∈ free ++ s.live, 0 < b.len
  sizes : ∀ b ∈ free ++ s.live, 8 * size s.mem b.addr = b.len
  inside : ∀ b ∈ free ++ s.live, start ≤ b.addr ∧ b.stop ≤ s.sz
  apart : (free ++ s.live).Pairwise Apart
  not_adjacent : ∀ a ∈ free, ∀ b ∈ free, a.stop ≠ b.addr
  units : start + 8 * ((free ++ s.live).map fun b => size s.mem b.addr).sum = s.sz

theorem Inv.wellFormed (h : Inv base start s l) : WellFormed base start s l := by
  obtain ⟨f, hf, hrover⟩ := h.rover
  obtain ⟨l₁, l₂, hc⟩ := append_of_mem hf
  have hring := h.ring
  rw [hc] at hring
  obtain ⟨hit, hlast⟩ := hring.rotate.iterate
  have hlen : (f :: l₂ ++ l₁).length = l.length + 1 := by
    rw [length_append, add_comm, ← length_append, ← hc, length_cons]
  have hfirst : first (f :: l₂ ++ l₁) 0 = s.freep := hrover.symm
  rw [hfirst, hlen] at hit hlast
  refine ⟨?_, hlast, ?_, h.tiles.pos, fun b hb => h.len_eq hb, h.tiles.inside, h.tiles.apart,
    ?_, ?_⟩
  · have hmap : base :: l.map Region.addr = (l₁ ++ f :: l₂).map Region.addr := by rw [← hc]; rfl
    rw [hit, hmap]
    exact isRotated_append.map _
  · have hmap : base :: l.map Region.addr = (⟨base, 0⟩ :: l).map Region.addr := rfl
    rw [hmap, pairwise_map]
    exact h.rising.imp fun hab => lt_of_le_of_lt (Nat.le_add_right _ _) hab
  · have hne : l.Pairwise fun a b => a.stop ≠ b.addr ∧ b.stop ≠ a.addr := by
      refine (pairwise_cons.1 h.rising).2.imp fun hab => ?_
      simp only [stop] at hab ⊢
      omega
    have : Std.Symm fun a b : Region => a.stop ≠ b.addr ∧ b.stop ≠ a.addr :=
      ⟨fun _ _ h => h.symm⟩
    intro a ha b hb
    refine (hne.forall_of_forall (fun c hc => ?_) ha hb).1
    have := h.tiles.pos c (mem_append_left _ hc)
    simp only [stop]
    omega
  · have hsum : (l ++ s.live).map Region.len = (l ++ s.live).map fun b => 8 * size s.mem b.addr :=
      map_congr_left fun b hb => (h.len_eq hb).symm
    rw [← sum_map_mul_left, ← hsum]
    exact h.tiles.total

/-- The user allocator keeps its free list well formed, and every call returns. -/
theorem free_list_well_formed {mem : ℕ → UInt8} {ops : List Op} (hbase : 0 < base)
    (hstart : base + 8 ≤ start) (hend : start < 2 ^ 32)
    (hrun : exec (step base) (boot mem start) ops = some s) (hreq : ∀ n ∈ s.asked, n < 2 ^ 31) :
    ∃ free, (ops ≠ [] → WellFormed base start s free) ∧
      (∀ b ∈ s.live, ∃ t, step base s (.free (b.addr + 8)) = some t) ∧
      ∀ nbytes room, ((∀ b ∈ free, b.len < 8 * nunits nbytes) → request (nunits nbytes) < 2 ^ 31) →
        ∃ t, step base s (.malloc nbytes room) = some t := by
  obtain ⟨l, h, -, hops⟩ := begun_run hbase hstart hend hrun hreq
  refine ⟨l, fun hne => (hops hne).wellFormed, fun b hb => ?_, fun nbytes room hsmall => ?_⟩
  · have hinv : Inv base start s l := h.resolve_left fun h0 => ne_nil_of_mem hb h0.2.1
    obtain ⟨t, -, ht, -⟩ := hinv.step_free hbase hstart ⟨b, hb, rfl⟩
    exact ⟨t, ht⟩
  · obtain ⟨r, t, hm, -⟩ := h.malloc hbase hstart hend nbytes room hsmall
    exact ⟨_, congrArg (Option.map (Heap.got s.live)) hm⟩

/-- A program frees its two blocks. The second one is merged with the blocks on both sides, so
that all the memory from `sbrk` is one free block again. -/
theorem free_list_well_formed_merge : ∃ s free,
    exec (step 4096) (boot (fun _ => 0) 4104)
      [.malloc 100 true, .malloc 10 true, .free 36768, .free 36744] = some s ∧
      s.live = [] ∧ ptr s.mem 4096 = 4104 ∧ 8 * size s.mem 4104 = 32768 ∧
      WellFormed 4096 4104 s free := by
  have hrun : ((exec (step 4096) (boot (fun _ => 0) 4104)
      [.malloc 100 true, .malloc 10 true, .free 36768, .free 36744]).map
      fun s => (s.asked, s.live, ptr s.mem 4096, 8 * size s.mem 4104)) =
        some ([32768], [], 4104, 32768) := by decide +kernel
  obtain ⟨s, hs, heq⟩ := map_eq_some_iff.1 hrun
  simp only [Prod.mk.injEq] at heq
  obtain ⟨hasked, hlive, hptr, hsize⟩ := heq
  obtain ⟨free, h, -⟩ := free_list_well_formed (by decide) (by decide) (by decide) hs
    (by rw [hasked]; decide)
  exact ⟨s, free, hs, hlive, hptr, hsize, h (cons_ne_nil _ _)⟩

/-! ## sbrk and the kernel -/

theorem toNat_toUInt32 (n : Int32) :
    n.toUInt32.toNat < 2 ^ 32 ∧ n.toInt =
      if n.toUInt32.toNat < 2 ^ 31 then (n.toUInt32.toNat : ℤ) else n.toUInt32.toNat - 2 ^ 32 := by
  refine ⟨n.toUInt32.toNat_lt, ?_⟩
  have h := BitVec.toInt_eq_toNat_cond n.toBitVec
  have hnat : n.toUInt32.toNat = n.toBitVec.toNat := rfl
  rw [hnat]
  change n.toBitVec.toInt = _
  rw [h]
  split_ifs <;> omega

/-- `sbrk` has the effect of `growproc` on the size, for some answer of the kernel. -/
theorem growproc_sbrk {k : Vm.Kernel} {v : Vm.Store} {sz : ℕ} (hv : v.Wf k) (hsz : sz < Vm.KERNBASE)
    (hc : v.pgdir.Contig sz) (n : Int32) :
    ∃ room v', v.growproc k sz n = .ok (sbrk room sz n.toUInt32.toNat, v') := by
  obtain ⟨hlt, hint⟩ := toNat_toUInt32 n
  have hkern : Vm.KERNBASE = 2 ^ 31 := rfl
  rcases lt_trichotomy n.toInt 0 with hn | hn | hn
  · obtain ⟨v', hgrow, -⟩ := Vm.Store.growproc_of_neg hv hsz hn
    refine ⟨true, v', ?_⟩
    have hge : ¬n.toUInt32.toNat < 2 ^ 31 := fun h => by
      rw [if_pos h] at hint
      omega
    rw [if_neg hge] at hint
    have hsum : ((sz + n.toInt) % 2 ^ 32).toNat = (sz + n.toUInt32.toNat) % 2 ^ 32 := by omega
    have h0 : n.toUInt32.toNat ≠ 0 := by omega
    rw [hgrow, hsum, sbrk, if_neg h0, if_neg hge]
  · have h0 : n.toUInt32.toNat = 0 := by
      split_ifs at hint <;> omega
    refine ⟨true, v, ?_⟩
    rw [Vm.Store.growproc, if_neg (by rw [Vm.Store.zero_lt_iff]; omega),
      if_neg (by rw [Vm.Store.lt_zero_iff]; omega), h0]
    rfl
  · obtain ⟨r, v', hgrow, hr⟩ := Vm.Store.growproc_of_pos hv hsz hc hn
    have hpos : n.toUInt32.toNat < 2 ^ 31 := not_le.1 fun h => by
      rw [if_neg (not_lt.2 h)] at hint
      omega
    rw [if_pos hpos] at hint
    refine ⟨r.isSome, v', ?_⟩
    rw [hgrow, sbrk, if_neg (by omega), if_pos hpos]
    rcases hr with ⟨newsz, rfl, hnew, -⟩ | ⟨rfl, -⟩
    · rw [if_pos ⟨rfl, by omega⟩]
      have : newsz = sz + n.toUInt32.toNat := by omega
      rw [this]
    · rfl

/-- The first process grows by a byte. -/
theorem growproc_sbrk_init : ∃ s c room v, Vm.Sys.usualMain = .ok s ∧
    s.proc Ptable.initproc = some c ∧ Vm.Store.growproc Vm.Sys.usualKernel
      ⟨⟨s.kmem, fun _ => 0⟩, c.pgdir⟩ c.sz 1 = .ok (sbrk room c.sz 1, v) := by
  obtain ⟨s, c, h, hinv, hc, hp, -⟩ := Vm.Sys.exists_main
  obtain ⟨room, v, hv⟩ := growproc_sbrk (hinv.wf hp fun _ => 0) (hinv.below _ c hp).1 (hc _ c hp) 1
  exact ⟨s, c, room, v, h, hp, hv⟩

/-! ## The size of what malloc returns -/

/-- The process has not got smaller, and what `malloc` returns is 0 or the address of `nbytes`
bytes in the memory from `sbrk` which are in no live block. -/
def Served (start : ℕ) (s : Heap) (nbytes : UInt32) (r : ℕ) (t : State) : Prop :=
  s.sz ≤ t.sz ∧ (r = 0 ∨ start ≤ r ∧ r + nbytes.toNat ≤ t.sz ∧
    ∀ b ∈ s.live, r + nbytes.toNat ≤ b.addr ∨ b.stop ≤ r)

theorem Returned.served (h : Returned base start s (nunits nbytes) r t)
    (hnb : nbytes.toNat + 7 < 2 ^ 32) :
    Served start s nbytes r t := by
  refine ⟨h.sz_le, ?_⟩
  rcases h.inv with ⟨rfl, -⟩ | ⟨x, l', rfl, hinv⟩
  · exact Or.inl rfl
  · have hx := hinv.tiles.inside _ (mem_append_right l' mem_cons_self)
    have hu : nbytes.toNat + 8 ≤ 8 * nunits nbytes := by
      rw [nunits]
      omega
    simp only [stop] at hx
    refine Or.inr ⟨by omega, by omega, fun b hb => ?_⟩
    have hapart := (pairwise_cons.1 (pairwise_append.1 hinv.tiles.apart).2.1).1 b hb
    simp only [Apart, stop] at hapart ⊢
    omega

/-- `malloc` returns, and returns enough, in every state that a program reaches, if the number of
bytes can be rounded up and, unless a free block is large enough, what `sbrk` is asked for is
below `2 ^ 31`. So were the requests of the calls before. -/
theorem malloc_enough {mem : ℕ → UInt8} {ops : List Op} (hbase : 0 < base)
    (hstart : base + 8 ≤ start) (hend : start < 2 ^ 32)
    (hrun : exec (step base) (boot mem start) ops = some s) (hreq : ∀ n ∈ s.asked, n < 2 ^ 31) :
    ∃ free, (ops = [] → free = []) ∧ (ops ≠ [] → WellFormed base start s free) ∧
      ∀ nbytes room, nbytes.toNat + 7 < 2 ^ 32 →
        ((∀ b ∈ free, b.len < 8 * nunits nbytes) → request (nunits nbytes) < 2 ^ 31) →
        ∃ r t, malloc base room s.toState nbytes = some (r, t) ∧ Served start s nbytes r t := by
  obtain ⟨l, h, hnil, hops⟩ := begun_run hbase hstart hend hrun hreq
  refine ⟨l, hnil, fun hne => (hops hne).wellFormed, fun nbytes room hnb hsmall => ?_⟩
  obtain ⟨r, t, hm, hret⟩ := h.malloc hbase hstart hend nbytes room hsmall
  exact ⟨r, t, hm, hret.served hnb⟩

/-- The third block of a program that has given the first one back. -/
theorem malloc_enough_third : ∃ s r t,
    exec (step 4096) (boot (fun _ => 0) 4104)
      [.malloc 100 true, .malloc 10 true, .free 36768] = some s ∧
    malloc 4096 true s.toState 32000 = some (r, t) ∧ r = 4736 ∧ Served 4104 s 32000 r t := by
  have hrun : ((exec (step 4096) (boot (fun _ => 0) 4104)
      [.malloc 100 true, .malloc 10 true, .free 36768]).map fun s =>
        (s.asked, (malloc 4096 true s.toState 32000).map Prod.fst)) =
      some ([32768], some 4736) := by decide +kernel
  obtain ⟨s, hs, heq⟩ := map_eq_some_iff.1 hrun
  obtain ⟨hasked, hr⟩ := Prod.mk.inj heq
  obtain ⟨free, -, -, h⟩ := malloc_enough (by decide) (by decide) (by decide) hs
    (by rw [hasked]; decide)
  obtain ⟨r, t, hm, hserved⟩ := h 32000 true (by decide) fun _ => by decide
  rw [hm] at hr
  exact ⟨s, r, t, hs, hm, some.inj hr, hserved⟩

/-- The largest number of bytes gives a block of a header, where the process ends. One that is
eight less than `2 ^ 32` with its header makes the process smaller, and `malloc` returns an
address behind its end. -/
theorem malloc_wraps :
    (∃ r t, malloc 4096 true (boot (fun _ => 0) 4104).toState 0xFFFFFFFF = some (r, t) ∧
      ¬Served 4104 (boot (fun _ => 0) 4104) 0xFFFFFFFF r t) ∧
    ∃ r t, malloc 4096 true (boot (fun _ => 0) 4200).toState 0xFFFFFFF0 = some (r, t) ∧
      ¬Served 4200 (boot (fun _ => 0) 4200) 0xFFFFFFF0 r t := by
  constructor
  · have hrun : (malloc 4096 true (boot (fun _ => 0) 4104).toState 0xFFFFFFFF).map
        (fun x => (x.1, x.2.sz)) = some (36872, 36872) := by decide +kernel
    obtain ⟨⟨r, t⟩, hm, hr⟩ := map_eq_some_iff.1 hrun
    obtain ⟨rfl, hsz⟩ := Prod.mk.inj hr
    refine ⟨_, t, hm, fun h => ?_⟩
    rcases h.2 with h0 | ⟨-, hle, -⟩
    · cases h0
    · rw [hsz] at hle
      exact absurd hle (by decide)
  · have hrun : (malloc 4096 true (boot (fun _ => 0) 4200).toState 0xFFFFFFF0).map
        (fun x => (x.1, x.2.sz)) = some (4208, 4192) := by decide +kernel
    obtain ⟨⟨r, t⟩, hm, hr⟩ := map_eq_some_iff.1 hrun
    obtain ⟨rfl, hsz⟩ := Prod.mk.inj hr
    refine ⟨_, t, hm, fun h => ?_⟩
    have hle := h.1
    rw [hsz] at hle
    exact absurd hle (by decide)

end Xv6.Umalloc
