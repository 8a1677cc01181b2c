import Xv6.Umalloc
import Mathlib.Data.List.Pairwise
import Mathlib.Logic.Function.Iterate

/-!
# The free list of the allocator

The invariant `Inv` of `umalloc.c` : the free list is a ring of rising blocks that starts at
the static header, and together with the live blocks they fill the memory from `sbrk`.

`free` puts a live block in its place and merges it with its neighbours (`Inv.free`). `malloc`
takes a block that is large enough, whole or its end (`Inv.fit`), or calls `morecore`
(`Inv.no_fit`), after which there is such a block (`Inv.morecore`). `Inv.mallocLoop` puts this
together.
-/

namespace Xv6.Umalloc

open Region List Function

variable {m' : ℕ → UInt8} {pre post : List Region} {t : State}

variable {m : ℕ → UInt8} {a b p q v : ℕ}

/-! ## Words and headers -/

theorem load_lt (m : ℕ → UInt8) (a : ℕ) : load m a < 2 ^ 32 := by
  have := leNat_lt ((List.range 4).map fun i => m (a + i))
  rw [length_map, length_range] at this
  exact lt_of_lt_of_eq this (by decide)

theorem load_store (m : ℕ → UInt8) (a v : ℕ) : load (store m a v) a = v % 2 ^ 32 := by
  have hbytes : (List.range 4).map (fun i => store m a v (a + i)) = leBytes 4 v := by
    refine ext_getElem (by simp) fun i hi hi' => ?_
    rw [length_leBytes] at hi'
    rw [getElem_map, getElem_range, store, Ram.write_add hi',
      getD_eq_getElem?_getD, List.getElem?_eq_getElem (by rw [length_leBytes]; exact hi'),
      Option.getD_some]
  have hpow : 256 ^ 4 = 2 ^ 32 := by decide
  rw [load, hbytes, leNat_leBytes, hpow]

theorem load_store_of_disjoint (m : ℕ → UInt8) (v : ℕ) (h : a + 4 ≤ b ∨ b + 4 ≤ a) :
    load (store m a v) b = load m b := by
  have hbytes : (List.range 4).map (fun i => store m a v (b + i)) =
      (List.range 4).map fun i => m (b + i) := by
    refine map_congr_left fun i hi => ?_
    have := mem_range.1 hi
    exact Ram.write_of_not (by omega)
  rw [load, load, hbytes]

theorem ptr_lt (m : ℕ → UInt8) (p : ℕ) : ptr m p < 2 ^ 32 := load_lt m p

@[simp] theorem ptr_setPtr (m : ℕ → UInt8) (p v : ℕ) : ptr (setPtr m p v) p = v % 2 ^ 32 :=
  load_store m p v

@[simp] theorem size_setSize (m : ℕ → UInt8) (p v : ℕ) : size (setSize m p v) p = v % 2 ^ 32 :=
  load_store m (p + 4) v

@[simp] theorem size_setPtr (m : ℕ → UInt8) (p v : ℕ) : size (setPtr m p v) p = size m p :=
  load_store_of_disjoint m v (by omega)

@[simp] theorem ptr_setSize (m : ℕ → UInt8) (p v : ℕ) : ptr (setSize m p v) p = ptr m p :=
  load_store_of_disjoint m v (by omega)

/-- Two headers that do not overlap. -/
def Far (p q : ℕ) : Prop := p + 8 ≤ q ∨ q + 8 ≤ p

theorem Far.symm (h : Far p q) : Far q p := Or.symm h

/-- The header at `q` is the same. -/
def Same (m m' : ℕ → UInt8) (q : ℕ) : Prop := ptr m' q = ptr m q ∧ size m' q = size m q

theorem Same.trans {m'' : ℕ → UInt8} (h : Same m m' q) (h' : Same m' m'' q) : Same m m'' q :=
  ⟨h'.1.trans h.1, h'.2.trans h.2⟩

theorem same_setPtr (m : ℕ → UInt8) (v : ℕ) (h : Far p q) : Same m (setPtr m p v) q := by
  rw [Far] at h
  exact ⟨load_store_of_disjoint m v (by omega), load_store_of_disjoint m v (by omega)⟩

theorem same_setSize (m : ℕ → UInt8) (v : ℕ) (h : Far p q) : Same m (setSize m p v) q := by
  rw [Far] at h
  exact ⟨load_store_of_disjoint m v (by omega), load_store_of_disjoint m v (by omega)⟩

theorem same_link (m : ℕ → UInt8) (v : ℕ) (h : Far p q) : Same m (link m p v) q := by
  rw [link]
  split_ifs
  · exact (same_setSize m _ h).trans (same_setPtr _ _ h)
  · exact same_setPtr m v h

/-- The length of the block with a header. -/
def len (m : ℕ → UInt8) (p : ℕ) : ℕ := 8 * size m p

theorem Same.len (h : Same m m' q) : len m' q = len m q :=
  congrArg (8 * ·) h.2

theorem threaded_same {l : List Region} {e : ℕ} (h : Threaded (ptr m) (len m) l e)
    (hs : ∀ b ∈ l, Same m m' b.addr) :
    Threaded (ptr m') (len m') l e :=
  h.congr fun b hb => ⟨(hs b hb).1, (hs b hb).len⟩

theorem first_join (x : Region) (l : List Region) (e : ℕ) : first (join x l) e = x.addr := by
  cases l with
  | nil => rfl
  | cons y l =>
    rw [join]
    split_ifs <;> rfl

/-- A block is put before a list of blocks. -/
theorem link_threaded {x : Region} {l : List Region} {e : ℕ} (hl : Threaded (ptr m) (len m) l e)
    (hx : len m x.addr = x.len) (hfar : ∀ y ∈ l, Far x.addr y.addr) (hpos : 0 < first l e)
    (hlt : first l e < 2 ^ 32) (hstop : x.stop ≤ 2 ^ 32) (hl' : ∀ y ∈ l, y.stop ≤ 2 ^ 32)
    (he : l = [] → x.stop ≠ e) :
    Threaded (ptr (link m x.addr (first l e))) (len (link m x.addr (first l e))) (join x l) e := by
  have hsame : ∀ y ∈ l, Same m (link m x.addr (first l e)) y.addr := fun y hy =>
    same_link m _ (hfar y hy)
  have htest : plus x.addr (size m x.addr) = first l e ↔ x.stop = first l e := by
    have hplus : plus x.addr (size m x.addr) = x.stop % 2 ^ 32 := by
      rw [plus, stop, ← hx, len]
    rw [hplus]
    omega
  have hkeep : plus x.addr (size m x.addr) ≠ first l e →
      ptr (link m x.addr (first l e)) x.addr = first l e ∧
      len (link m x.addr (first l e)) x.addr = x.len := fun hne => by
    rw [link, if_neg hne, ptr_setPtr, len, size_setPtr]
    exact ⟨Nat.mod_eq_of_lt hlt, hx⟩
  cases l with
  | nil =>
    obtain ⟨hptr, hlen⟩ := hkeep fun h => he rfl (htest.1 h)
    exact ⟨hlen, hptr, trivial⟩
  | cons y l =>
    have hf : first (y :: l) e = y.addr := rfl
    rw [hf] at hsame htest hkeep ⊢
    rw [join]
    split_ifs with htouch
    · have hy : len m y.addr = y.len := hl.1
      have hystop := hl' y mem_cons_self
      have hsize : (size m x.addr + size m y.addr) % 2 ^ 32 = size m x.addr + size m y.addr := by
        refine Nat.mod_eq_of_lt ?_
        rw [len] at hx hy
        rw [stop] at hystop htouch
        omega
      have hysame := same_setSize m (size m x.addr + size m y.addr) (hfar y mem_cons_self)
      have hlink : link m x.addr y.addr =
          setPtr (setSize m x.addr (size m x.addr + size m y.addr)) x.addr (ptr m y.addr) := by
        rw [link, if_pos (htest.2 htouch), hsize]
        exact congrArg (setPtr _ _) hysame.1
      refine ⟨?_, ?_, threaded_same hl.2.2 fun z hz => hsame z (mem_cons_of_mem _ hz)⟩
      · change len (link m x.addr y.addr) x.addr = x.len + y.len
        rw [hlink, len, size_setPtr, size_setSize, hsize, ← hx, ← hy, len, len, mul_add]
      · change ptr (link m x.addr y.addr) x.addr = first l e
        rw [hlink, ptr_setPtr, Nat.mod_eq_of_lt (ptr_lt _ _), hl.2.1]
    · obtain ⟨hptr, hlen⟩ := hkeep fun h => htouch (htest.1 h)
      exact ⟨hlen, hptr, threaded_same hl hsame⟩

/-! ## The invariant -/

section

variable {base start : ℕ}

/-- The free list, from the static header on, is `l`. Its blocks and the live blocks fill the
memory from `sbrk`. -/
structure Inv (base start : ℕ) (s : Heap) (l : List Region) : Prop where
  ring : Circular (ptr s.mem) (len s.mem) (⟨base, 0⟩ :: l)
  rover : ∃ b ∈ ⟨base, 0⟩ :: l, s.freep = Region.addr b
  rising : Rising (⟨base, 0⟩ :: l)
  tiles : Tiles start s.sz (l ++ s.live)
  header : ∀ b ∈ s.live, len s.mem b.addr = b.len
  sz_lt : s.sz < 2 ^ 32

variable {s : Heap} {l : List Region} {x y : Region}

/-- Every block has its size in its header. -/
theorem Inv.len_eq (h : Inv base start s l) (hx : x ∈ l ++ s.live) : len s.mem x.addr = x.len := by
  rcases mem_append.1 hx with hx | hx
  · exact Threaded.len_eq h.ring (mem_cons_of_mem _ hx)
  · exact h.header x hx

/-- Every block has room for its header. -/
theorem Inv.bounds (h : Inv base start s l) (hx : x ∈ l ++ s.live) :
    start ≤ x.addr ∧ x.addr + 8 ≤ x.stop ∧ x.stop ≤ s.sz := by
  have hpos := h.tiles.pos x hx
  have hin := h.tiles.inside x hx
  have hlen := h.len_eq hx
  rw [len] at hlen
  rw [stop] at hin ⊢
  omega

theorem far_of_apart (hx : x.addr + 8 ≤ x.stop) (hy : y.addr + 8 ≤ y.stop) (h : Apart x y) :
    Far x.addr y.addr := by
  rw [Apart] at h
  rw [Far]
  omega

theorem State.maps_of_le {s : State} {n : ℕ} (h : p + n ≤ s.sz) : s.Maps p n := by
  rw [State.Maps]
  omega

/-- The headers of the list and of the live blocks are on pages of the process. -/
theorem Inv.maps (h : Inv base start s l) (hstart : base + 8 ≤ start)
    (hx : x ∈ ⟨base, 0⟩ :: (l ++ s.live)) : s.Maps x.addr 8 := by
  refine State.maps_of_le ?_
  rcases mem_cons.1 hx with rfl | hx
  · have := h.tiles.total
    change base + 8 ≤ s.sz
    omega
  · have := h.bounds hx
    omega

/-- On the way from the rover there are headers of the list only. -/
theorem Inv.iterate_mem (h : Inv base start s l) (i : ℕ) :
    ∃ b ∈ ⟨base, 0⟩ :: l, (ptr s.mem)^[i] s.freep = Region.addr b := by
  induction i with
  | zero => exact h.rover
  | succ i ih =>
    obtain ⟨b, hb, hib⟩ := ih
    rw [iterate_succ_apply', hib]
    exact Circular.next_mem h.ring hb

theorem Inv.maps_iterate (h : Inv base start s l) (hstart : base + 8 ≤ start) (i : ℕ) :
    s.Maps ((ptr s.mem)^[i] s.freep) 8 := by
  obtain ⟨b, hb, hib⟩ := h.iterate_mem i
  rw [hib]
  exact h.maps hstart (mem_append_left s.live hb)

/-! ## free -/

/-- The loop of `free` stops at a header. -/
def Stops (m : ℕ → UInt8) (bp p : ℕ) : Prop :=
  (bp > p ∧ bp < ptr m p) ∨ (p ≥ ptr m p ∧ (bp > p ∨ bp < ptr m p))

/-- The loop of `free` ends at the first block that stops it. -/
theorem search_eq {s : State} (bp : ℕ) : ∀ {i n p : ℕ}, i < n →
    (∀ j, s.Maps ((ptr s.mem)^[j] p) 4) → Stops s.mem bp ((ptr s.mem)^[i] p) →
    (∀ j < i, ¬Stops s.mem bp ((ptr s.mem)^[j] p)) → search s bp n p = some ((ptr s.mem)^[i] p)
  | i, 0, _, hi, _, _, _ => absurd hi (Nat.not_lt_zero i)
  | 0, n + 1, p, _, hmaps, hstop, _ => by
    have hp : s.Maps p 4 := hmaps 0
    rw [search, if_neg (not_not.2 hp)]
    split_ifs with h h'
    · rfl
    · rfl
    · exact absurd hstop (not_or.2 ⟨h, h'⟩)
  | i + 1, n + 1, p, hi, hmaps, hstop, hmin => by
    have h0 : ¬Stops s.mem bp p := hmin 0 (Nat.succ_pos i)
    rw [Stops, not_or] at h0
    have hp : s.Maps p 4 := hmaps 0
    rw [search, if_neg (not_not.2 hp), if_neg h0.1, if_neg h0.2, iterate_succ_apply]
    rw [iterate_succ_apply] at hstop
    refine search_eq bp (Nat.lt_of_succ_lt_succ hi) (fun j => hmaps (j + 1)) hstop fun j hj => ?_
    rw [← iterate_succ_apply]
    exact hmin (j + 1) (Nat.succ_lt_succ hj)

/-- The walk from the rover through the ring. -/
theorem Inv.walk (h : Inv base start s l) {P : ℕ → Prop}
    (hP : ∃ b ∈ ⟨base, 0⟩ :: l, P (Region.addr b)) :
    ∃ i < l.length + 1, (∃ b ∈ ⟨base, 0⟩ :: l, (ptr s.mem)^[i] s.freep = Region.addr b ∧ P b.addr) ∧
      ∀ j < i, ¬P ((ptr s.mem)^[j] s.freep) := by
  obtain ⟨f, hf, hrover⟩ := h.rover
  obtain ⟨l₁, l₂, hc⟩ := append_of_mem hf
  have hring := h.ring
  have hlen : (f :: l₂ ++ l₁).length = l.length + 1 := by
    rw [length_append, add_comm, ← length_append, ← hc, length_cons]
  have hmem : ∀ b, b ∈ f :: l₂ ++ l₁ ↔ b ∈ ⟨base, 0⟩ :: l := fun b => by
    rw [hc, mem_append, mem_append, or_comm]
  rw [hc] at hring
  obtain ⟨b, hb, hPb⟩ := hP
  obtain ⟨i, hi, ⟨b, hb, hib, hPb⟩, hmin⟩ :=
    Threaded.exists_first hring.rotate ⟨b, (hmem b).2 hb, hPb⟩
  have hfirst : first (f :: l₂ ++ l₁) (first (f :: l₂ ++ l₁) 0) = s.freep := hrover.symm
  rw [hfirst] at hib hmin
  exact ⟨i, hlen ▸ hi, ⟨b, (hmem b).1 hb, hib, hPb⟩, hmin⟩

variable {live : List Region}

/-- The tiling with a live block in front. -/
theorem Inv.tiles_cons (h : Inv base start s l) (hperm : s.live.Perm (x :: live)) :
    Tiles start s.sz (x :: (l ++ live)) :=
  h.tiles.perm ((hperm.append_left l).trans perm_middle)

theorem Inv.base_le (h : Inv base start s l) : ∀ b ∈ ⟨base, 0⟩ :: l, base ≤ Region.addr b :=
  forall_mem_cons.2 ⟨le_rfl, fun b hb => le_of_lt ((pairwise_cons.1 h.rising).1 b hb)⟩

/-- `free` finds the place of a block. -/
theorem Inv.place (h : Inv base start s l) (hstart : base + 8 ≤ start)
    (hperm : s.live.Perm (x :: live)) :
    ∃ pre p post, ⟨base, 0⟩ :: l = pre ++ p :: post ∧
      search s.toState x.addr ROUNDS s.freep = some p.addr ∧ p.stop ≤ x.addr ∧
      ∀ d ∈ post, x.stop ≤ d.addr := by
  have htiles := h.tiles_cons hperm
  have hxb := h.bounds (mem_append_right l (hperm.mem_iff.2 mem_cons_self))
  have hapart := (pairwise_cons.1 htiles.apart).1
  have hsep : ∀ d ∈ ⟨base, 0⟩ :: l, Region.stop d ≤ x.addr ∨ x.stop ≤ Region.addr d :=
    forall_mem_cons.2 ⟨Or.inl (by simp only [stop]; omega), fun d hd =>
      (hapart d (mem_append_left _ hd)).symm⟩
  have hge := h.base_le
  have hnext : ∀ {pre p post}, ⟨base, 0⟩ :: l = pre ++ p :: post →
      ptr s.mem (Region.addr p) = first post base := fun hc => by
    have hring := h.ring
    rw [Circular, hc] at hring
    have hf := (threaded_append.1 hring).2.2.1
    rwa [← hc] at hf
  have hP : ∃ b ∈ ⟨base, 0⟩ :: l, Stops s.mem x.addr (Region.addr b) := by
    obtain ⟨pre, b, post, hc, hbx, hpost⟩ := exists_split h.rising (x := x.addr)
      ⟨⟨base, 0⟩, mem_cons_self, by change base < x.addr; omega⟩
    have hb : b ∈ ⟨base, 0⟩ :: l := by rw [hc]; exact mem_append_right _ mem_cons_self
    refine ⟨b, hb, ?_⟩
    rw [Stops, hnext hc]
    cases post with
    | nil => exact Or.inr ⟨hge b hb, Or.inl hbx⟩
    | cons d post =>
      have hd : d ∈ ⟨base, 0⟩ :: l := by rw [hc]; simp
      refine Or.inl ⟨hbx, ?_⟩
      change x.addr < d.addr
      have hxd := hpost d mem_cons_self
      rcases mem_cons.1 hd with rfl | hd'
      · simp only at hxd ⊢
        omega
      · have hdb := h.bounds (mem_append_left _ hd')
        rcases hsep d hd with hs | hs <;> omega
  obtain ⟨i, hi, ⟨b, hb, hib, hstops⟩, hmin⟩ := h.walk hP
  have hlen : l.length + 1 < ROUNDS := by
    have h1 := h.tiles.length_le
    have h2 := h.sz_lt
    rw [length_append] at h1
    simp only [ROUNDS]
    omega
  obtain ⟨pre, post, hc⟩ := append_of_mem hb
  refine ⟨pre, b, post, hc, ?_, ?_, ?_⟩
  · rw [← hib]
    refine search_eq x.addr (by omega) (fun j => ?_) (by rw [hib]; exact hstops) hmin
    exact (Nat.add_le_add_left (by decide) _).trans (h.maps_iterate hstart j)
  · rcases hsep b hb with hs | hs
    · exact hs
    · rw [Stops, hnext hc] at hstops
      cases post with
      | nil =>
        rw [first] at hstops
        omega
      | cons d post =>
        have hbd : b.stop < d.addr := by
          have hrising := h.rising
          rw [hc] at hrising
          exact (pairwise_cons.1 (pairwise_append.1 hrising).2.1).1 d mem_cons_self
        rw [first] at hstops
        simp only [stop] at hbd
        omega
  · intro d hd
    have hrising := h.rising
    rw [hc] at hrising
    have hrb := pairwise_cons.1 (pairwise_append.1 hrising).2.1
    rcases hsep d (by rw [hc]; simp [hd]) with hs | hs
    · rw [Stops, hnext hc] at hstops
      cases post with
      | nil => cases hd
      | cons e post =>
        have hbe := hrb.1 e mem_cons_self
        have hed : e.addr ≤ d.addr := by
          rcases mem_cons.1 hd with rfl | hd
          · exact le_rfl
          · have := (pairwise_cons.1 hrb.2).1 d hd
            simp only [stop] at this
            omega
        rw [first] at hstops
        simp only [stop] at hbe hs
        omega
    · exact hs

/-- The order of the free list after `free`. -/
theorem rising_insert {p : Region} (h : Rising (pre ++ p :: post)) (hp : p.stop ≤ x.addr)
    (hpost : ∀ d ∈ post, x.stop ≤ d.addr) :
    Rising (pre ++ join p (join x post)) := by
  obtain ⟨hpre, hrest, hgap⟩ := pairwise_append.1 h
  have hle : ∀ d ∈ join x post, x.addr ≤ d.addr := fun d hd =>
    le_addr_of_mem_join le_rfl (fun e he => (Nat.le_add_right _ _).trans (hpost e he)) hd
  have hle' : ∀ d ∈ join x post, p.stop ≤ d.addr := fun d hd => hp.trans (hle d hd)
  refine pairwise_append.2 ⟨hpre, ?_, fun a ha b hb => ?_⟩
  · exact Rising.join (Rising.join (pairwise_cons.1 hrest).2 hpost) hle'
  · exact lt_of_lt_of_le (hgap a ha p mem_cons_self) (le_addr_of_mem_join le_rfl
      (fun d hd => (Nat.le_add_right _ _).trans (hle' d hd)) hb)

/-- No two headers overlap. -/
theorem Inv.far (h : Inv base start s l) (hstart : base + 8 ≤ start) :
    (⟨base, 0⟩ :: (l ++ s.live)).Pairwise fun a b => Far (Region.addr a) (Region.addr b) := by
  refine pairwise_cons.2 ⟨fun b hb => ?_, ?_⟩
  · exact Or.inl (hstart.trans (h.bounds hb).1)
  · refine h.tiles.apart.imp_of_mem fun ha hb hab => ?_
    exact far_of_apart (h.bounds ha).2.1 (h.bounds hb).2.1 hab

/-- What `free` does to the headers. -/
theorem link_insert {p : Region} (h : Threaded (ptr m) (len m) (pre ++ p :: post) base)
    (hbase : 0 < base) (hx : len m x.addr = x.len) (hbx : base < x.addr) (hpx : p.stop ≤ x.addr)
    (hpost : ∀ d ∈ post, x.stop ≤ d.addr) (hin : ∀ d ∈ x :: post, d.addr < 2 ^ 32 ∧ d.stop ≤ 2 ^ 32)
    (hfar : (x :: (pre ++ p :: post)).Pairwise fun a b => Far a.addr b.addr) :
    Threaded (ptr (link (link m x.addr (first post base)) p.addr x.addr))
      (len (link (link m x.addr (first post base)) p.addr x.addr))
      (pre ++ join p (join x post)) base := by
  obtain ⟨hthpre, hlenp, -, hthpost⟩ := threaded_append.1 h
  obtain ⟨hxfar, hfar⟩ := pairwise_cons.1 hfar
  obtain ⟨-, hpfar, hprefar⟩ := pairwise_append.1 hfar
  have hxp : Far x.addr p.addr := hxfar p (by simp)
  have hxin := hin x mem_cons_self
  have hfirst : 0 < first post base ∧ first post base < 2 ^ 32 := by
    cases post with
    | nil =>
      change 0 < base ∧ base < 2 ^ 32
      omega
    | cons d post =>
      have hxd := hpost d mem_cons_self
      rw [stop] at hxd
      exact ⟨by change 0 < d.addr; omega, (hin d (by simp)).1⟩
  have hstop : x.stop ≠ base := by
    rw [stop]
    omega
  have hxpost := link_threaded hthpost hx (fun d hd => hxfar d (by simp [hd])) hfirst.1 hfirst.2
    hxin.2 (fun d hd => (hin d (mem_cons_of_mem _ hd)).2) fun _ => hstop
  have hp := link_threaded (x := p) (l := join x post) hxpost
    ((same_link m _ hxp).len.trans hlenp) (fun d hd => ?_) (by rw [first_join]; omega)
    (by rw [first_join]; exact hxin.1) (by omega) (fun d hd => ?_)
    (fun hnil => absurd hnil join_ne_nil)
  · rw [first_join] at hp
    refine threaded_append.2 ⟨?_, hp⟩
    rw [first_join]
    exact threaded_same hthpre fun d hd => (same_link _ _ (hxfar d (by simp [hd]))).trans
      (same_link _ _ (hprefar d hd p mem_cons_self).symm)
  · obtain ⟨⟨e, he, hde⟩, -⟩ := ends_of_mem_join hd
    rw [hde]
    rcases mem_cons.1 he with rfl | he
    · exact hxp.symm
    · exact (pairwise_cons.1 hpfar).1 e he
  · obtain ⟨-, e, he, hde⟩ := ends_of_mem_join hd
    rw [hde]
    exact (hin e he).2

/-- The blocks after a block has been put in the list. -/
theorem Inv.insert {p : Region} (h : Inv base start s l) (hbx : base < x.addr)
    (hperm : s.live.Perm (x :: live)) (hc : ⟨base, 0⟩ :: l = pre ++ p :: post)
    (hpost : ∀ d ∈ post, x.stop ≤ d.addr) :
    ∃ l', pre ++ join p (join x post) = ⟨base, 0⟩ :: l' ∧ Tiles start s.sz (l' ++ live) ∧
      ∃ b ∈ l', b.addr ≤ x.addr ∧ x.stop ≤ b.stop := by
  have htiles := h.tiles_cons hperm
  obtain ⟨b, hb, hbx', hxb⟩ := exists_mem_join x post
  cases pre with
  | nil =>
    obtain ⟨rfl, rfl⟩ := cons.inj hc
    refine ⟨join x l, ?_, htiles.join_append, b, hb, hbx'.le, hxb⟩
    cases hj : join x l with
    | nil => exact absurd hj join_ne_nil
    | cons d r =>
      have hd : x.addr ≤ d.addr := le_addr_of_mem_join le_rfl
        (fun e he => (Nat.le_add_right _ _).trans (hpost e he))
        (by rw [hj]; exact mem_cons_self)
      exact if_neg (by simp only [stop]; omega)
  | cons a pre =>
    rw [cons_append] at hc
    obtain ⟨rfl, rfl⟩ := cons.inj hc
    obtain ⟨d, hd, hdb, hbd⟩ := exists_mem_join_of_mem (a := p) hb
    refine ⟨pre ++ join p (join x post), rfl, ?_, d, mem_append_right _ hd, by omega, by omega⟩
    have h1 : Tiles start s.sz (x :: (post ++ (p :: (pre ++ live)))) := by
      refine htiles.perm (List.Perm.cons x ?_)
      rw [append_assoc, cons_append]
      exact perm_middle.trans
        (((perm_append_comm_assoc pre post live).cons p).trans perm_middle.symm)
    have h2 : Tiles start s.sz (p :: (join x post ++ (pre ++ live))) :=
      h1.join_append.perm perm_middle
    refine h2.join_append.perm ?_
    rw [append_assoc]
    exact perm_append_comm_assoc _ _ _

/-- `free` puts a live block in the list. -/
theorem Inv.free (h : Inv base start s l) (hbase : 0 < base) (hstart : base + 8 ≤ start)
    (hperm : s.live.Perm (x :: live)) :
    ∃ t l', Umalloc.free s.toState (x.addr + 8) = some t ∧ Inv base start ⟨t, live⟩ l' ∧
      t.sz = s.sz ∧ t.asked = s.asked ∧ ∃ b ∈ l', b.addr ≤ x.addr ∧ x.stop ≤ b.stop := by
  obtain ⟨pre, p, post, hc, hsearch, hpx, hpost⟩ := h.place hstart hperm
  have hx : x ∈ l ++ s.live := mem_append_right l (hperm.mem_iff.2 mem_cons_self)
  have hxb := h.bounds hx
  have hsz := h.sz_lt
  have hbx : base < x.addr := by omega
  have hring : Threaded (ptr s.mem) (len s.mem) (⟨base, 0⟩ :: l) base := h.ring
  have hrising := h.rising
  -- the headers of the list and of the live blocks, that of the block in front
  have hfar : (x :: (pre ++ p :: post ++ live)).Pairwise fun a b => Far a.addr b.addr := by
    refine List.Perm.pairwise ?_ (h.far hstart) fun hab => hab.symm
    rw [← hc, ← cons_append]
    exact (hperm.append_left _).trans perm_middle
  rw [hc] at hring hrising
  have hin : ∀ d ∈ x :: post, d.addr < 2 ^ 32 ∧ d.stop ≤ 2 ^ 32 := by
    intro d hd
    rcases mem_cons.1 hd with rfl | hd
    · omega
    · have hxd := hpost d hd
      have hmem : d ∈ ⟨base, 0⟩ :: l := by rw [hc]; simp [hd]
      rcases mem_cons.1 hmem with rfl | hmem
      · change x.stop ≤ base at hxd
        omega
      · have := h.bounds (mem_append_left _ hmem)
        omega
  have hth := link_insert hring hbase (h.len_eq hx) hbx hpx hpost hin
    (hfar.sublist ((sublist_append_left _ _).cons_cons x))
  obtain ⟨l', hl', htiles, hin⟩ := h.insert hbx hperm hc hpost
  have hnext : ptr s.mem p.addr = first post base := (threaded_append.1 hring).2.2.1
  have hbp : (x.addr + 8 + (2 ^ 32 - 8)) % 2 ^ 32 = x.addr := by omega
  have hp : p ∈ ⟨base, 0⟩ :: l := by rw [hc]; simp
  have hfirst : s.Maps (first post base) 8 := by
    obtain ⟨d, hd, hnd⟩ := Circular.next_mem h.ring hp
    rw [← hnext, hnd]
    exact h.maps hstart (mem_append_left s.live hd)
  have hmaps : s.Maps x.addr 8 ∧ s.Maps p.addr 8 ∧
      (plus x.addr (size s.mem x.addr) = first post base → s.Maps (first post base) 8) :=
    ⟨h.maps hstart (mem_cons_of_mem _ hx),
      h.maps hstart (mem_append_left s.live hp), fun _ => hfirst⟩
  have hfree : Umalloc.free s.toState (x.addr + 8) =
      some ⟨link (link s.mem x.addr (first post base)) p.addr x.addr, p.addr, s.sz, s.asked⟩ := by
    rw [Umalloc.free, hbp, hsearch, Option.bind_some, hnext, if_pos hmaps]
  have hsame : ∀ b ∈ live, Same s.mem (link (link s.mem x.addr (first post base)) p.addr x.addr)
      b.addr := fun b hb => by
    obtain ⟨hxfar, hfar⟩ := pairwise_cons.1 hfar
    exact (same_link s.mem (first post base) (hxfar b (by simp [hb]))).trans
      (same_link _ x.addr ((pairwise_append.1 hfar).2.2 p (by simp) b hb))
  obtain ⟨r, hr, hrp, -⟩ := exists_mem_join p (join x post)
  generalize link (link s.mem x.addr (first post base)) p.addr x.addr = m' at hth hfree hsame
  rw [hl'] at hth
  refine ⟨_, l', hfree, ⟨hth, ⟨r, ?_, hrp.symm⟩, ?_, htiles, fun b hb => ?_, hsz⟩, rfl, rfl, hin⟩
  · rw [← hl']
    exact mem_append_right _ hr
  · rw [← hl']
    exact rising_insert hrising hpx hpost
  · exact (hsame b hb).len.trans (h.header b (hperm.mem_iff.2 (mem_cons_of_mem _ hb)))

/-! ## malloc -/

/-- The loop of `malloc` passes blocks that are too small. -/
theorem mallocLoop_walk {room : Bool} {u : ℕ} {s : State} : ∀ {i n prevp : ℕ},
    (∀ j, s.Maps ((ptr s.mem)^[j] prevp) 8) →
    (∀ j < i, size s.mem ((ptr s.mem)^[j + 1] prevp) < u ∧ (ptr s.mem)^[j + 1] prevp ≠ s.freep) →
    mallocLoop room u (n + i) prevp (ptr s.mem prevp) s =
      mallocLoop room u n ((ptr s.mem)^[i] prevp) ((ptr s.mem)^[i + 1] prevp) s
  | 0, _, _, _, _ => rfl
  | i + 1, n, prevp, hmaps, h => by
    have h0 : size s.mem (ptr s.mem prevp) < u ∧ ptr s.mem prevp ≠ s.freep := h 0 (Nat.succ_pos i)
    have hp : s.Maps (ptr s.mem prevp) 8 := hmaps 1
    rw [← add_assoc, mallocLoop, if_neg (not_not.2 hp), if_neg (not_le.2 h0.1), if_neg h0.2,
      mallocLoop_walk (fun j => hmaps (j + 1)) fun j hj => ?_]
    · rfl
    · exact h (j + 1) (Nat.succ_lt_succ hj)

variable {u : ℕ}

/-- The list without one of its blocks. -/
theorem exists_without {a b : Region} (hc : ⟨base, 0⟩ :: l = pre ++ a :: b :: post) :
    b ∈ l ∧ ∃ r, pre ++ a :: post = ⟨base, 0⟩ :: r ∧ l.Perm (b :: r) := by
  have hperm : (⟨base, 0⟩ :: l).Perm (b :: (pre ++ a :: post)) := by
    rw [hc]
    have hmid : (pre ++ [a] ++ b :: post).Perm (b :: (pre ++ [a] ++ post)) := perm_middle
    rwa [append_assoc, append_assoc] at hmid
  obtain ⟨r, hr⟩ : ∃ r, pre ++ a :: post = ⟨base, 0⟩ :: r := by
    cases pre with
    | nil => exact ⟨post, congrArg (· :: post) (cons.inj hc).1.symm⟩
    | cons d pre =>
      exact ⟨pre ++ a :: post, congrArg (· :: (pre ++ a :: post)) (cons.inj hc).1.symm⟩
  rw [hr] at hperm
  have hl : l.Perm (b :: r) := (hperm.trans (List.Perm.swap _ _ _)).cons_inv
  exact ⟨hl.mem_iff.2 mem_cons_self, r, hr, hl⟩

/-- A block of the list is taken as it is. -/
theorem Inv.take_whole {a b : Region} (h : Inv base start s l) (hstart : base + 8 ≤ start)
    (hc : ⟨base, 0⟩ :: l = pre ++ a :: b :: post) :
    ∃ r, Inv base start ⟨⟨setPtr s.mem a.addr (ptr s.mem b.addr), a.addr, s.sz, s.asked⟩,
      b :: s.live⟩ r := by
  obtain ⟨hbl, r, hr, hperm⟩ := exists_without hc
  have hring : Threaded (ptr s.mem) (len s.mem) (⟨base, 0⟩ :: l) base := h.ring
  have hrising := h.rising
  have hfar := h.far hstart
  rw [← cons_append, hc] at hfar
  rw [hc] at hring hrising
  obtain ⟨hpre, ha, -, hb⟩ := threaded_append.1 hring
  obtain ⟨hfar, -, hlfar⟩ := pairwise_append.1 hfar
  obtain ⟨-, hafar, hprefar⟩ := pairwise_append.1 hfar
  have hafar := (pairwise_cons.1 hafar).1
  have hab := hafar b mem_cons_self
  have hthr : Threaded (ptr (setPtr s.mem a.addr (ptr s.mem b.addr)))
      (len (setPtr s.mem a.addr (ptr s.mem b.addr))) (pre ++ a :: post) base := by
    refine threaded_append.2 ⟨threaded_same hpre fun d hd => same_setPtr _ _
      (hprefar d hd a mem_cons_self).symm, ?_, ?_, threaded_same hb.2.2 fun d hd =>
      same_setPtr _ _ (hafar d (mem_cons_of_mem _ hd))⟩
    · rw [len, size_setPtr]
      exact ha
    · rw [ptr_setPtr, Nat.mod_eq_of_lt (ptr_lt _ _)]
      exact hb.2.1
  have hlive : ∀ d ∈ b :: s.live, Same s.mem (setPtr s.mem a.addr (ptr s.mem b.addr)) d.addr :=
    forall_mem_cons.2 ⟨same_setPtr _ _ hab, fun d hd => same_setPtr _ _ (hlfar a (by simp) d hd)⟩
  generalize setPtr s.mem a.addr (ptr s.mem b.addr) = m' at hthr hlive
  have hmem : a ∈ ⟨base, 0⟩ :: r := by rw [← hr]; simp
  rw [hr] at hthr
  refine ⟨r, hthr, ⟨a, hmem, rfl⟩, ?_, ?_, fun d hd => ?_, h.sz_lt⟩
  · rw [← hr]
    refine hrising.sublist ?_
    exact (List.Sublist.refl pre).append ((sublist_cons_self b post).cons_cons a)
  · refine h.tiles.perm ?_
    exact (hperm.append_right _).trans perm_middle.symm
  · rw [(hlive d hd).len]
    rcases mem_cons.1 hd with rfl | hd
    · exact h.len_eq (mem_append_left _ hbl)
    · exact h.header d hd

/-- The end of a block of the list is taken. -/
theorem Inv.take_part {a b : Region} {k : ℕ} (h : Inv base start s l) (hstart : base + 8 ≤ start)
    (hc : ⟨base, 0⟩ :: l = pre ++ a :: b :: post) (hb : b.len = 8 * k + 8 * u) (hk : 0 < k)
    (hu : 0 < u) :
    ∃ r, Inv base start
      ⟨⟨setSize (setSize s.mem b.addr k) (b.addr + 8 * k) u, a.addr, s.sz, s.asked⟩,
        ⟨b.addr + 8 * k, 8 * u⟩ :: s.live⟩ r := by
  obtain ⟨hbl, r, hr, hperm⟩ := exists_without hc
  have hring : Threaded (ptr s.mem) (len s.mem) (⟨base, 0⟩ :: l) base := h.ring
  have hrising := h.rising
  have hbb := h.bounds (mem_append_left _ hbl)
  have hsz := h.sz_lt
  have htiles : Tiles start s.sz (⟨b.addr, 8 * k + 8 * u⟩ :: (r ++ s.live)) := by
    rw [← hb]
    exact h.tiles.perm (hperm.append_right _)
  rw [stop, hb] at hbb
  -- the two headers in the block overlap no other header
  have hout : ∀ d ∈ ⟨base, 0⟩ :: (r ++ s.live), ∀ q, b.addr ≤ q → q + 8 ≤ b.addr + (8 * k + 8 * u) →
      Far q (Region.addr d) := by
    intro d hd q hq hq'
    rcases mem_cons.1 hd with rfl | hd
    · exact Or.inr (by change base + 8 ≤ q; omega)
    · have hdb := h.bounds ((hperm.append_right s.live).mem_iff.2 (mem_cons_of_mem _ hd))
      have hapart := (pairwise_cons.1 htiles.apart).1 d hd
      simp only [Apart, stop] at hapart hdb
      rw [Far]
      omega
  have hsame : ∀ d ∈ ⟨base, 0⟩ :: (r ++ s.live),
      Same s.mem (setSize (setSize s.mem b.addr k) (b.addr + 8 * k) u) (Region.addr d) :=
    fun d hd => (same_setSize _ _ (hout d hd _ le_rfl (by omega))).trans
      (same_setSize _ _ (hout d hd _ (by omega) (by omega)))
  have hself := same_setSize (setSize s.mem b.addr k) u
    (show Far (b.addr + 8 * k) b.addr from Or.inr (by omega))
  obtain ⟨l', hl'⟩ : ∃ l', ⟨base, 0⟩ :: l' = pre ++ a :: ⟨b.addr, 8 * k⟩ :: post := by
    cases pre with
    | nil | cons d pre => exact ⟨_, congrArg (· :: _) (cons.inj hc).1⟩
  obtain ⟨-, r', hr', hperm'⟩ := exists_without hl'
  obtain rfl : r' = r := (cons.inj (hr'.symm.trans hr)).2
  have hmem : ∀ d ∈ pre ++ a :: post, d ∈ ⟨base, 0⟩ :: (r' ++ s.live) := fun d hd => by
    rw [hr] at hd
    exact mem_append_left s.live hd
  rw [hc] at hring hrising
  obtain ⟨hpre, ha, hanext, -, hbnext, hpost⟩ := threaded_append.1 hring
  have hsame_a := hsame a (hmem a (by simp))
  have hthr : Threaded (ptr (setSize (setSize s.mem b.addr k) (b.addr + 8 * k) u))
      (len (setSize (setSize s.mem b.addr k) (b.addr + 8 * k) u))
      (pre ++ a :: ⟨b.addr, 8 * k⟩ :: post) base := by
    refine threaded_append.2 ⟨threaded_same hpre fun d hd => hsame d (hmem d (by simp [hd])),
      hsame_a.len.trans ha, hsame_a.1.trans hanext, ?_, ?_,
      threaded_same hpost fun d hd => hsame d (hmem d (by simp [hd]))⟩
    · rw [hself.len, len, size_setSize, Nat.mod_eq_of_lt (by omega)]
    · rw [hself.1, ptr_setSize]
      exact hbnext
  have hnew : len (setSize (setSize s.mem b.addr k) (b.addr + 8 * k) u) (b.addr + 8 * k) =
      8 * u := by
    rw [len, size_setSize, Nat.mod_eq_of_lt (by omega)]
  generalize setSize (setSize s.mem b.addr k) (b.addr + 8 * k) u = m' at hsame hthr hnew
  rw [← hl'] at hthr
  refine ⟨l', hthr, ⟨a, by rw [hl']; simp, rfl⟩, ?_, ?_, fun d hd => ?_, hsz⟩
  · rw [hl', append_cons]
    rw [append_cons] at hrising
    exact hrising.shrink (by omega)
  · refine (htiles.split (by omega) (by omega)).perm ?_
    exact (perm_middle.symm.cons _).trans ((hperm'.append_right _).symm)
  · rcases mem_cons.1 hd with rfl | hd
    · exact hnew
    · have hsame_d := hsame d (mem_cons_of_mem _ (mem_append_right _ hd))
      exact hsame_d.len.trans (h.header d hd)

theorem plus_eq {k : ℕ} (h : p + 8 * k < 2 ^ 32) : plus p k = p + 8 * k := Nat.mod_eq_of_lt h

/-- A round of the loop of `malloc` at a block that is large enough. -/
theorem Inv.take {a b : Region} (h : Inv base start s l) (hstart : base + 8 ≤ start) (hu : 0 < u)
    (hc : ⟨base, 0⟩ :: l = pre ++ a :: b :: post) (hfit : u ≤ size s.mem b.addr) (room : Bool)
    (n : ℕ) :
    ∃ x t l', mallocLoop room u (n + 1) a.addr b.addr s.toState = some (x + 8, t) ∧
      Inv base start ⟨t, ⟨x, 8 * u⟩ :: s.live⟩ l' ∧ t.sz = s.sz ∧ t.asked = s.asked := by
  have hbl : b ∈ l ++ s.live := mem_append_left _ (exists_without hc).1
  have hbb := h.bounds hbl
  have hlen := h.len_eq hbl
  have hsz := h.sz_lt
  rw [stop] at hbb
  rw [len] at hlen
  have hb : s.Maps b.addr 8 := State.maps_of_le (by omega)
  rw [mallocLoop, if_neg (not_not.2 hb), if_pos hfit]
  by_cases heq : size s.mem b.addr = u
  · rw [if_pos heq, plus_eq (by omega)]
    obtain ⟨l', h'⟩ := h.take_whole hstart hc
    have hb : b = ⟨b.addr, 8 * u⟩ := by rw [← heq, hlen]
    rw [hb] at h'
    exact ⟨b.addr, _, l', rfl, h', rfl, rfl⟩
  · obtain ⟨k, hk⟩ : ∃ k, size s.mem b.addr = k + u := ⟨_, (Nat.sub_add_cancel hfit).symm⟩
    have hk0 : 0 < k := by omega
    have hsize : size (setSize s.mem b.addr (size s.mem b.addr - u)) b.addr = k := by
      rw [size_setSize, hk, Nat.add_sub_cancel, Nat.mod_eq_of_lt (by omega)]
    have hp : plus b.addr k = b.addr + 8 * k := plus_eq (by omega)
    have hp' : plus (b.addr + 8 * k) 1 = b.addr + 8 * k + 8 := plus_eq (by omega)
    rw [if_neg heq]
    dsimp only
    rw [hsize, hp, hp', hk, Nat.add_sub_cancel,
      if_pos (State.maps_of_le (by omega))]
    obtain ⟨l', h'⟩ := h.take_part hstart hc (u := u) (k := k) (by omega) hk0 hu
    exact ⟨b.addr + 8 * k, _, l', rfl, h', rfl, rfl⟩

/-- The loop of `malloc` takes a block if the list has one that is large enough. -/
theorem Inv.fit (h : Inv base start s l) (hstart : base + 8 ≤ start) (hu : 0 < u)
    (hfit : ∃ b ∈ l, 8 * u ≤ b.len) (room : Bool) {n : ℕ} (hn : l.length + 1 < n) :
    ∃ x t l', mallocLoop room u n s.freep (ptr s.mem s.freep) s.toState = some (x + 8, t) ∧
      Inv base start ⟨t, ⟨x, 8 * u⟩ :: s.live⟩ l' ∧ t.sz = s.sz ∧ t.asked = s.asked := by
  have hring : Circular (ptr s.mem) (len s.mem) (⟨base, 0⟩ :: l) := h.ring
  obtain ⟨b, hb, hbu⟩ := hfit
  obtain ⟨a, ha, hab⟩ := hring.exists_pred (mem_cons_of_mem _ hb)
  have hP : u ≤ size s.mem (ptr s.mem a.addr) := by
    have := h.len_eq (mem_append_left _ hb)
    rw [len] at this
    rw [hab]
    omega
  obtain ⟨i, hi, ⟨a, ha, hia, hfit⟩, hmin⟩ :=
    h.walk (P := fun x => u ≤ size s.mem (ptr s.mem x)) ⟨a, ha, hP⟩
  -- the walk does not come back to the rover before it is at the block
  have hwalk : ∀ j < i, size s.mem ((ptr s.mem)^[j + 1] s.freep) < u ∧
      (ptr s.mem)^[j + 1] s.freep ≠ s.freep := by
    intro j hj
    refine ⟨?_, fun hback => ?_⟩
    · rw [iterate_succ_apply']
      exact not_le.1 (hmin j hj)
    · refine hmin (i - (j + 1)) (by omega) ?_
      have hsum : (ptr s.mem)^[i - (j + 1)] s.freep = (ptr s.mem)^[i] s.freep := by
        conv_rhs =>
          rw [← Nat.sub_add_cancel (Nat.succ_le_of_lt hj), iterate_add_apply, hback]
      rw [hsum, hia]
      exact hfit
  obtain ⟨k, rfl⟩ : ∃ k, n = k + 1 + i := ⟨n - i - 1, by omega⟩
  obtain ⟨pre, post, hc⟩ := append_of_mem ha
  have hthr : Threaded (ptr s.mem) (len s.mem) (⟨base, 0⟩ :: l) base := h.ring
  have hbase : len s.mem base = 0 := hthr.1
  rw [hc] at hthr
  have hnext : ptr s.mem a.addr = first post base := (threaded_append.1 hthr).2.2.1
  rw [mallocLoop_walk (h.maps_iterate hstart) hwalk, iterate_succ_apply', hia, hnext]
  rw [hnext] at hfit
  cases post with
  | nil =>
    rw [len] at hbase
    change u ≤ size s.mem base at hfit
    omega
  | cons b post => exact h.take hstart hu hc hfit room k

/-- What `sbrk` is asked for. -/
def request (u : ℕ) : ℕ := 8 * max u 4096

/-- Memory from `sbrk` as a live block. -/
theorem Inv.grow (h : Inv base start s l) (hstart : base + 8 ≤ start) {k : ℕ} (hk : 0 < k)
    (hsz : s.sz + 8 * k < 2 ^ 32) (asked : List ℕ) :
    Inv base start ⟨⟨setSize s.mem s.sz k, s.freep, s.sz + 8 * k, asked⟩,
      ⟨s.sz, 8 * k⟩ :: s.live⟩ l := by
  have hstart' : start ≤ s.sz := by
    have := h.tiles.total
    omega
  have hsame : ∀ d ∈ ⟨base, 0⟩ :: (l ++ s.live),
      Same s.mem (setSize s.mem s.sz k) (Region.addr d) := by
    intro d hd
    refine same_setSize _ _ (Or.inr ?_)
    rcases mem_cons.1 hd with rfl | hd
    · change base + 8 ≤ s.sz
      omega
    · have := h.bounds hd
      omega
  refine ⟨threaded_same h.ring fun d hd => hsame d ?_, h.rover, h.rising, ?_, fun d hd => ?_, hsz⟩
  · exact mem_append_left s.live hd
  · exact (h.tiles.extend (by omega)).perm perm_middle.symm
  · rcases mem_cons.1 hd with rfl | hd
    · change len (setSize s.mem s.sz k) s.sz = 8 * k
      rw [len, size_setSize, Nat.mod_eq_of_lt (by omega)]
    · have hsame_d := hsame d (mem_cons_of_mem _ (mem_append_right l hd))
      exact hsame_d.len.trans (h.header d hd)

theorem Inv.freep_ne_zero (h : Inv base start s l) (hbase : 0 < base) : s.freep ≠ 0 := by
  obtain ⟨b, hb, hf⟩ := h.rover
  have := h.base_le b hb
  omega

/-- `morecore` returns 0, or the list has a block that is large enough. -/
theorem Inv.morecore (h : Inv base start s l) (hbase : 0 < base) (hstart : base + 8 ≤ start)
    (hreq : request u < 2 ^ 31) (room : Bool) :
    Umalloc.morecore room s.toState u = some (0, { s.toState with asked := request u :: s.asked }) ∨
    ∃ t l', Umalloc.morecore room s.toState u = some (t.freep, t) ∧ Inv base start ⟨t, s.live⟩ l' ∧
      s.sz ≤ t.sz ∧ t.asked = request u :: s.asked ∧ ∃ b ∈ l', 8 * u ≤ b.len := by
  have hnu : (if u < 4096 then 4096 else u) = max u 4096 := by
    split_ifs <;> omega
  rw [request] at hreq ⊢
  have hsbrk : sbrk room s.sz (max u 4096 * 8 % 2 ^ 32) =
      if room ∧ s.sz + 8 * max u 4096 < 2 ^ 32 then some (s.sz + 8 * max u 4096) else none := by
    have hmod : max u 4096 * 8 % 2 ^ 32 = 8 * max u 4096 := by omega
    rw [hmod, sbrk, if_neg (by omega), if_pos hreq]
  rw [Umalloc.morecore]
  simp only [hnu, hsbrk]
  split_ifs with hroom
  · right
    have hplus : plus s.sz 1 = s.sz + 8 := plus_eq (by omega)
    have hgrow := h.grow hstart (k := max u 4096) (by omega) hroom.2 (8 * max u 4096 :: s.asked)
    obtain ⟨t, l', hfree, hinv, hsz, hasked, b, hb, hbx⟩ :=
      hgrow.free hbase hstart (List.Perm.refl _)
    refine ⟨t, l', ?_, hinv, ?_, hasked, b, hb, ?_⟩
    · dsimp only at hfree ⊢
      rw [if_pos (State.maps_of_le (by dsimp only; omega)), hplus, hfree]
      rfl
    · rw [hsz]
      exact Nat.le_add_right _ _
    · simp only [stop] at hbx
      omega
  · exact Or.inl rfl

/-- The loop of `malloc` calls `morecore` if no block of the list is large enough. -/
theorem Inv.no_fit (h : Inv base start s l) (hstart : base + 8 ≤ start) (hu : 0 < u)
    (hfit : ∀ b ∈ l, b.len < 8 * u) (room : Bool) {n : ℕ} (hn : l.length + 1 < n) :
    ∃ k, n ≤ k + l.length + 1 ∧ mallocLoop room u n s.freep (ptr s.mem s.freep) s.toState =
      (Umalloc.morecore room s.toState u).bind fun r =>
        if r.1 = 0 then some (0, r.2) else mallocLoop room u k r.1 (ptr r.2.mem r.1) r.2 := by
  have hring : Circular (ptr s.mem) (len s.mem) (⟨base, 0⟩ :: l) := h.ring
  have hbase : len s.mem base = 0 := hring.1
  obtain ⟨f, hf, hrover⟩ := h.rover
  obtain ⟨a, ha, haf⟩ := hring.exists_pred hf
  obtain ⟨i, hi, ⟨a, ha, hia, haf⟩, hmin⟩ :=
    h.walk (P := fun x => ptr s.mem x = s.freep) ⟨a, ha, haf.trans hrover.symm⟩
  have hsmall : ∀ j, size s.mem ((ptr s.mem)^[j] s.freep) < u := by
    intro j
    obtain ⟨b, hb, hjb⟩ := h.iterate_mem j
    rw [hjb]
    rcases mem_cons.1 hb with rfl | hb
    · rw [len] at hbase
      change size s.mem base < u
      omega
    · have h1 := hfit b hb
      have h2 := h.len_eq (mem_append_left _ hb)
      rw [len] at h2
      omega
  obtain ⟨k, rfl⟩ : ∃ k, n = k + 1 + i := ⟨n - i - 1, by omega⟩
  refine ⟨k, by omega, ?_⟩
  rw [mallocLoop_walk (h.maps_iterate hstart) fun j hj => ⟨hsmall (j + 1), ?_⟩]
  · have hlast : (ptr s.mem)^[i + 1] s.freep = s.freep := by
      rw [iterate_succ_apply', hia]
      exact haf
    have hfreep : s.Maps s.freep 8 := h.maps_iterate hstart 0
    have h0 : size s.mem s.freep < u := hsmall 0
    rw [hlast, mallocLoop, if_neg (not_not.2 hfreep), if_neg (not_le.2 h0), if_pos rfl]
  · rw [iterate_succ_apply']
    exact hmin j hj

/-- What `malloc` returns. -/
structure Returned (base start : ℕ) (s : Heap) (u r : ℕ) (t : State) : Prop where
  sz_le : s.sz ≤ t.sz
  asked : s.asked <:+ t.asked
  inv : (r = 0 ∧ ∃ l, Inv base start ⟨t, s.live⟩ l) ∨
    ∃ x l, r = x + 8 ∧ Inv base start ⟨t, ⟨x, 8 * u⟩ :: s.live⟩ l

/-- The loops have rounds enough. -/
theorem Inv.length_lt (h : Inv base start s l) : l.length + 1 < 2 ^ 33 := by
  have h1 := h.tiles.length_le
  have h2 := h.sz_lt
  rw [length_append] at h1
  omega

theorem Inv.mallocLoop (h : Inv base start s l) (hbase : 0 < base) (hstart : base + 8 ≤ start)
    (hu : 0 < u) (hreq : (∀ b ∈ l, b.len < 8 * u) → request u < 2 ^ 31) (room : Bool) :
    ∃ r t, Umalloc.mallocLoop room u ROUNDS s.freep (ptr s.mem s.freep) s.toState = some (r, t) ∧
      Returned base start s u r t := by
  have hlen := h.length_lt
  by_cases hfit : ∃ b ∈ l, 8 * u ≤ b.len
  · obtain ⟨x, t, l', hloop, hinv, hsz, hasked⟩ := h.fit hstart hu hfit room (n := ROUNDS)
      (by rw [ROUNDS]; omega)
    exact ⟨x + 8, t, hloop, hsz.ge, hasked ▸ suffix_refl _, Or.inr ⟨x, l', rfl, hinv⟩⟩
  · have hnone : ∀ b ∈ l, b.len < 8 * u := fun b hb => not_le.1 fun hle => hfit ⟨b, hb, hle⟩
    obtain ⟨k, hk, hloop⟩ := h.no_fit hstart hu hnone room (n := ROUNDS) (by rw [ROUNDS]; omega)
    rw [hloop]
    rcases h.morecore hbase hstart (hreq hnone) room with
      hmore | ⟨t, l', hmore, hinv, hsz, hasked, hfit⟩
    · rw [hmore]
      refine ⟨0, _, rfl, le_rfl, suffix_cons _ _, Or.inl ⟨rfl, l, ?_⟩⟩
      exact { h with }
    · have hlen' := hinv.length_lt
      rw [hmore, Option.bind_some, if_neg (hinv.freep_ne_zero hbase)]
      obtain ⟨x, t', l'', hloop', hinv', hsz', hasked'⟩ := hinv.fit hstart hu hfit room (n := k)
        (by rw [ROUNDS] at hk; omega)
      refine ⟨x + 8, t', hloop', ?_, ?_, Or.inr ⟨x, l'', rfl, hinv'⟩⟩
      · exact hsz.trans hsz'.ge
      · rw [hasked', hasked]
        exact suffix_cons _ _

/-! ## What sbrk was asked for -/

/-- `free` asks the kernel for nothing. -/
theorem asked_free {s : State} {ap : ℕ} (h : Umalloc.free s ap = some t) : t.asked = s.asked := by
  rw [Umalloc.free] at h
  obtain ⟨p, -, h⟩ := Option.bind_eq_some_iff.1 h
  dsimp only at h
  split_ifs at h
  obtain rfl := Option.some.inj h
  rfl

/-- `morecore` asks once. -/
theorem asked_morecore {room : Bool} {s : State} {r : ℕ}
    (h : Umalloc.morecore room s u = some (r, t)) : t.asked = request u :: s.asked := by
  have hnu : (if u < 4096 then 4096 else u) = max u 4096 := by
    split_ifs <;> omega
  rw [Umalloc.morecore, hnu] at h
  dsimp only at h
  split at h
  · obtain ⟨-, rfl⟩ := Prod.mk.inj (Option.some.inj h)
    rfl
  · split_ifs at h
    obtain ⟨t', hfree, ht'⟩ := Option.map_eq_some_iff.1 h
    obtain ⟨-, rfl⟩ := Prod.mk.inj ht'
    exact asked_free hfree

theorem asked_mallocLoop {room : Bool} {r : ℕ} : ∀ {n prevp p : ℕ} {s : State},
    Umalloc.mallocLoop room u n prevp p s = some (r, t) → s.asked <:+ t.asked
  | 0, _, _, _, h => by cases h
  | n + 1, prevp, p, s, h => by
    rw [Umalloc.mallocLoop] at h
    dsimp only at h
    split_ifs at h with hp hfit heq hq hback
    · obtain ⟨-, rfl⟩ := Prod.mk.inj (Option.some.inj h)
      exact suffix_refl _
    · obtain ⟨-, rfl⟩ := Prod.mk.inj (Option.some.inj h)
      exact suffix_refl _
    · obtain ⟨⟨q, s'⟩, hmore, h⟩ := Option.bind_eq_some_iff.1 h
      have hs' : s.asked <:+ s'.asked := by
        rw [asked_morecore hmore]
        exact suffix_cons _ _
      dsimp only at h
      split_ifs at h with hq
      · obtain ⟨-, rfl⟩ := Prod.mk.inj (Option.some.inj h)
        exact hs'
      · exact hs'.trans (asked_mallocLoop h)
    · exact asked_mallocLoop h

/-- A request that no block of the list can serve goes to `sbrk`. -/
theorem Inv.request_mem {room : Bool} {r : ℕ} (h : Inv base start s l) (hstart : base + 8 ≤ start)
    (hu : 0 < u) (hfit : ∀ b ∈ l, b.len < 8 * u)
    (hloop : Umalloc.mallocLoop room u ROUNDS s.freep (ptr s.mem s.freep) s.toState = some (r, t)) :
    request u ∈ t.asked := by
  have hlen : l.length + 1 < ROUNDS := h.length_lt.trans (by decide)
  obtain ⟨k, -, hk⟩ := h.no_fit hstart hu hfit room hlen
  rw [hk] at hloop
  obtain ⟨⟨q, s'⟩, hmore, hrest⟩ := Option.bind_eq_some_iff.1 hloop
  have hs' : request u ∈ s'.asked := by
    rw [asked_morecore hmore]
    exact mem_cons_self
  dsimp only at hrest
  split_ifs at hrest with hq
  · obtain ⟨-, rfl⟩ := Prod.mk.inj (Option.some.inj hrest)
    exact hs'
  · exact (asked_mallocLoop hrest).subset hs'

end

end Xv6.Umalloc
