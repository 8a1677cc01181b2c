import Mathlib.Algebra.Order.Ring.Nat
import Mathlib.Data.List.Iterate
import Mathlib.Data.List.Rotate
import Mathlib.Algebra.BigOperators.Group.List.Basic

/-!
# Regions of memory and lists of free regions

A region is a range of addresses. `Tiles` says that regions fill a range without overlap; it is
kept when two neighbours are joined (`Tiles.join`), when a region is split (`Tiles.split`) and
when the range grows (`Tiles.extend`). Regions are `Rising` when each ends before the next one
starts and they do not touch. `join` puts a region in front of such a list and merges it with
the first region if they touch.

`Threaded` says that the regions of a list are linked by addresses stored in them, and `Circular`
that the last one leads back to the first. Along a ring every region is met
(`Threaded.exists_first`), from wherever the walk starts (`Circular.rotate`).
-/

namespace Xv6

open List Function

/-- A range of addresses. -/
structure Region where
  addr : ℕ
  len : ℕ
deriving DecidableEq

namespace Region

def stop (b : Region) : ℕ := b.addr + b.len

/-- No address is in both. -/
def Apart (a b : Region) : Prop := a.stop ≤ b.addr ∨ b.stop ≤ a.addr

theorem Apart.symm {a b : Region} (h : Apart a b) : Apart b a := Or.symm h

/-- Each region ends before the next one starts, with something between them. -/
def Rising (l : List Region) : Prop := l.Pairwise fun a b => a.stop < b.addr

/-- A region before a list of regions, merged with the first of them if the two touch. -/
def join (a : Region) : List Region → List Region
  | [] => [a]
  | b :: l => if a.stop = b.addr then ⟨a.addr, a.len + b.len⟩ :: l else a :: b :: l

variable {a b : Region} {l r bs bs' : List Region} {start stop n k x : ℕ}

theorem join_ne_nil : join a l ≠ [] := by
  cases l with
  | nil => exact cons_ne_nil _ _
  | cons b l =>
    rw [join]
    split_ifs <;> exact cons_ne_nil _ _

/-! ## Rising lists -/

/-- A joined region starts where one of the regions starts and stops where one stops. -/
theorem ends_of_mem_join (hb : b ∈ join a l) :
    (∃ c ∈ a :: l, b.addr = c.addr) ∧ ∃ c ∈ a :: l, b.stop = c.stop := by
  have hself : b ∈ a :: l →
      (∃ c ∈ a :: l, b.addr = c.addr) ∧ ∃ c ∈ a :: l, b.stop = c.stop := fun hb =>
    ⟨⟨b, hb, rfl⟩, b, hb, rfl⟩
  cases l with
  | nil => exact hself hb
  | cons c l =>
    rw [join] at hb
    split_ifs at hb with hac
    · rcases mem_cons.1 hb with rfl | hb
      · refine ⟨⟨a, mem_cons_self, rfl⟩, c, mem_cons_of_mem _ mem_cons_self, ?_⟩
        simp only [Region.stop] at hac ⊢
        omega
      · exact hself (mem_cons_of_mem _ (mem_cons_of_mem _ hb))
    · exact hself hb

theorem le_addr_of_mem_join (ha : n ≤ a.addr) (h : ∀ b ∈ l, n ≤ b.addr) (hb : b ∈ join a l) :
    n ≤ b.addr := by
  obtain ⟨⟨c, hc, hbc⟩, -⟩ := ends_of_mem_join hb
  rw [hbc]
  rcases mem_cons.1 hc with rfl | hc
  · exact ha
  · exact h c hc

theorem Rising.join (hl : Rising l) (h : ∀ b ∈ l, a.stop ≤ b.addr) : Rising (join a l) := by
  cases l with
  | nil => exact pairwise_singleton _ a
  | cons b l =>
    have hl' := pairwise_cons.1 hl
    rw [Region.join]
    split_ifs with hab
    · refine pairwise_cons.2 ⟨fun c hc => ?_, hl'.2⟩
      have hbc := hl'.1 c hc
      simp only [Region.stop] at hab hbc ⊢
      omega
    · refine pairwise_cons.2 ⟨fun c hc => ?_, hl⟩
      have hle := h b mem_cons_self
      rcases mem_cons.1 hc with rfl | hc
      · omega
      · have hbc := hl'.1 c hc
        simp only [Region.stop] at hab hbc hle ⊢
        omega

/-- A region may lose its end. -/
theorem Rising.shrink (h : Rising (l ++ b :: r)) (hn : n ≤ b.len) :
    Rising (l ++ ⟨b.addr, n⟩ :: r) := by
  obtain ⟨hl, hbr, hgap⟩ := pairwise_append.1 h
  obtain ⟨hb, hr⟩ := pairwise_cons.1 hbr
  refine pairwise_append.2 ⟨hl, pairwise_cons.2 ⟨fun d hd => ?_, hr⟩, fun c hc d hd => ?_⟩
  · exact lt_of_le_of_lt (Nat.add_le_add_left hn _) (hb d hd)
  · rcases mem_cons.1 hd with rfl | hd
    · exact hgap c hc b mem_cons_self
    · exact hgap c hc d (mem_cons_of_mem _ hd)

/-- What was joined is in one of the regions. -/
theorem exists_mem_join (a : Region) (l : List Region) :
    ∃ b ∈ join a l, b.addr = a.addr ∧ a.stop ≤ b.stop := by
  cases l with
  | nil => exact ⟨a, mem_cons_self, rfl, le_rfl⟩
  | cons c l =>
    rw [join]
    split_ifs
    · exact ⟨_, mem_cons_self, rfl, by simp only [Region.stop]; omega⟩
    · exact ⟨a, mem_cons_self, rfl, le_rfl⟩

/-- Nor is anything lost of the regions that were there. -/
theorem exists_mem_join_of_mem (hb : b ∈ l) :
    ∃ c ∈ join a l, c.addr ≤ b.addr ∧ b.stop ≤ c.stop := by
  cases l with
  | nil => cases hb
  | cons d l =>
    rw [join]
    split_ifs with had
    · rcases mem_cons.1 hb with rfl | hb
      · refine ⟨_, mem_cons_self, ?_⟩
        simp only [Region.stop] at had ⊢
        omega
      · exact ⟨b, mem_cons_of_mem _ hb, le_rfl, le_rfl⟩
    · exact ⟨b, mem_cons_of_mem _ hb, le_rfl, le_rfl⟩

/-- The last region that starts below an address. -/
theorem exists_split {c : List Region} (hc : Rising c) (h : ∃ b ∈ c, b.addr < x) :
    ∃ l b r, c = l ++ b :: r ∧ b.addr < x ∧ ∀ d ∈ r, x ≤ d.addr := by
  induction c with
  | nil => obtain ⟨b, hb, -⟩ := h; cases hb
  | cons a c ih =>
    have hc' := pairwise_cons.1 hc
    by_cases hex : ∃ b ∈ c, b.addr < x
    · obtain ⟨l, b, r, rfl, hb⟩ := ih hc'.2 hex
      exact ⟨a :: l, b, r, rfl, hb⟩
    · have hge : ∀ d ∈ c, x ≤ d.addr := fun d hd => not_lt.1 fun hlt => hex ⟨d, hd, hlt⟩
      obtain ⟨b, hb, hbx⟩ := h
      rcases mem_cons.1 hb with rfl | hb
      · exact ⟨[], b, c, rfl, hbx, hge⟩
      · exact absurd ⟨b, hb, hbx⟩ hex

/-! ## Tilings -/

/-- The regions fill the addresses from `start` to `stop`, each address once. -/
structure Tiles (start stop : ℕ) (bs : List Region) : Prop where
  pos : ∀ b ∈ bs, 0 < b.len
  inside : ∀ b ∈ bs, start ≤ b.addr ∧ b.stop ≤ stop
  apart : bs.Pairwise Apart
  total : start + (bs.map Region.len).sum = stop

theorem Tiles.nil : Tiles start start [] :=
  ⟨fun _ h => absurd h not_mem_nil, fun _ h => absurd h not_mem_nil, List.Pairwise.nil,
    rfl⟩

theorem Tiles.perm (h : Tiles start stop bs) (hp : bs.Perm bs') : Tiles start stop bs' where
  pos b hb := h.pos b (hp.mem_iff.2 hb)
  inside b hb := h.inside b (hp.mem_iff.2 hb)
  apart := hp.pairwise h.apart Apart.symm
  total := by rw [← (hp.map Region.len).sum_eq]; exact h.total

theorem Tiles.extend (h : Tiles start stop bs) (hn : 0 < n) :
    Tiles start (stop + n) (⟨stop, n⟩ :: bs) where
  pos := forall_mem_cons.2 ⟨hn, h.pos⟩
  inside := forall_mem_cons.2 ⟨⟨h.total ▸ Nat.le_add_right _ _, le_rfl⟩, fun b hb =>
    ⟨(h.inside b hb).1, (h.inside b hb).2.trans (Nat.le_add_right _ _)⟩⟩
  apart := pairwise_cons.2 ⟨fun b hb => Or.inr (h.inside b hb).2, h.apart⟩
  total := by
    have := h.total
    simp only [map_cons, sum_cons]
    omega

/-- Two neighbours become one region. -/
theorem Tiles.join (h : Tiles start stop (a :: b :: bs)) (hab : a.stop = b.addr) :
    Tiles start stop (⟨a.addr, a.len + b.len⟩ :: bs) := by
  obtain ⟨hpos, hpos'⟩ := forall_mem_cons.1 h.pos
  obtain ⟨ha, hin⟩ := forall_mem_cons.1 h.inside
  obtain ⟨hb, hin⟩ := forall_mem_cons.1 hin
  have hapart := pairwise_cons.1 h.apart
  have hapart' := pairwise_cons.1 hapart.2
  have htotal := h.total
  simp only [map_cons, sum_cons] at htotal
  simp only [Region.stop] at hab ha hb
  refine ⟨forall_mem_cons.2 ⟨Nat.add_pos_left hpos _, (forall_mem_cons.1 hpos').2⟩,
    forall_mem_cons.2 ⟨?_, hin⟩, pairwise_cons.2 ⟨fun c hc => ?_, hapart'.2⟩, ?_⟩
  · simp only [Region.stop]
    omega
  · have hac := hapart.1 c (mem_cons_of_mem _ hc)
    have hbc := hapart'.1 c hc
    have hc0 := hpos' c (mem_cons_of_mem _ hc)
    simp only [Apart, Region.stop] at hac hbc ⊢
    omega
  · simp only [map_cons, sum_cons]
    omega

theorem Tiles.join_append (h : Tiles start stop (a :: (l ++ r))) :
    Tiles start stop (Region.join a l ++ r) := by
  cases l with
  | nil => exact h
  | cons b l =>
    rw [Region.join]
    split_ifs with hab
    · exact Tiles.join h hab
    · exact h

/-- A region becomes two neighbours. -/
theorem Tiles.split (h : Tiles start stop (⟨x, n + k⟩ :: bs)) (hn : 0 < n) (hk : 0 < k) :
    Tiles start stop (⟨x, n⟩ :: ⟨x + n, k⟩ :: bs) := by
  obtain ⟨hx, hin⟩ := forall_mem_cons.1 h.inside
  have hapart := pairwise_cons.1 h.apart
  have htotal := h.total
  simp only [map_cons, sum_cons] at htotal
  simp only [Region.stop] at hx
  refine ⟨forall_mem_cons.2 ⟨hn, forall_mem_cons.2 ⟨hk, (forall_mem_cons.1 h.pos).2⟩⟩,
    forall_mem_cons.2 ⟨?_, forall_mem_cons.2 ⟨?_, hin⟩⟩,
    pairwise_cons.2 ⟨forall_mem_cons.2 ⟨Or.inl le_rfl, fun c hc => ?_⟩,
      pairwise_cons.2 ⟨fun c hc => ?_, hapart.2⟩⟩, ?_⟩
  · simp only [Region.stop]
    omega
  · simp only [Region.stop]
    omega
  · have := hapart.1 c hc
    simp only [Apart, Region.stop] at this ⊢
    omega
  · have := hapart.1 c hc
    simp only [Apart, Region.stop] at this ⊢
    omega
  · simp only [map_cons, sum_cons]
    omega

/-- There are no more regions than addresses. -/
theorem Tiles.length_le (h : Tiles start stop bs) : bs.length ≤ stop := by
  have hsum : bs.length ≤ (bs.map Region.len).sum := by
    have := length_le_sum_of_one_le (bs.map Region.len) fun n hn => by
      obtain ⟨b, hb, rfl⟩ := mem_map.1 hn
      exact h.pos b hb
    rwa [length_map] at this
  have htotal := h.total
  omega

/-! ## Linked regions -/

/-- The address of the first region, or `e` if there is none. -/
def first (l : List Region) (e : ℕ) : ℕ :=
  match l with
  | [] => e
  | b :: _ => b.addr

/-- Every region has its length stored in it, and the address of the next one; the last one has
the address `e`. -/
def Threaded (next len : ℕ → ℕ) : List Region → ℕ → Prop
  | [], _ => True
  | a :: l, e => len a.addr = a.len ∧ next a.addr = first l e ∧ Threaded next len l e

/-- The last region has the address of the first. -/
def Circular (next len : ℕ → ℕ) (c : List Region) : Prop := Threaded next len c (first c 0)

variable {next len next' len' : ℕ → ℕ} {e : ℕ}

theorem first_append (l r : List Region) (e : ℕ) : first (l ++ r) e = first l (first r e) := by
  cases l <;> rfl

theorem threaded_append :
    Threaded next len (l ++ r) e ↔ Threaded next len l (first r e) ∧ Threaded next len r e := by
  induction l with
  | nil => exact (true_and _).symm.to_iff
  | cons a l ih => rw [cons_append, Threaded, Threaded, ih, first_append, and_assoc, and_assoc]

theorem Threaded.congr (h : Threaded next len l e)
    (hl : ∀ b ∈ l, next' b.addr = next b.addr ∧ len' b.addr = len b.addr) :
    Threaded next' len' l e := by
  induction l with
  | nil => trivial
  | cons a l ih =>
    have ha := hl a mem_cons_self
    exact ⟨ha.2.trans h.1, ha.1.trans h.2.1, ih h.2.2 fun b hb => hl b (mem_cons_of_mem _ hb)⟩

theorem Threaded.len_eq (h : Threaded next len l e) (hb : b ∈ l) : len b.addr = b.len := by
  obtain ⟨l, r, rfl⟩ := append_of_mem hb
  exact (threaded_append.1 h).2.1

theorem Threaded.exists_last (h : Threaded next len (a :: l) e) :
    ∃ b ∈ a :: l, next b.addr = e := by
  induction l generalizing a with
  | nil => exact ⟨a, mem_cons_self, h.2.1⟩
  | cons b l ih =>
    obtain ⟨c, hc, hce⟩ := ih h.2.2
    exact ⟨c, mem_cons_of_mem _ hc, hce⟩

/-- The regions are met one after the other. -/
theorem Threaded.iterate (h : Threaded next len l e) :
    List.iterate next (first l e) l.length = l.map Region.addr ∧
      next^[l.length] (first l e) = e := by
  induction l with
  | nil => exact ⟨rfl, rfl⟩
  | cons a l ih =>
    obtain ⟨-, hnext, hl⟩ := h
    obtain ⟨hit, hlast⟩ := ih hl
    have hf : first (a :: l) e = a.addr := rfl
    rw [hf, length_cons, List.iterate, iterate_succ_apply, hnext, hit, hlast]
    exact ⟨rfl, rfl⟩

/-- The first region of a list with a property that some region has. -/
theorem Threaded.exists_first (h : Threaded next len l e) {p : ℕ → Prop}
    (hp : ∃ b ∈ l, p b.addr) :
    ∃ i < l.length, (∃ b ∈ l, next^[i] (first l e) = b.addr ∧ p b.addr) ∧
      ∀ j < i, ¬ p (next^[j] (first l e)) := by
  induction l with
  | nil => obtain ⟨b, hb, -⟩ := hp; cases hb
  | cons a l ih =>
    obtain ⟨-, hnext, hl⟩ := h
    by_cases ha : p a.addr
    · exact ⟨0, Nat.succ_pos _, ⟨a, mem_cons_self, rfl, ha⟩,
        fun j hj => absurd hj (Nat.not_lt_zero j)⟩
    · obtain ⟨b, hb, hpb⟩ := hp
      rcases mem_cons.1 hb with rfl | hb
      · exact absurd hpb ha
      obtain ⟨i, hi, ⟨c, hc, hic, hpc⟩, hmin⟩ := ih hl ⟨b, hb, hpb⟩
      have hstep : ∀ j, next^[j + 1] (first (a :: l) e) = next^[j] (first l e) := fun j => by
        rw [iterate_succ_apply, ← hnext]
        rfl
      refine ⟨i + 1, Nat.succ_lt_succ hi, ⟨c, mem_cons_of_mem _ hc, ?_, hpc⟩, fun j hj => ?_⟩
      · rw [hstep, hic]
      · cases j with
        | zero => exact ha
        | succ j =>
          rw [hstep]
          exact hmin j (Nat.lt_of_succ_lt_succ hj)

/-- A ring can be read from any of its regions. -/
theorem Circular.rotate (h : Circular next len (l ++ r)) : Circular next len (r ++ l) := by
  cases l with
  | nil => rw [append_nil]; exact h
  | cons a l =>
    cases r with
    | nil => rw [append_nil] at h; exact h
    | cons b r => exact threaded_append.2 (threaded_append.1 h).symm

theorem Circular.exists_pred {c : List Region} (h : Circular next len c) (hb : b ∈ c) :
    ∃ a ∈ c, next a.addr = b.addr := by
  obtain ⟨l, r, rfl⟩ := append_of_mem hb
  obtain ⟨a, ha, hab⟩ := Threaded.exists_last h.rotate
  exact ⟨a, (perm_append_comm.mem_iff).1 ha, hab⟩

theorem Circular.next_mem {c : List Region} (h : Circular next len c) (hb : b ∈ c) :
    ∃ a ∈ c, next b.addr = a.addr := by
  obtain ⟨l, r, rfl⟩ := append_of_mem hb
  have hring : Threaded next len (b :: (r ++ l)) b.addr := h.rotate
  have hmem : ∀ a ∈ b :: (r ++ l), a ∈ l ++ b :: r := fun a ha => by
    rw [← cons_append, mem_append, or_comm, ← mem_append] at ha
    exact ha
  cases hrl : r ++ l with
  | nil =>
    rw [hrl] at hring
    exact ⟨b, hmem b mem_cons_self, hring.2.1⟩
  | cons a rl =>
    rw [hrl] at hring hmem
    exact ⟨a, hmem a (mem_cons_of_mem _ mem_cons_self), hring.2.1⟩

theorem Circular.iterate {c : List Region} (h : Circular next len c) :
    List.iterate next (first c 0) c.length = c.map Region.addr ∧
      next^[c.length] (first c 0) = first c 0 := by
  have hf : first c (first c 0) = first c 0 := by cases c <;> rfl
  have hit := Threaded.iterate h
  rwa [hf] at hit

end Region

end Xv6
