import Mathlib.Data.UInt
import Mathlib.Logic.Function.Basic

/-!
# memmove

`memmove` of `string.c` copies down if the destination begins inside of the source, and up
otherwise. `memmove` of `ulib.c` always copies up. A byte that was written before it is read is
copied again, so that the destination repeats the first `dst - src` bytes (`copyUp_above`).

`memmove_agree_iff` says when the two agree. `memmove_repeats` is a case in which they do not.
-/

namespace Xv6.Move

open Function

abbrev Memory := UInt32 → UInt8

/-! ## The code -/

/-- `while(n-- > 0) *d++ = *s++`, for `n` rounds. -/
def copyUp : ℕ → UInt32 → UInt32 → Memory → Memory
  | 0, _, _, m => m
  | n + 1, d, s, m => copyUp n (d + 1) (s + 1) (update m d (m s))

/-- `while(n-- > 0) *--d = *--s`, for `n` rounds. -/
def copyDown : ℕ → UInt32 → UInt32 → Memory → Memory
  | 0, _, _, m => m
  | n + 1, d, s, m => copyDown n (d - 1) (s - 1) (update m (d - 1) (m (s - 1)))

/-- `memmove` of `string.c`. -/
def Kernel.memmove (m : Memory) (dst src n : UInt32) : Memory :=
  if src < dst ∧ src + n > dst then copyDown n.toNat (dst + n) (src + n) m
  else copyUp n.toNat dst src m

/-- `memmove` of `ulib.c`. There are no rounds if `n` is negative. -/
def User.memmove (m : Memory) (vdst vsrc : UInt32) (n : Int32) : Memory :=
  copyUp n.toInt.toNat vdst vsrc m

/-! ## Addresses -/

variable {m : Memory} {s d a : UInt32} {n i j k : ℕ}

/-- The address of the byte `i` of a range. -/
def addr (p : UInt32) (i : ℕ) : UInt32 := p + UInt32.ofNat i

theorem addr_zero (p : UInt32) : addr p 0 = p := UInt32.add_zero p

theorem addr_addr (p : UInt32) (i j : ℕ) : addr (addr p i) j = addr p (i + j) := by
  rw [addr, addr, addr, UInt32.ofNat_add, UInt32.add_assoc]

theorem addr_succ (p : UInt32) (i : ℕ) : addr (p + 1) i = addr p (1 + i) :=
  addr_addr p 1 i

theorem addr_sub_one (p : UInt32) (i : ℕ) : addr p (i + 1) - 1 = addr p i := by
  rw [← addr_addr]
  exact UInt32.add_sub_cancel _ _

theorem addr_inj (p : UInt32) (hi : i < 2 ^ 32) (hj : j < 2 ^ 32) (h : addr p i = addr p j) :
    i = j := by
  have he := congrArg UInt32.toNat ((UInt32.add_right_inj p).1 h)
  rwa [UInt32.toNat_ofNat_of_lt' hi, UInt32.toNat_ofNat_of_lt' hj] at he

/-- The addresses from `d` on are those from `s` on. -/
theorem addr_toNat_sub (h : s.toNat ≤ d.toNat) : addr s (d.toNat - s.toNat) = d := by
  have hlt := d.toNat_lt
  rw [← UInt32.toNat_inj, addr, UInt32.toNat_add,
    UInt32.toNat_ofNat_of_lt' (show _ < 2 ^ 32 by omega)]
  omega

/-! ## The loops -/

theorem copyUp_frame : ∀ (n : ℕ) (d s : UInt32) (m : Memory), (∀ i < n, a ≠ addr d i) →
    copyUp n d s m a = m a
  | 0, _, _, _, _ => rfl
  | n + 1, d, s, m, h => by
    rw [copyUp, copyUp_frame n (d + 1) (s + 1) _ fun i hi => ?_, update_of_ne]
    · have := h 0 (Nat.succ_pos n)
      rwa [addr_zero] at this
    · rw [addr_succ]
      exact h (1 + i) (by omega)

theorem copyDown_frame : ∀ (n : ℕ) (d s : UInt32) (m : Memory), (∀ i < n, a ≠ addr d i) →
    copyDown n (addr d n) (addr s n) m a = m a
  | 0, _, _, _, _ => rfl
  | n + 1, d, s, m, h => by
    rw [copyDown, addr_sub_one, addr_sub_one,
      copyDown_frame n d s _ fun i hi => h i (by omega), update_of_ne (h n (by omega))]

/-- Copying up to lower addresses. -/
theorem copyUp_below : ∀ (n k : ℕ) (d : UInt32) (m : Memory), k + n ≤ 2 ^ 32 → ∀ i < n,
    copyUp n d (addr d k) m (addr d i) = m (addr d (k + i))
  | 0, _, _, _, _, i, hi => absurd hi (Nat.not_lt_zero i)
  | n + 1, k, d, m, hk, 0, _ => by
    rw [copyUp, copyUp_frame, addr_zero, update_self, add_zero]
    intro i hi he
    rw [addr_succ] at he
    have := addr_inj d (by omega) (by omega) he
    omega
  | n + 1, k, d, m, hk, i + 1, hi => by
    have hsrc : addr d k + 1 = addr (d + 1) k := by
      rw [addr_succ, Nat.add_comm]
      exact addr_addr d k 1
    have hnext := copyUp_below n k (d + 1) (update m d (m (addr d k))) (by omega) i (by omega)
    rw [copyUp, hsrc, Nat.add_comm i 1, ← addr_succ, hnext, addr_succ, update_of_ne]
    · congr 2
      omega
    · intro he
      have := addr_inj d (j := 0) (by omega) (by omega) (he.trans (addr_zero d).symm)
      omega

/-- Copying up to higher addresses repeats the first bytes. -/
theorem copyUp_above {k : ℕ} (hk : 0 < k) : ∀ (n : ℕ) (s : UInt32) (m : Memory),
    k + n ≤ 2 ^ 32 → ∀ i < n,
    copyUp n (addr s k) s m (addr s (k + i)) = m (addr s (i % k))
  | 0, _, _, _, i, hi => absurd hi (Nat.not_lt_zero i)
  | n + 1, s, m, hn, i, hi => by
    have hdst : addr s k + 1 = addr (s + 1) k := by
      rw [addr_succ, Nat.add_comm]
      exact addr_addr s k 1
    rw [copyUp, hdst]
    cases i with
    | zero =>
      rw [copyUp_frame, add_zero, update_self, Nat.zero_mod, addr_zero]
      intro j hj he
      rw [addr_addr, addr_succ] at he
      have := addr_inj s (by omega) (by omega) he
      omega
    | succ i =>
      have hnext := copyUp_above hk n (s + 1) (update m (addr s k) (m s)) (by omega) i (by omega)
      have haddr : addr s (k + (i + 1)) = addr (s + 1) (k + i) := by
        rw [addr_succ]
        congr 1
        omega
      have hlt := Nat.mod_lt i hk
      rw [haddr, hnext, addr_succ, ← Nat.mod_add_mod i k 1, add_comm (i % k) 1]
      -- The first byte that was written is the last one before it is read again.
      by_cases hlast : 1 + i % k = k
      · rw [hlast, update_self, Nat.mod_self, addr_zero]
      · rw [Nat.mod_eq_of_lt (show 1 + i % k < k by omega), update_of_ne]
        intro he
        exact hlast (addr_inj s (by omega) (by omega) he)

/-- Copying down to higher addresses. -/
theorem copyDown_above : ∀ (n k : ℕ) (s : UInt32) (m : Memory), 0 < k → k + n ≤ 2 ^ 32 → ∀ i < n,
    copyDown n (addr s (k + n)) (addr s n) m (addr s (k + i)) = m (addr s i)
  | 0, _, _, _, _, _, i, hi => absurd hi (Nat.not_lt_zero i)
  | n + 1, k, s, m, hk, hn, i, hi => by
    rw [copyDown, ← add_assoc, addr_sub_one, addr_sub_one]
    by_cases hlast : i = n
    · subst hlast
      rw [← addr_addr, copyDown_frame, update_self]
      intro j hj he
      rw [addr_addr, addr_addr] at he
      have := addr_inj s (by omega) (by omega) he
      omega
    · rw [copyDown_above n k s _ hk (by omega) i (by omega), update_of_ne]
      intro he
      have := addr_inj s (by omega) (by omega) he
      omega

/-! ## Both functions -/

/-- The destination has the old contents of the source, and no other byte has changed. -/
structure Moved (m m' : Memory) (dst src : UInt32) (n : ℕ) : Prop where
  hit : ∀ i < n, m' (addr dst i) = m (addr src i)
  miss : ∀ a, (∀ i < n, a ≠ addr dst i) → m' a = m a

/-- The bytes of the source repeat at the distance of the destination, if that is above. -/
def Repeats (m : Memory) (dst src : UInt32) (n : ℕ) : Prop :=
  src < dst → ∀ i < n, m (addr src i) = m (addr src (i % (dst.toNat - src.toNat)))

instance (m : Memory) (dst src : UInt32) (n : ℕ) : Decidable (Repeats m dst src n) :=
  inferInstanceAs (Decidable (_ → _))

theorem addr_toNat (p n : UInt32) : addr p n.toNat = p + n := by
  rw [addr, UInt32.ofNat_toNat]

/-- `memmove` of `string.c` moves every range. -/
theorem kernel_moved (m : Memory) {dst src n : UInt32} (hs : src.toNat + n.toNat ≤ 2 ^ 32)
    (hd : dst.toNat + n.toNat ≤ 2 ^ 32) :
    Moved m (Kernel.memmove m dst src n) dst src n.toNat := by
  unfold Kernel.memmove
  split_ifs with h
  · rw [← addr_toNat, ← addr_toNat]
    refine ⟨fun i hi => ?_, fun a ha => copyDown_frame _ _ _ _ ha⟩
    have hlt := UInt32.lt_iff_toNat_lt.1 h.1
    have hdst := addr_toNat_sub hlt.le
    have hdown := copyDown_above n.toNat (dst.toNat - src.toNat) src m (by omega) (by omega) i hi
    rwa [← addr_addr, ← addr_addr, hdst] at hdown
  · refine ⟨fun i hi => ?_, fun a ha => copyUp_frame _ _ _ _ ha⟩
    rcases lt_or_ge src.toNat dst.toNat with hlt | hge
    · -- The ranges are disjoint.
      have hdst := addr_toNat_sub hlt.le
      have hsum : (src + n).toNat = src.toNat + n.toNat := by
        rw [UInt32.toNat_add, Nat.mod_eq_of_lt (by omega)]
      have hapart : src.toNat + n.toNat ≤ dst.toNat := by
        rw [← hsum]
        exact not_lt.1 fun hc => h ⟨UInt32.lt_iff_toNat_lt.2 hlt, UInt32.lt_iff_toNat_lt.2 hc⟩
      have hup := copyUp_above (k := dst.toNat - src.toNat) (by omega) n.toNat src m (by omega) i hi
      rwa [← addr_addr, hdst, Nat.mod_eq_of_lt (by omega)] at hup
    · have hsrc := addr_toNat_sub hge
      have hup := copyUp_below n.toNat (src.toNat - dst.toNat) dst m (by omega) i hi
      rwa [← addr_addr, hsrc] at hup

/-- `memmove` of `ulib.c`. -/
theorem user_moved (m : Memory) {dst src : UInt32} {n : Int32}
    (hs : src.toNat + n.toInt.toNat ≤ 2 ^ 32) (hd : dst.toNat + n.toInt.toNat ≤ 2 ^ 32) :
    (∀ i < n.toInt.toNat, User.memmove m dst src n (addr dst i) =
      m (addr src (if src < dst then i % (dst.toNat - src.toNat) else i))) ∧
    ∀ a, (∀ i < n.toInt.toNat, a ≠ addr dst i) → User.memmove m dst src n a = m a := by
  refine ⟨fun i hi => ?_, fun a ha => copyUp_frame _ _ _ _ ha⟩
  unfold User.memmove
  split_ifs with hlt
  · have hlt := UInt32.lt_iff_toNat_lt.1 hlt
    have hdst := addr_toNat_sub hlt.le
    have hup := copyUp_above (k := dst.toNat - src.toNat) (by omega) n.toInt.toNat src m (by omega)
      i hi
    rwa [← addr_addr, hdst] at hup
  · have hge : dst.toNat ≤ src.toNat := not_lt.1 fun hc => hlt (UInt32.lt_iff_toNat_lt.2 hc)
    have hsrc := addr_toNat_sub hge
    have hup := copyUp_below n.toInt.toNat (src.toNat - dst.toNat) dst m (by omega) i hi
    rwa [← addr_addr, hsrc] at hup

theorem toNat_toUInt32 {n : Int32} (hn : 0 ≤ n) : n.toUInt32.toNat = n.toInt.toNat := by
  have hpos : 0 ≤ n.toInt := Int32.le_iff_toInt_le.1 hn
  have hnat : n.toUInt32.toNat = n.toBitVec.toNat := rfl
  have hint : n.toInt = n.toBitVec.toInt := rfl
  rw [hint, BitVec.toInt_eq_toNat_cond] at hpos
  rw [hnat, hint, BitVec.toInt_eq_toNat_cond]
  split_ifs at hpos ⊢ <;> omega

/-- The two functions agree exactly if the source repeats, or the destination does not begin
inside of it. -/
theorem memmove_agree_iff (m : Memory) (dst src : UInt32) (n : Int32) (hn : 0 ≤ n)
    (hs : src.toNat + n.toInt.toNat ≤ 2 ^ 32) (hd : dst.toNat + n.toInt.toNat ≤ 2 ^ 32) :
    Moved m (Kernel.memmove m dst src n.toUInt32) dst src n.toInt.toNat ∧
    (User.memmove m dst src n = Kernel.memmove m dst src n.toUInt32 ↔
      Repeats m dst src n.toInt.toNat) := by
  have hlen := toNat_toUInt32 hn
  have hk : Moved m (Kernel.memmove m dst src n.toUInt32) dst src n.toInt.toNat := by
    rw [← hlen] at hs hd ⊢
    exact kernel_moved m hs hd
  obtain ⟨hu, hu'⟩ := user_moved m hs hd
  refine ⟨hk, fun h hlt i hi => ?_, fun h => funext fun a => ?_⟩
  · have he := hu i hi
    rwa [h, hk.hit i hi, if_pos hlt] at he
  · by_cases ha : ∃ i < n.toInt.toNat, a = addr dst i
    · obtain ⟨i, hi, rfl⟩ := ha
      rw [hu i hi, hk.hit i hi]
      split_ifs with hlt
      · rw [← h hlt i hi]
      · rfl
    · have hout : ∀ i < n.toInt.toNat, a ≠ addr dst i := fun i hi he => ha ⟨i, hi, he⟩
      rw [hu' a hout, hk.miss a hout]

/-- Four bytes are moved down by two, and bytes that repeat after two are moved up by two. -/
theorem memmove_agree_overlap :
    User.memmove (fun a => a.toUInt8) 2 4 4 = Kernel.memmove (fun a => a.toUInt8) 2 4 4 ∧
    Kernel.memmove (fun a => a.toUInt8) 2 4 4 5 = 7 ∧
    Repeats (fun a => (a % 2).toUInt8) 2 0 4 ∧
    User.memmove (fun a => (a % 2).toUInt8) 2 0 4 =
      Kernel.memmove (fun a => (a % 2).toUInt8) 2 0 4 := by
  have hrep : Repeats (fun a => (a % 2).toUInt8) 2 0 4 := by decide
  refine ⟨?_, by decide, hrep, ?_⟩
  · exact (memmove_agree_iff (fun a => a.toUInt8) 2 4 4 (by decide) (by decide)
      (by decide)).2.2 (by decide)
  · exact (memmove_agree_iff (fun a => (a % 2).toUInt8) 2 0 4 (by decide) (by decide)
      (by decide)).2.2 hrep

/-- The bytes 0 and 1 are moved up by one. `memmove` of `ulib.c` writes 0 twice. -/
theorem memmove_repeats :
    Kernel.memmove (fun a => a.toUInt8) 1 0 2 2 = 1 ∧
      User.memmove (fun a => a.toUInt8) 1 0 2 2 = 0 := by
  decide

end Xv6.Move
