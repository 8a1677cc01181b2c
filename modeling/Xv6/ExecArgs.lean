import Xv6.ExecLoad

/-!
# The stack that exec builds

The stack is one page with a page below it that the user cannot access. `exec` pushes the argument
strings, then the pointers to them. What does not fit reaches the page below, where `copyout`
stops, so that a stack that `exec` has built is all in its page (`buildStack_spec`).
-/

namespace Xv6.Vm

open Function Ram List Option

variable {n bottom : ℕ} {ptrs : List UInt32}

variable {k : Kernel}

/-- The size of a string on the stack, a multiple of 4. -/
def CString.room (arg : CString) : ℕ := (arg.chars.length + 1 + 3) / 4 * 4

/-- The size of the stack for some arguments. -/
def stackSize (argv : List CString) : ℕ := (argv.map CString.room).sum + 4 * (argv.length + 4)

/-- `x & ~3`. -/
theorem toNat_and_not_three (x : UInt32) : (x &&& ~~~3).toNat = x.toNat / 4 * 4 := by
  have hmask : (~~~3 : UInt32).toNat = 2 ^ 32 - (3 + 1) := rfl
  have h3 : ∀ i, Nat.testBit 3 i = decide (i < 2) := Nat.testBit_two_pow_sub_one 2
  have hmul : x.toNat / 4 * 4 = (x.toNat >>> 2) <<< 2 := by
    rw [Nat.shiftLeft_eq, Nat.shiftRight_eq_div_pow]
  rw [UInt32.toNat_and, hmask, hmul]
  refine Nat.eq_of_testBit_eq fun i => ?_
  rw [Nat.testBit_and, Nat.testBit_two_pow_sub_succ (by decide), h3, Nat.testBit_shiftLeft,
    Nat.testBit_shiftRight]
  by_cases hi : i < 2
  · simp [hi, not_le.2 hi]
  · have hi' : 2 + (i - 2) = i := by omega
    by_cases h32 : i < 32
    · simp [hi, not_lt.1 hi, hi', h32]
    · have hx : x.toNat.testBit i = false :=
        Nat.testBit_lt_two_pow (lt_of_lt_of_le x.toNat_lt (Nat.pow_le_pow_right (by decide)
          (not_lt.1 h32)))
      simp [hi', hx]

/-- `(sp - n) & ~3`, which may wrap. -/
theorem toNat_push (sp : UInt32) (hn : n < 2 ^ 32) :
    ((sp - UInt32.ofNat n) &&& ~~~3).toNat =
      if n ≤ sp.toNat then (sp.toNat - n) / 4 * 4 else (2 ^ 32 + sp.toNat - n) / 4 * 4 := by
  have hsp := sp.toNat_lt
  rw [toNat_and_not_three, UInt32.toNat_sub, UInt32.toNat_ofNat', Nat.mod_eq_of_lt hn]
  split_ifs with h
  · congr 2
    omega
  · congr 2
    omega

namespace Store

variable {s t u : Store} {sz va : ℕ} {null : Pte} {buf : List UInt8}

/-! ## copyout to user memory -/

/-- `copyout` writes all of the buffer, or it comes to an address that it cannot write. -/
theorem copyout_spec (null : Pte) (hs : s.Wf k) (hd : s.pgdir.KernelOnly) (hva : va < 2 ^ 32)
    (hlen : buf.length ≤ 2 ^ 32) :
    Outcome (s.copyout null va buf)
      (fun f => f = .null ∧ ∃ n < buf.length, StopsAt s.pgdir va n ∧
        s.pgdir.walk (addr va n) = none) fun r =>
      UserOnly s r.2 ∧ (r.1 = true → Writable s.pgdir va buf.length ∧
        Stored s.pgdir.user s.mem r.2.mem (addr va) buf.length fun i => buf.getD i 0) ∧
      (Writable s.pgdir va buf.length → r.1 = true) := by
  unfold copyout
  refine (copyoutBytes_ok null (separate_dest hd hs.separate) buf.length va buf s.mem hva le_rfl
    hlen).bind ?_
  rintro ⟨ok, m⟩ ⟨n, hcop, htrue, hfalse⟩
  have hstored := stored_user hd hcop.stored
  refine outcome_ok ⟨.of_stored hstored, fun hok => ?_, fun hw => ?_⟩
  · rw [← htrue hok]
    exact ⟨hcop.writable, hstored⟩
  · by_contra hok
    obtain ⟨hn, hstop, -⟩ := hfalse (Bool.eq_false_iff.2 hok)
    exact not_writable_of_stopsAt hn hstop hw

/-! ## The two pages -/

/-- An address space with a stack page at its end and a page below that is not for the user. -/
structure HasStack (k : Kernel) (s : Store) (sz : ℕ) : Prop where
  wf : s.Wf k
  kernel : HasKernel s.pgdir
  mod : sz % 4096 = 0
  le : 8192 ≤ sz
  lt : sz < KERNBASE
  contig : s.pgdir.Contig sz
  stack : ∃ e, s.pgdir.entry (sz - 4096) = some e ∧ e.u = true
  guard : ∃ e, s.pgdir.entry (sz - 8192) = some e ∧ e.u = false

theorem HasStack.congr (h : HasStack k s sz) (ht : t.Wf k) (hpg : t.pgdir = s.pgdir) :
    HasStack k t sz := by
  refine ⟨ht, ?_, h.mod, h.le, h.lt, ?_, ?_, ?_⟩
  · rw [hpg]
    exact h.kernel
  · rw [hpg]
    exact h.contig
  · rw [hpg]
    exact h.stack
  · rw [hpg]
    exact h.guard

theorem HasStack.userOnly (h : HasStack k s sz) (hu : UserOnly s t) : HasStack k t sz :=
  h.congr (hu.wf h.wf) hu.pgdir

theorem dest_of_entry {d : Pgdir} {e : Pte} (he : d.entry (PGROUNDDOWN va) = some e) :
    d.dest va = if va < 2 ^ 32 ∧ e.u = true then some (e.pa + va % PGSIZE) else none := by
  obtain ⟨hw, hp⟩ := entry_eq_some.1 he
  rw [walk_pgrounddown] at hw
  rw [Pgdir.dest, hw]
  cases hu : e.u <;> simp [hu, hp]

variable (h : HasStack k s sz)
include h

theorem HasStack.not_writable (hle : sz ≤ va + 8192) (hlt : va + 4096 < sz) :
    s.pgdir.dest va = none := by
  obtain ⟨e, he, hu⟩ := h.guard
  have hmod := h.mod
  have hround : PGROUNDDOWN va = sz - 8192 := by
    simp only [PGROUNDDOWN, PGSIZE]
    omega
  rw [dest_of_entry (hround ▸ he), if_neg]
  rw [hu]
  simp

/-- The stack page can be written. -/
theorem HasStack.writable (hle : sz ≤ va + 4096) (hn : va + n ≤ sz) :
    Writable s.pgdir va n := by
  intro i hi
  obtain ⟨e, he, hu⟩ := h.stack
  have hmod := h.mod
  have hge := h.le
  have hk := h.lt.trans kernbase_lt
  have hround : PGROUNDDOWN (va + i) = sz - 4096 := by
    simp only [PGROUNDDOWN, PGSIZE]
    omega
  rw [addr, Nat.mod_eq_of_lt (by omega), dest_of_entry (hround ▸ he), if_pos ⟨by omega, hu⟩]
  exact ⟨_, rfl⟩

/-- The last page of all belongs to the kernel. -/
theorem HasStack.not_writable_last (hle : 0xFFFFF000 ≤ va) (hlt : va < 2 ^ 32) :
    s.pgdir.dest va = none ∧ s.pgdir.walk va ≠ none := by
  have hround : PGROUNDDOWN va = 0xFFFFF000 := by
    simp only [PGROUNDDOWN, PGSIZE]
    omega
  obtain ⟨e, he⟩ := present_iff_entry.1 h.kernel.last
  rw [← hround] at he
  have hal := aligned_pgrounddown hlt
  have hu := kernelOnly_iff.1 h.kernel.only _ e hal (by rw [hround]; decide) he
  refine ⟨?_, ?_⟩
  · rw [dest_of_entry he, if_neg]
    rw [hu]
    simp
  · rw [← walk_pgrounddown, (entry_eq_some.1 he).1]
    simp

theorem HasStack.walk_ne_none (hlt : va < sz) : s.pgdir.walk va ≠ none := by
  have hk := h.lt
  have hle := pgrounddown_le va
  obtain ⟨e, he⟩ := present_iff_entry.1 ((h.contig _
    (aligned_pgrounddown ((hlt.trans hk).trans kernbase_lt)) (by omega)).2 (by omega))
  rw [← walk_pgrounddown, (entry_eq_some.1 he).1]
  simp

/-- What does not fit into the stack page cannot be written. -/
theorem HasStack.push_fits {sp p : ℕ} (hsp : sz ≤ sp + 4096) (hle : sp ≤ sz) (h4 : sp % 4 = 0)
    (hn : 0 < n) (hp : p = if n ≤ sp then (sp - n) / 4 * 4 else (2 ^ 32 + sp - n) / 4 * 4)
    (hw : Writable s.pgdir p n) : p + (n + 3) / 4 * 4 = sp ∧ sz ≤ p + 4096 := by
  have hmod := h.mod
  have hge := h.le
  have hk := h.lt.trans kernbase_lt
  have hbad : ∀ i < n, s.pgdir.dest (addr p i) ≠ none := fun i hi hnone => by
    obtain ⟨x, hx⟩ := hw i hi
    rw [hnone] at hx
    cases hx
  split_ifs at hp with hnsp
  · by_cases hfit : sz ≤ p + 4096
    · exact ⟨by omega, hfit⟩
    exfalso
    by_cases hg : sz ≤ p + 8192
    · refine hbad 0 hn ?_
      rw [addr_zero (by omega)]
      exact h.not_writable hg (by omega)
    · refine hbad (sz - 8192 - p) (by omega) ?_
      rw [addr, Nat.mod_eq_of_lt (by omega)]
      exact h.not_writable (by omega) (by omega)
  · exfalso
    refine hbad (2 ^ 32 - 1 - p) (by omega) ?_
    rw [addr, Nat.mod_eq_of_lt (by omega)]
    exact (h.not_writable_last (by omega) (by omega)).1

/-- A string that is shorter than the address space does not lead to a page without a page
table. -/
theorem HasStack.push_stops {sp p i : ℕ} (hsp : sz ≤ sp + 4096) (hle : sp ≤ sz) (hn : n ≤ sz)
    (hp : p = if n ≤ sp then (sp - n) / 4 * 4 else (2 ^ 32 + sp - n) / 4 * 4) (hi : i < n)
    (hstop : StopsAt s.pgdir p i) : s.pgdir.walk (addr p i) ≠ none := by
  have hmod := h.mod
  have hge := h.le
  have hk := h.lt.trans kernbase_lt
  split_ifs at hp with hnsp
  · rw [addr, Nat.mod_eq_of_lt (by omega)]
    exact h.walk_ne_none (by omega)
  · have hlast : s.pgdir.dest p = none ∧ s.pgdir.walk p ≠ none :=
      h.not_writable_last (by omega) (by omega)
    have h0 : i = 0 := by
      by_contra hne
      obtain ⟨x, hx⟩ := hstop.writable 0 (pos_of_ne_zero hne)
      rw [addr_zero (by omega), hlast.1] at hx
      cases hx
    rw [h0, addr_zero (by omega)]
    exact hlast.2

omit h

/-! ## What is on the stack -/

/-- The bytes from an address on. -/
def Holds (s : Store) (va : ℕ) (bytes : List UInt8) : Prop :=
  ∀ i < bytes.length, s.byte (va + i) = bytes[i]?

theorem Holds.congr {bytes : List UInt8} (h : s.Holds va bytes)
    (hb : ∀ i < bytes.length, t.byte (va + i) = s.byte (va + i)) : t.Holds va bytes :=
  fun i hi => (hb i hi).trans (h i hi)

/-- A buffer has been copied to an address. -/
theorem holds_of_stored (hpg : t.pgdir = s.pgdir) (hva : va + buf.length ≤ 2 ^ 32)
    (h : Stored s.pgdir.user s.mem t.mem (addr va) buf.length fun i => buf.getD i 0) :
    t.Holds va buf := by
  intro i hi
  have hhit := h.view_hit hi
  rw [addr, Nat.mod_eq_of_lt (by omega)] at hhit
  rw [byte, hpg, hhit, getD_eq_getElem?_getD, List.getElem?_eq_getElem hi]
  rfl

theorem byte_of_stored (hs : s.Wf k) (hpg : t.pgdir = s.pgdir) (hva : va + buf.length ≤ 2 ^ 32)
    (h : Stored s.pgdir.user s.mem t.mem (addr va) buf.length fun i => buf.getD i 0) {a : ℕ}
    (ha : a < va ∨ va + buf.length ≤ a) : t.byte a = s.byte a := by
  rw [byte, byte, hpg]
  refine h.view_miss hs.separate fun i hi heq => ?_
  rw [addr, Nat.mod_eq_of_lt (by omega)] at heq
  omega

/-- Strings from `sp` down, each with the byte that ends it, down to `bottom`. -/
def Pushed (s : Store) (bottom : ℕ) : ℕ → List CString → List UInt32 → Prop
  | sp, [], [] => bottom = sp
  | sp, arg :: argv, p :: ptrs => p.toNat + arg.room = sp ∧ s.Holds p.toNat (arg.chars ++ [0]) ∧
      Pushed s bottom p.toNat argv ptrs
  | _, _, _ => False

theorem length_le_room (arg : CString) : (arg.chars ++ [0]).length ≤ arg.room := by
  rw [CString.room, length_append, length_singleton]
  omega

theorem Pushed.sum : ∀ {sp : ℕ} {argv : List CString} {ptrs : List UInt32},
    Pushed s bottom sp argv ptrs →
      bottom + (argv.map CString.room).sum = sp ∧ ptrs.length = argv.length
  | sp, [], [], h => ⟨h, rfl⟩
  | sp, arg :: argv, p :: ptrs, ⟨hp, _, h⟩ => by
    obtain ⟨hsum, hlen⟩ := h.sum
    rw [map_cons, sum_cons, length_cons, length_cons, hlen]
    exact ⟨by omega, rfl⟩

theorem Pushed.congr : ∀ {sp : ℕ} {argv : List CString} {ptrs : List UInt32},
    Pushed s bottom sp argv ptrs →
    (∀ va, bottom ≤ va → va < sp → t.byte va = s.byte va) → Pushed t bottom sp argv ptrs
  | sp, [], [], h, _ => h
  | sp, arg :: argv, p :: ptrs, ⟨hp, hh, h⟩, hb => by
    have hle := h.sum.1
    have hroom := length_le_room arg
    refine ⟨hp, hh.congr fun i hi => hb _ (by omega) (by omega), h.congr fun va hva hlt => ?_⟩
    exact hb va hva (by omega)

/-- The size of a string, as `exec` computes it. -/
theorem push_eq (sp : UInt32) (arg : CString) :
    ((sp - (UInt32.ofNat arg.chars.length + 1)) &&& ~~~3).toNat =
      if (arg.chars ++ [0]).length ≤ sp.toNat then (sp.toNat - (arg.chars ++ [0]).length) / 4 * 4
      else (2 ^ 32 + sp.toNat - (arg.chars ++ [0]).length) / 4 * 4 := by
  have hlen : (arg.chars ++ [0]).length = arg.chars.length + 1 := by simp
  have hone : UInt32.ofNat arg.chars.length + 1 = UInt32.ofNat (arg.chars.length + 1) :=
    (UInt32.ofNat_add _ _).symm
  rw [hone, hlen, toNat_push sp arg.lt]

/-- The arguments are pushed, or one does not fit. -/
theorem pushArgs_spec (null : Pte) : ∀ (argv : List CString) (sp : UInt32) (ptrs : List UInt32)
    (s : Store), HasStack k s sz → sz ≤ sp.toNat + 4096 → sp.toNat ≤ sz → sp.toNat % 4 = 0 →
    Outcome (pushArgs null argv sp ptrs s)
      (fun f => f = .null ∧ ∃ arg ∈ argv, sz ≤ arg.chars.length) fun r =>
      UserOnly s r.2 ∧ (∀ sp' ptrs', r.1 = some (sp', ptrs') →
        ∃ qs, ptrs' = ptrs ++ qs ∧ Pushed r.2 sp'.toNat sp.toNat argv qs ∧
          sz ≤ sp'.toNat + 4096 ∧ sp'.toNat % 4 = 0 ∧
          ∀ va, va < sp'.toNat ∨ sp.toNat ≤ va → r.2.byte va = s.byte va) ∧
        (sz + (argv.map CString.room).sum ≤ sp.toNat + 4096 →
          ptrs.length + argv.length ≤ MAXARG → r.1.isSome)
  | [], sp, ptrs, s, h, hsp, hle, h4 => by
    refine outcome_ok ⟨.refl s, fun sp' ptrs' hr => ?_, fun _ _ => rfl⟩
    obtain ⟨rfl, rfl⟩ := Prod.mk.inj (some.inj hr)
    exact ⟨[], (append_nil _).symm, rfl, hsp, h4, fun _ _ => rfl⟩
  | arg :: argv, sp, ptrs, s, h, hsp, hle, h4 => by
    rw [pushArgs]
    rw [map_cons, sum_cons, length_cons]
    split_ifs with hmax
    · exact outcome_ok ⟨.refl s, by simp, fun _ hn => by omega⟩
    have hk := h.lt.trans kernbase_lt
    have hlen : (arg.chars ++ [0]).length = arg.chars.length + 1 := by simp
    have hlt := arg.lt
    have hpush := push_eq sp arg
    dsimp only
    generalize (sp - (UInt32.ofNat arg.chars.length + 1)) &&& ~~~3 = p at hpush ⊢
    refine ((copyout_spec null h.wf h.kernel.only p.toNat_lt (by omega)).mono ?_
      fun _ h => h).bind ?_
    · rintro f ⟨hf, i, hi, hstop, hwalk⟩
      refine ⟨hf, arg, mem_cons_self, not_lt.1 fun hshort => ?_⟩
      exact h.push_stops hsp hle (by omega) hpush hi hstop hwalk
    rintro ⟨ok, s₁⟩ ⟨hu, hw, hprog⟩
    dsimp only at hu hw hprog ⊢
    cases ok with
    | false =>
      refine outcome_ok ⟨hu, by simp, fun hroom _ => ?_⟩
      have hge := h.le
      have hlr := length_le_room arg
      rw [CString.room] at hroom hlr
      rw [if_pos (by omega)] at hpush
      cases hprog (h.writable (by omega) (by omega))
    | true =>
      obtain ⟨hwr, hst⟩ := hw rfl
      obtain ⟨hroom, hp⟩ := h.push_fits hsp hle h4 (by omega) hpush hwr
      have hfit : p.toNat + (arg.chars ++ [0]).length ≤ sp.toNat := by omega
      refine (pushArgs_spec null argv p (ptrs ++ [p]) s₁ (h.userOnly hu) hp (by omega)
        (by omega)).mono ?_ ?_
      · rintro f ⟨hf, a, ha, hsz⟩
        exact ⟨hf, a, mem_cons_of_mem _ ha, hsz⟩
      rintro r ⟨hu', hr, hprog'⟩
      refine ⟨hu.trans hu', fun sp' ptrs' heq => ?_, fun hsum hn => hprog' ?_ ?_⟩
      rotate_left
      · rw [CString.room] at hsum
        omega
      · rw [length_append, length_singleton]
        omega
      obtain ⟨qs, rfl, hpushed, hsp', h4', hbyte⟩ := hr sp' ptrs' heq
      have hbottom := hpushed.sum.1
      refine ⟨p :: qs, append_assoc _ _ _, ⟨?_, ?_, hpushed⟩, hsp', h4', fun va hva => ?_⟩
      · rw [CString.room, ← hlen]
        exact hroom
      · exact (holds_of_stored hu.pgdir (by omega) hst).congr fun i _ => hbyte _ (by omega)
      · rw [hbyte va (by omega)]
        exact byte_of_stored h.wf hu.pgdir (by omega) hst (by omega)

/-- The stack of a program that starts : the return PC, `argc` and the argv pointer, the pointers
to the strings and a 0, and above them the strings, one below the other. -/
structure Arguments (s : Store) (sz : ℕ) (esp : UInt32) (argv : List CString) (ptrs : List UInt32) :
    Prop where
  length : ptrs.length = argv.length
  /-- All is in the last page. -/
  le : sz ≤ esp.toNat + PGSIZE
  words : s.Holds esp.toNat
    (leWords ([0xffffffff, argv.length, esp.toNat + 12] ++ ptrs.map UInt32.toNat ++ [0]))
  string : ∀ (i : ℕ) (arg : CString) (p : UInt32), argv[i]? = some arg → ptrs[i]? = some p →
    s.Holds p.toNat (arg.chars ++ [0]) ∧ esp.toNat + 4 * (argv.length + 4) ≤ p.toNat ∧
      p.toNat + (arg.chars.length + 1) ≤ sz
  disjoint : ∀ (i j : ℕ) (arg : CString) (p q : UInt32), i < j → argv[j]? = some arg →
    ptrs[j]? = some q → ptrs[i]? = some p → q.toNat + (arg.chars.length + 1) ≤ p.toNat

theorem Arguments.congr {esp : UInt32} {argv : List CString} (h : s.Arguments sz esp argv ptrs)
    (hb : ∀ va, t.byte va = s.byte va) :
    t.Arguments sz esp argv ptrs :=
  { h with
    words := h.words.congr fun i _ => hb _
    string := fun i arg p ha hp => by
      obtain ⟨hs, hle⟩ := h.string i arg p ha hp
      exact ⟨hs.congr fun i _ => hb _, hle⟩ }

theorem Pushed.string : ∀ {sp : ℕ} {argv : List CString} {ptrs : List UInt32},
    Pushed s bottom sp argv ptrs → ∀ (i : ℕ) (arg : CString) (p : UInt32), argv[i]? = some arg →
      ptrs[i]? = some p → s.Holds p.toNat (arg.chars ++ [0]) ∧ bottom ≤ p.toNat ∧
        p.toNat + (arg.chars.length + 1) ≤ sp
  | sp, arg :: argv, p :: ptrs, ⟨hp, hh, h⟩, i, a, q, ha, hq => by
    have hle := h.sum.1
    have hroom := length_le_room arg
    rw [length_append, length_singleton] at hroom
    cases i with
    | zero =>
      obtain rfl := some.inj ha
      obtain rfl := some.inj hq
      exact ⟨hh, by omega, by omega⟩
    | succ i =>
      obtain ⟨hh', hb, hlt⟩ := h.string i a q ha hq
      exact ⟨hh', hb, by omega⟩

theorem Pushed.disjoint : ∀ {sp : ℕ} {argv : List CString} {ptrs : List UInt32},
    Pushed s bottom sp argv ptrs → ∀ (i j : ℕ) (arg : CString) (p q : UInt32), i < j →
      argv[j]? = some arg → ptrs[j]? = some q → ptrs[i]? = some p →
        q.toNat + (arg.chars.length + 1) ≤ p.toNat
  | sp, arg :: argv, p :: ptrs, ⟨_, _, h⟩, i, j + 1, a, p', q, hij, ha, hq, hp' => by
    cases i with
    | zero =>
      obtain rfl := some.inj hp'
      exact (h.string j a q ha hq).2.2
    | succ i => exact h.disjoint i j a p' q (by omega) ha hq hp'

/-- There is room in `ustack`. -/
theorem pushArgs_length (null : Pte) : ∀ (argv : List CString) (sp : UInt32) (ptrs : List UInt32)
    (s : Store), ptrs.length ≤ MAXARG →
    Outcome (pushArgs null argv sp ptrs s) (fun _ => True) fun r =>
      ∀ q, r.1 = some q → q.2.length ≤ MAXARG
  | [], sp, ptrs, s, h => outcome_ok fun q hq => by
    obtain rfl := some.inj hq
    exact h
  | arg :: argv, sp, ptrs, s, h => by
    rw [pushArgs]
    split_ifs with hmax
    · exact outcome_ok (by simp)
    refine outcome_true.bind fun r _ => ?_
    dsimp only
    split_ifs
    · refine pushArgs_length null argv _ _ _ ?_
      rw [length_append, length_singleton]
      omega
    · exact outcome_ok (by simp)

/-- The size of `ustack` does not wrap. -/
theorem toNat_ustack {n : ℕ} (h : n ≤ MAXARG) :
    ((3 + UInt32.ofNat n + 1) * 4).toNat = 4 * (n + 4) := by
  have hn : n < 2 ^ 32 := lt_of_le_of_lt h (by decide)
  simp only [MAXARG] at h
  rw [UInt32.toNat_mul, UInt32.toNat_add, UInt32.toNat_add, UInt32.toNat_ofNat',
    Nat.mod_eq_of_lt hn]
  simp only [UInt32.toNat_ofNat]
  omega

theorem length_ustack (sp : UInt32) (ptrs : List UInt32) :
    (leWords ((ustack sp ptrs).map UInt32.toNat)).length = 4 * (ptrs.length + 4) := by
  simp only [ustack, length_leWords, length_map, length_append, length_cons,
    length_nil]
  omega

theorem map_ustack {sp : UInt32} (hmax : ptrs.length ≤ MAXARG)
    (hsp : 4 * (ptrs.length + 4) ≤ sp.toNat) :
    (ustack sp ptrs).map UInt32.toNat =
      [0xffffffff, ptrs.length, sp.toNat - 4 * (ptrs.length + 4) + 12] ++
        ptrs.map UInt32.toNat ++ [0] := by
  have hn : ptrs.length < 2 ^ 32 := lt_of_le_of_lt hmax (by decide)
  have hlt := sp.toNat_lt
  have hargv : (sp - (UInt32.ofNat ptrs.length + 1) * 4).toNat =
      sp.toNat - 4 * (ptrs.length + 4) + 12 := by
    simp only [MAXARG] at hmax
    rw [UInt32.toNat_sub, UInt32.toNat_mul, UInt32.toNat_add, UInt32.toNat_ofNat',
      Nat.mod_eq_of_lt hn]
    simp only [UInt32.toNat_ofNat]
    omega
  have hargc : (UInt32.ofNat ptrs.length).toNat = ptrs.length := by
    rw [UInt32.toNat_ofNat', Nat.mod_eq_of_lt hn]
  simp only [ustack, map_append, map_cons, map_nil, hargv, hargc]
  rfl

/-- The stack is built as it should be, or something does not fit. -/
theorem pushStack_spec (null : Pte) (argv : List CString) (h : HasStack k s sz) :
    Outcome (s.pushStack null argv sz)
      (fun f => f = .null ∧ ∃ arg ∈ argv, sz ≤ arg.chars.length) fun r =>
      UserOnly s r.2 ∧ (∀ sp, r.1 = some sp → stackSize argv ≤ PGSIZE ∧
        (∃ ptrs, r.2.Arguments sz sp argv ptrs) ∧
        ∀ va, va + PGSIZE < sz → r.2.byte va = s.byte va) ∧
      (stackSize argv ≤ PGSIZE → argv.length ≤ MAXARG → r.1.isSome) := by
  have hk := h.lt.trans kernbase_lt
  have hmod := h.mod
  have hge := h.le
  have hsz : (UInt32.ofNat sz).toNat = sz := by
    rw [UInt32.toNat_ofNat', Nat.mod_eq_of_lt hk]
  unfold pushStack
  refine ((pushArgs_length null argv (.ofNat sz) [] s (Nat.zero_le _)).and
    (pushArgs_spec null argv (.ofNat sz) [] s h (by omega) (by omega) (by omega))).bind ?_
  rintro ⟨o, s₁⟩ ⟨hmax, hu, hpush, hprog⟩
  dsimp only at hmax hu hpush hprog
  cases o with
  | none =>
    refine outcome_ok ⟨hu, by simp, fun hfits hn => ?_⟩
    simp only [stackSize, PGSIZE] at hfits
    cases hprog (by omega) (by simpa using hn)
  | some q =>
    obtain ⟨sp, ptrs⟩ := q
    have hmax : ptrs.length ≤ MAXARG := hmax _ rfl
    obtain ⟨qs, hqs, hpushed, hsp, h4, hbyte⟩ := hpush sp ptrs rfl
    rw [nil_append] at hqs
    subst hqs
    obtain ⟨hsum, hlen⟩ := hpushed.sum
    rw [hsz] at hpushed hbyte hsum
    have hwords := length_ustack sp ptrs
    have hneed : ptrs.length ≤ 32 := hmax
    have hsp' : (sp - (3 + UInt32.ofNat ptrs.length + 1) * 4).toNat =
        sp.toNat - 4 * (ptrs.length + 4) := by
      have hlt := sp.toNat_lt
      rw [UInt32.toNat_sub, toNat_ustack hmax]
      omega
    have hh := h.userOnly hu
    dsimp only
    generalize hesp : sp - (3 + UInt32.ofNat ptrs.length + 1) * 4 = esp at hsp' ⊢
    refine ((copyout_spec null hh.wf hh.kernel.only esp.toNat_lt (by omega)).mono ?_
      fun _ h => h).bind ?_
    · rintro f ⟨-, i, hi, -, hwalk⟩
      refine absurd hwalk (hh.walk_ne_none ?_)
      rw [addr, Nat.mod_eq_of_lt (by omega)]
      omega
    rintro ⟨ok, s₂⟩ ⟨hu₂, hw, hprog₂⟩
    dsimp only at hu₂ hw hprog₂ ⊢
    cases ok with
    | false =>
      refine outcome_ok ⟨hu.trans hu₂, by simp, fun hfits _ => ?_⟩
      simp only [stackSize, PGSIZE] at hfits
      cases hprog₂ (hh.writable (by omega) (by omega))
    | true =>
      obtain ⟨hwr, hst⟩ := hw rfl
      have hfit : sz ≤ esp.toNat + 4096 := by
        by_contra hlow
        obtain ⟨x, hx⟩ := hwr 0 (by omega)
        rw [addr_zero esp.toNat_lt, hh.not_writable (by omega) (by omega)] at hx
        cases hx
      have hkeep : ∀ va, va < esp.toNat ∨ sp.toNat ≤ va → s₂.byte va = s₁.byte va := fun va hva =>
        byte_of_stored hh.wf hu₂.pgdir (by omega) hst (by omega)
      have hpushed₂ := hpushed.congr fun va hva _ => hkeep va (.inr hva)
      refine outcome_ok ⟨hu.trans hu₂, fun sp₂ heq => ?_, fun _ _ => rfl⟩
      obtain rfl := some.inj heq
      refine ⟨?_, ⟨ptrs, hlen, hfit, ?_, fun i arg p ha hp => ?_, hpushed₂.disjoint⟩,
        fun va hva => ?_⟩
      · simp only [stackSize, PGSIZE]
        omega
      · have hholds := holds_of_stored hu₂.pgdir (by omega) hst
        rw [map_ustack hmax (by omega), ← hsp', hlen] at hholds
        exact hholds
      · obtain ⟨hs, hb, hlt⟩ := hpushed₂.string i arg p ha hp
        exact ⟨hs, by omega, hlt⟩
      · simp only [PGSIZE] at hva
        rw [hkeep va (by omega), hbyte va (by omega)]

/-! ## The stack of a loaded program -/

theorem clearpteu_entry {d : Pgdir} {a : ℕ} {e : Pte} (ha : Aligned a) (he : d.entry a = some e) :
    ∃ d', clearpteu d a = .ok d' ∧ d'.pages = d.pages ∧
      ∀ b, Aligned b → d'.entry b = if b = a then some { e with u := false } else d.entry b := by
  obtain ⟨hw, hp⟩ := entry_eq_some.1 he
  have hclear : clearpteu d a = .ok (d.setPte a { e with u := false }) := by
    rw [clearpteu, hw]
  refine ⟨_, hclear, clearpteu_pages ha.lt hclear, fun b hb => ?_⟩
  rw [entry_setPte hw ha hb]
  simp [Option.filter, hp]

variable {x : Phys} {file : Contents} {phs : List Segment}

/-- What is known after the allocation of the stack. -/
structure StackReady (k : Kernel) (s t : Store) (sz r : ℕ) : Prop where
  size : r = PGROUNDUP sz + 2 * PGSIZE
  stack : HasStack k t r
  old : ∀ va < PGROUNDUP sz, t.byte va = s.byte va
  new : ∀ va, PGROUNDUP sz ≤ va → va < r → t.byte va = some 0

theorem allocStack_spec (hx : ∀ pg ∈ x.kmem, k.Valid pg) (hn : x.kmem.Nodup) (hfrom : From x s)
    (hl : Loaded k file phs sz s) :
    Outcome (s.allocStack k sz) (fun _ => False) fun r => From x r.2 ∧
      (r.1 ≠ 0 → StackReady k s r.2 sz r.1) ∧
      (PGROUNDUP sz + 2 * PGSIZE < KERNBASE → 6 ≤ s.kmem.length → r.1 ≠ 0) := by
  have hup := pgroundup_of_lt hl.lt
  have hc : s.pgdir.Contig (PGROUNDUP sz) := fun b hb hbk => by
    rw [hl.contig b hb hbk, hup]
    have := hb.mod
    omega
  unfold allocStack
  dsimp only
  refine ((allocuvm_kernel hl.wf).and (allocuvm_spec hl.wf hc.below _)).bind ?_
  rintro ⟨r, s₁⟩ ⟨⟨hs₁, hker⟩, hcon, hgrown⟩
  dsimp only at hs₁ hker hcon hgrown ⊢
  have hfrom₁ : From x s₁ := by
    rcases hcon with ⟨-, -, hf⟩ | ⟨-, hf⟩
    · exact hfrom.fresh hf hgrown.pages
    · exact hfrom.fresh hf hgrown.pages
  split_ifs with hr
  · refine outcome_ok ⟨hfrom₁, fun h => absurd rfl h, fun hlt hroom => ?_⟩
    have hneed : growNeed (PGROUNDUP sz) (PGROUNDUP sz + 2 * PGSIZE) = 6 := by
      simp only [growNeed, PGSIZE]
      omega
    have := (hgrown.room hlt (hneed.trans_le hroom)).1
    simp only [PGSIZE] at this
    omega
  obtain ⟨hr', hnew, hf⟩ := hcon.resolve_right fun h => hr h.1
  have hsz : r = PGROUNDUP sz + 2 * PGSIZE := by omega
  have hlow : PGROUNDUP sz < KERNBASE := by omega
  obtain ⟨-, hrk, hc₁⟩ := hgrown.contig hr hc hlow
  have hmod : PGROUNDUP sz % 4096 = 0 := by omega
  have hk32 := kernbase_lt
  simp only [PGSIZE] at hsz hf hnew
  have hguard : Aligned (PGROUNDUP sz) := ⟨hmod, by omega⟩
  have hstack : Aligned (PGROUNDUP sz + 4096) := ⟨by omega, by omega⟩
  obtain ⟨e, he, -⟩ := hf.new _ hguard le_rfl (by omega)
  obtain ⟨e', he', -, hu', -⟩ := hf.new _ hstack (by omega) (by omega)
  obtain ⟨d, hclear, hpages, hentry⟩ := clearpteu_entry hguard he
  have hbase : r - 2 * PGSIZE = PGROUNDUP sz := by
    simp only [PGSIZE]
    omega
  rw [hbase, hclear, ok_bind]
  have hfrom₂ : From x ⟨s₁.toPhys, d⟩ := by
    refine ⟨Eq.trans ?_ hfrom₁.pages, hfrom₁.same⟩
    rw [Store.space, Space.pages, hpages]
    rfl
  have hkernel : HasKernel d := (hl.kernel.congr hker).congr fun b hb hkb => by
    rw [hentry b hb, if_neg (by omega)]
  have huser : d.user = s₁.pgdir.user := by
    funext va
    by_cases hva : va < KERNBASE
    · rw [user_of_lt hva, user_of_lt hva, hentry _ (aligned_pgrounddown (hva.trans hk32))]
      split_ifs with hb
      · rw [hb, he]
        rfl
      · rfl
    · rw [Pgdir.user, Pgdir.user, if_neg hva, if_neg hva]
  have hbyte : ∀ va, byte ⟨s₁.toPhys, d⟩ va = s₁.byte va := fun va => by
    rw [byte, byte, huser]
  refine outcome_ok ⟨hfrom₂, fun _ => ⟨by simp only [PGSIZE]; omega,
    ⟨hfrom₂.wf hx hn, hkernel, by omega, by omega, hrk, fun b hb hbk => ?_, ?_, ?_⟩,
    fun va hva => ?_, fun va hva hlt => ?_⟩, fun _ _ => hr⟩
  · rw [← hc₁ b hb hbk, present_iff_entry, present_iff_entry, hentry b hb]
    split_ifs with hba
    · rw [hba]
      exact ⟨fun _ => ⟨e, he⟩, fun _ => ⟨_, rfl⟩⟩
    · rfl
  · refine ⟨e', ?_, hu'⟩
    rw [show r - 4096 = PGROUNDUP sz + 4096 by omega, hentry _ hstack, if_neg (by omega)]
    exact he'
  · refine ⟨{ e with u := false }, ?_, rfl⟩
    rw [show r - 8192 = PGROUNDUP sz by omega, hentry _ hguard, if_pos rfl]
  · rw [hbyte, hf.byte_eq hl.wf]
    have := pgrounddown_le va
    omega
  · rw [hbyte, hf.byte_new (hlt.trans hrk)]
    simp only [PGROUNDDOWN, PGSIZE]
    omega

/-- What is known if the stack has been built. -/
structure StackBuilt (k : Kernel) (s t : Store) (sz r : ℕ) (esp : UInt32) (argv : List CString)
    (ptrs : List UInt32) : Prop where
  size : r = PGROUNDUP sz + 2 * PGSIZE
  fits : stackSize argv ≤ PGSIZE
  stack : HasStack k t r
  arguments : t.Arguments r esp argv ptrs
  old : ∀ va < PGROUNDUP sz, t.byte va = s.byte va
  guard : ∀ va, PGROUNDUP sz ≤ va → va < PGROUNDUP sz + PGSIZE → t.byte va = some 0

theorem StackBuilt.congr {r : ℕ} {esp : UInt32} {argv : List CString}
    (h : StackBuilt k s t sz r esp argv ptrs) (hu : u.Wf k) (hpg : u.pgdir = t.pgdir)
    (hb : ∀ va, u.byte va = t.byte va) :
    StackBuilt k s u sz r esp argv ptrs :=
  { h with
    stack := h.stack.congr hu hpg
    arguments := h.arguments.congr hb
    old := fun va hva => (hb va).trans (h.old va hva)
    guard := fun va hva hlt => (hb va).trans (h.guard va hva hlt) }

/-- `exec` from the allocation of the stack on. It can only follow a null pointer for a string
that is not shorter than the new address space. -/
theorem buildStack_spec (null : Pte) (argv : List CString) (hx : ∀ pg ∈ x.kmem, k.Valid pg)
    (hn : x.kmem.Nodup) (hfrom : From x s) (hl : Loaded k file phs sz s) :
    Outcome (s.buildStack k null argv sz)
      (fun f => f = .null ∧ ∃ arg ∈ argv, PGROUNDUP sz + 2 * PGSIZE ≤ arg.chars.length) fun r =>
      From x r.2 ∧ (∀ q, r.1 = some q → ∃ ptrs, StackBuilt k s r.2 sz q.1 q.2 argv ptrs) ∧
      (PGROUNDUP sz + 2 * PGSIZE < KERNBASE → 6 ≤ s.kmem.length → stackSize argv ≤ PGSIZE →
        argv.length ≤ MAXARG → r.1.isSome) := by
  unfold buildStack
  refine (allocStack_spec hx hn hfrom hl).weaken.bind ?_
  rintro ⟨r, s₁⟩ ⟨hfrom₁, hready, hroom⟩
  dsimp only at hfrom₁ hready hroom ⊢
  split_ifs with hr
  · exact outcome_ok ⟨hfrom₁, by simp, fun hlt hlen => absurd hr (hroom hlt hlen)⟩
  have h := hready hr
  rw [← h.size]
  refine (pushStack_spec null argv h.stack).bind ?_
  rintro ⟨o, s₂⟩ ⟨hu, hpush, hfit⟩
  dsimp only at hu hpush hfit
  refine outcome_ok ⟨hfrom₁.userOnly h.stack.wf hu, fun q hq => ?_, fun _ _ hfits hn => by
    simpa using hfit hfits hn⟩
  obtain ⟨esp, ho, rfl⟩ := map_eq_some_iff.1 hq
  obtain ⟨hfits, ⟨ptrs, hargs⟩, hkeep⟩ := hpush esp ho
  have hsz := h.size
  simp only [PGSIZE] at hsz hkeep
  refine ⟨ptrs, h.size, hfits, h.stack.userOnly hu, hargs, fun va hva => ?_, fun va hva hlt => ?_⟩
  · rw [hkeep va (by omega), h.old va hva]
  · simp only [PGSIZE] at hlt
    rw [hkeep va (by omega), h.new va hva (by omega)]

end Store

end Xv6.Vm
