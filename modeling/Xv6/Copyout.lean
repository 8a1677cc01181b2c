import Xv6.KernelMap

/-!
# copyout

`copyout` writes to user pages that are present with `PTE_U` and stops at the first other page.
If there is no page table for that page, `uva2ka` follows a null pointer. So `copyout` does what
it should exactly if the first bad page, if any, has a page table (`copyout_mapped`). The page
tables are those that `setupkvm`, `allocuvm` and `clearpteu` build (`Made`).
-/

namespace Xv6.Vm

open Function Ram List Option

variable {k : Kernel} {d : Pgdir} {a b va x : ℕ} {e : Pte}

/-! ## Where copyout writes -/

/-- Where a byte goes that is copied to an address of a page that is present with `PTE_U`. -/
def Pgdir.dest (d : Pgdir) (va : ℕ) : Option ℕ :=
  if va < 2 ^ 32 then
    match d.walk va with
    | none => none
    | some pte => if pte.p && pte.u then some (pte.pa + va % PGSIZE) else none
  else none

theorem dest_eq_some : d.dest va = some x ↔
    va < 2 ^ 32 ∧ ∃ e, d.walk va = some e ∧ e.p = true ∧ e.u = true ∧ x = e.pa + va % PGSIZE := by
  rw [Pgdir.dest]
  split_ifs with hva
  · cases d.walk va with
    | none => simp
    | some e =>
      constructor
      · intro h
        dsimp only at h
        split_ifs at h with hpu
        rw [Bool.and_eq_true_iff] at hpu
        exact ⟨hva, e, rfl, hpu.1, hpu.2, (some.inj h).symm⟩
      · rintro ⟨-, e', he', hp, hu, rfl⟩
        obtain rfl := some.inj he'
        dsimp only
        rw [hp, hu]
        rfl
  · simp only [hva, false_and]

/-- The kernel's pages are not for the user. -/
def Pgdir.KernelOnly (d : Pgdir) : Prop :=
  ∀ a e, KERNBASE ≤ a → a < 2 ^ 32 → d.walk a = some e → e.p = true → e.u = false

/-- `copyout` writes to user memory only. -/
theorem user_of_dest (hd : d.KernelOnly) (h : d.dest va = some x) : d.user va = some x := by
  obtain ⟨hva, e, hw, hp, hu, rfl⟩ := dest_eq_some.1 h
  have hk : va < KERNBASE := by
    by_contra hk
    rw [hd va e (not_lt.1 hk) hva hw hp] at hu
    cases hu
  refine user_eq_some.2 ⟨hk, e, entry_eq_some.2 ⟨?_, hp⟩, rfl⟩
  rw [walk_pgrounddown, hw]

theorem separate_dest (hd : d.KernelOnly) (hsep : Separate d.user) : Separate d.dest :=
  fun v v' x h h' => hsep v v' x (user_of_dest hd h) (user_of_dest hd h')

/-- The rest of a page is one stretch of cells. -/
theorem dest_add {i : ℕ} (hva : va < 2 ^ 32) (hw : d.walk va = some e) (hp : e.p = true)
    (hu : e.u = true) (hi : va % PGSIZE + i < PGSIZE) :
    d.dest ((va + i) % 2 ^ 32) = some (e.pa + va % PGSIZE + i) := by
  simp only [PGSIZE] at hi
  have hmod : (va + i) % 2 ^ 32 = va + i := by omega
  rw [hmod, dest_eq_some]
  have hround : PGROUNDDOWN (va + i) = PGROUNDDOWN va := by
    simp only [PGROUNDDOWN, PGSIZE]
    omega
  refine ⟨by omega, e, ?_, hp, hu, ?_⟩
  · rw [← walk_pgrounddown, hround, walk_pgrounddown, hw]
  · simp only [PGSIZE]
    omega

/-! ## The loop -/

/-- The address `i` bytes on. After the last one comes 0. -/
def addr (va i : ℕ) : ℕ := (va + i) % 2 ^ 32

theorem addr_addr (n j : ℕ) : addr (addr va n) j = addr va (n + j) := by
  simp only [addr]
  omega

/-- The first `n` addresses can be written. -/
def Writable (d : Pgdir) (va n : ℕ) : Prop := ∀ i < n, ∃ x, d.dest (addr va i) = some x

/-- The address after the first `n` is the first that cannot be written. -/
structure StopsAt (d : Pgdir) (va n : ℕ) : Prop where
  writable : Writable d va n
  bad : d.dest (addr va n) = none

/-- There is one place where `copyout` stops. -/
theorem StopsAt.unique {n m : ℕ} (h : StopsAt d va n) (h' : StopsAt d va m) : n = m := by
  by_contra hne
  rcases Nat.lt_or_gt_of_ne hne with hlt | hlt
  · obtain ⟨x, hx⟩ := h'.writable n hlt
    rw [h.bad] at hx
    cases hx
  · obtain ⟨x, hx⟩ := h.writable m hlt
    rw [h'.bad] at hx
    cases hx

/-- What `copyout` has done : it has written everything, or what comes before the first address
that cannot be written. -/
structure CopiedOut (d : Pgdir) (va : ℕ) (buf : List UInt8) (m m' : ℕ → UInt8) (n : ℕ) : Prop where
  le : n ≤ buf.length
  writable : Writable d va n
  stored : Stored d.dest m m' (addr va) n fun i => buf.getD i 0

variable {null : Pte} {m m' : ℕ → UInt8} {buf : List UInt8}

theorem writable_append {n j : ℕ} (h : Writable d va n) (h' : Writable d (addr va n) j) :
    Writable d va (n + j) := by
  intro i hi
  by_cases hin : i < n
  · exact h i hin
  · have := h' (i - n) (by omega)
    rwa [addr_addr, Nat.add_sub_cancel' (not_lt.1 hin)] at this

/-- Two chunks, one after the other. -/
theorem CopiedOut.append {m'' : ℕ → UInt8} {n j : ℕ} (hsep : Separate d.dest)
    (hlen : buf.length ≤ 2 ^ 32) (h : CopiedOut d va buf m m' n)
    (h' : CopiedOut d (addr va n) (buf.drop n) m' m'' j) : CopiedOut d va buf m m'' (n + j) := by
  have hj := h'.le
  rw [length_drop] at hj
  have hn := h.le
  have haddr : (fun i => addr va (n + i)) = addr (addr va n) :=
    funext fun i => (addr_addr n i).symm
  refine ⟨by omega, writable_append h.writable h'.writable,
    h.stored.append hsep (fun i i' hi hi' => ?_) ?_⟩
  · simp only [addr]
    omega
  · rw [haddr]
    refine ⟨fun i hi => ?_, h'.stored.miss⟩
    obtain ⟨x, hx, hv⟩ := h'.stored.hit i hi
    refine ⟨x, hx, hv.trans ?_⟩
    simp [getD_eq_getElem?_getD]

theorem CopiedOut.zero : CopiedOut d va buf m m 0 :=
  ⟨Nat.zero_le _, fun i hi => absurd hi (Nat.not_lt_zero i), .zero⟩

/-- The bytes for one page. -/
theorem CopiedOut.chunk {pa n : ℕ} (hn : n ≤ buf.length)
    (hd : ∀ i < n, d.dest (addr va i) = some (pa + i)) :
    CopiedOut d va buf m (putBytes m pa (buf.take n)) n := by
  refine ⟨hn, fun i hi => ⟨_, hd i hi⟩, ?_⟩
  have hput := Stored.of_write (m := m) (f := fun i => (buf.take n).getD i 0) hd
  rw [putBytes, length_take, min_eq_left hn]
  refine ⟨fun i hi => ?_, hput.miss⟩
  obtain ⟨x, hx, hv⟩ := hput.hit i hi
  refine ⟨x, hx, hv.trans ?_⟩
  simp [getD_eq_getElem?_getD, hi]

theorem addr_zero (hva : va < 2 ^ 32) : addr va 0 = va := by
  rw [addr, add_zero, Nat.mod_eq_of_lt hva]

theorem StopsAt.zero (hva : va < 2 ^ 32) (h : d.dest va = none) : StopsAt d va 0 :=
  ⟨fun i hi => absurd hi (Nat.not_lt_zero i), by rwa [addr_zero hva]⟩

/-- `uva2ka` finds the page of an address, or follows a null pointer. -/
theorem uva2ka_ok (null : Pte) (hva : va < 2 ^ 32) :
    Outcome (Store.uva2ka null d (PGROUNDDOWN va))
      (fun f => f = .null ∧ d.dest va = none ∧ d.walk va = none) fun r =>
      (r = none → d.dest va = none ∧ (d.walk va = none → (null.p && null.u) = false)) ∧
      ∀ pa, r = some pa → ∀ i, va % PGSIZE + i < PGSIZE →
        d.dest (addr va i) = some (pa + va % PGSIZE + i) := by
  rw [Store.uva2ka, walk_pgrounddown]
  cases hw : d.walk va with
  | none =>
    have hbad : d.dest va = none := by simp [Pgdir.dest, hw]
    dsimp only
    split_ifs with hnull
    · exact outcome_error ⟨rfl, hbad, rfl⟩
    · exact outcome_ok ⟨fun _ => ⟨hbad, fun _ => by simpa using hnull⟩, fun _ h => by cases h⟩
  | some e =>
    refine outcome_ok ⟨fun h => ?_, fun pa h i hi => ?_⟩ <;> split_ifs at h with hpu
    · exact ⟨by simp [Pgdir.dest, hw, hpu], fun h => by cases h⟩
    · obtain rfl := some.inj h
      rw [Bool.and_eq_true_iff] at hpu
      exact dest_add hva hw hpu.1 hpu.2 hi

theorem copyoutBytes_nil (null : Pte) (fuel : ℕ) :
    copyoutBytes null d fuel va [] m = .ok (true, m) := by
  cases fuel <;> rfl

/-- `copyout` stops at the first page that it cannot write, or at a null pointer. -/
theorem copyoutBytes_ok (null : Pte) (hsep : Separate d.dest) : ∀ (fuel va : ℕ) (buf : List UInt8)
    (m : ℕ → UInt8), va < 2 ^ 32 → buf.length ≤ fuel → buf.length ≤ 2 ^ 32 →
    Outcome (copyoutBytes null d fuel va buf m)
      (fun f => f = .null ∧ ∃ n < buf.length, StopsAt d va n ∧ d.walk (addr va n) = none) fun r =>
      ∃ n, CopiedOut d va buf m r.2 n ∧ (r.1 = true → n = buf.length) ∧
        (r.1 = false → n < buf.length ∧ StopsAt d va n ∧
          (d.walk (addr va n) = none → (null.p && null.u) = false))
  | 0, va, buf, m, _, hfuel, _ => outcome_ok ⟨0, .zero, fun _ => by omega, by simp⟩
  | fuel + 1, va, buf, m, hva, hfuel, hlen => by
    rw [copyoutBytes]
    split_ifs with hnil
    · exact outcome_ok ⟨0, .zero, fun _ => hnil.symm, by simp⟩
    have hpos : 0 < buf.length := pos_of_ne_zero hnil
    refine ((uva2ka_ok null hva).mono ?_ fun _ h => h).bind ?_
    · rintro f ⟨hf, hbad, hw⟩
      exact ⟨hf, 0, hpos, .zero hva hbad, by rwa [addr_zero hva]⟩
    rintro (_ | pa) ⟨hnone, hsome⟩
    · obtain ⟨hbad, hw⟩ := hnone rfl
      refine outcome_ok ⟨0, .zero, by simp, fun _ => ⟨hpos, .zero hva hbad, ?_⟩⟩
      rwa [addr_zero hva]
    have hoff : va - PGROUNDDOWN va = va % PGSIZE := by
      simp only [PGROUNDDOWN, PGSIZE]
      omega
    dsimp only
    rw [hoff]
    generalize hn : min (PGSIZE - va % PGSIZE) buf.length = n
    have hfirst := CopiedOut.chunk (m := m) (show n ≤ buf.length by omega) fun i hi =>
      hsome pa rfl i (by omega)
    by_cases hlast : n = buf.length
    · rw [hlast, drop_length, copyoutBytes_nil]
      exact outcome_ok ⟨n, hlast ▸ hfirst, fun _ => hlast, by simp⟩
    have hnle := hfirst.le
    have hrest : (buf.drop n).length = buf.length - n := length_drop
    -- the page ends before the bytes do
    have hnext : (PGROUNDDOWN va + PGSIZE) % 2 ^ 32 = addr va n := by
      simp only [addr, PGROUNDDOWN, PGSIZE] at hn ⊢
      omega
    have hnpos : 0 < n := by
      simp only [PGSIZE] at hn
      omega
    have hstop : ∀ j, StopsAt d (addr va n) j → StopsAt d va (n + j) := fun j hj =>
      ⟨writable_append hfirst.writable hj.writable, by rw [← addr_addr]; exact hj.bad⟩
    rw [hnext]
    refine (copyoutBytes_ok null hsep fuel (addr va n) (buf.drop n) _ (Nat.mod_lt _ (by decide))
      (by omega) (by omega)).mono ?_ ?_
    · rintro f ⟨hf, j, hj, hs, hwalk⟩
      exact ⟨hf, n + j, by omega, hstop j hs, by rwa [← addr_addr]⟩
    · rintro r ⟨j, hcop, htrue, hfalse⟩
      refine ⟨n + j, hfirst.append hsep hlen hcop, fun hr => ?_, fun hr => ?_⟩
      · have := htrue hr
        omega
      · obtain ⟨hj, hs, hwalk⟩ := hfalse hr
        refine ⟨by omega, hstop j hs, fun hw' => hwalk ?_⟩
        rwa [addr_addr]

/-! ## Page tables -/

theorem setPte_pgrounddown (d : Pgdir) (va : ℕ) (e : Pte) :
    d.setPte (PGROUNDDOWN va) e = d.setPte va e := by
  rw [Pgdir.setPte, Pgdir.setPte, PDX_pgrounddown, PTX_pgrounddown]

namespace Store

/-- The page tables that `setupkvm`, `allocuvm` and `clearpteu` build. -/
inductive Made (k : Kernel) : Store → Prop where
  | setupkvm {x y : Phys} {d : Pgdir} (hk : ∀ pg ∈ x.kmem, k.Valid pg) (hn : x.kmem.Nodup)
      (h : setupkvm k x = .ok (some d, y)) : Made k ⟨y, d⟩
  | allocuvm {s t : Store} {oldsz newsz r : ℕ} (hs : Made k s)
      (h : s.allocuvm k oldsz newsz = .ok (r, t)) : Made k t
  | clearpteu {s : Store} {uva : ℕ} {d : Pgdir} (hs : Made k s) (hu : uva < 2 ^ 32)
      (h : clearpteu s.pgdir uva = .ok d) : Made k ⟨s.toPhys, d⟩

variable {s t : Store}

/-- The kernel's part of a page directory stays as it is. -/
def SameKernel (d d' : Pgdir) : Prop :=
  ∀ b, Aligned b → KERNBASE ≤ b → d'.entry b = d.entry b

/-- `allocuvm` keeps the part of the kernel. -/
theorem allocuvm_kernel {oldsz newsz : ℕ} (hs : s.Wf k) :
    Outcome (s.allocuvm k oldsz newsz) (fun _ => True) fun r =>
      r.2.Wf k ∧ SameKernel s.pgdir r.2.pgdir := by
  refine (allocuvm_any hs oldsz newsz).of_true.imp ?_
  rintro r ⟨hp, ⟨-, hnew, hf⟩ | ⟨-, z, hz, hu⟩, -⟩
  · exact ⟨hs.congr hp, fun b hb hkb => hf.old b hb (by omega)⟩
  · refine ⟨hs.congr hp, fun b hb hkb => ?_⟩
    rw [hu.entry b hb, if_neg (by omega)]

theorem kernelOnly_iff : d.KernelOnly ↔
    ∀ b e, Aligned b → KERNBASE ≤ b → d.entry b = some e → e.u = false := by
  constructor
  · intro h b e hb hkb he
    exact h b e hkb hb.lt (entry_eq_some.1 he).1 (entry_eq_some.1 he).2
  · intro h a e hka ha hw hp
    refine h (PGROUNDDOWN a) e (aligned_pgrounddown ha) ?_ (entry_eq_some.2 ⟨?_, hp⟩)
    · simp only [KERNBASE, PGROUNDDOWN, PGSIZE] at *
      omega
    · rw [walk_pgrounddown, hw]

/-- `setupkvm` maps nothing for the user, and it maps the last page of all. -/
theorem setupkvm_kernel {x y : Phys} (h : setupkvm k x = .ok (some d, y)) :
    d.KernelOnly ∧ d.present 0xFFFFF000 := by
  refine ⟨kernelOnly_iff.2 fun b e hb _ he => ?_, ?_⟩
  · have htr := setupkvm_translate h hb.lt
    rw [Pgdir.translate, he, map_some] at htr
    split_ifs at htr
    · exact congrArg (·.2.2) (some.inj htr)
    · exact congrArg (·.2.2) (some.inj htr)
  · have htr := setupkvm_translate h (b := 0xFFFFF000) (by decide)
    rw [if_neg (by decide), if_pos (by decide)] at htr
    obtain ⟨e, he, -⟩ := map_eq_some_iff.1 htr
    exact present_iff_entry.2 ⟨e, he⟩

/-- `clearpteu` opens nothing to the user. -/
theorem clearpteu_kernelOnly {uva : ℕ} {d' : Pgdir} (hu : uva < 2 ^ 32)
    (h : clearpteu d uva = .ok d')
    (hd : d.KernelOnly) : d'.KernelOnly := by
  unfold clearpteu at h
  cases hw : d.walk uva with
  | none => simp [hw] at h
  | some e =>
    rw [hw] at h
    obtain rfl := Except.ok.inj h
    rw [kernelOnly_iff] at hd ⊢
    intro b e' hb hkb he'
    rw [← setPte_pgrounddown, entry_setPte (by rw [walk_pgrounddown]; exact hw)
      (aligned_pgrounddown hu) hb] at he'
    split_ifs at he' with hba
    · obtain ⟨he', -⟩ := filter_eq_some_iff.1 he'
      obtain rfl := some.inj he'
      rfl
    · exact hd b e' hb hkb he'

theorem clearpteu_pages {uva : ℕ} {d' : Pgdir} (hu : uva < 2 ^ 32) (h : clearpteu d uva = .ok d') :
    d'.pages = d.pages := by
  unfold clearpteu at h
  cases hw : d.walk uva with
  | none => simp [hw] at h
  | some e =>
    rw [hw] at h
    obtain rfl := Except.ok.inj h
    by_cases hk : uva < KERNBASE
    · have := pages_setPte hw hk { e with u := false }
      exact add_right_cancel this
    · exact pages_setPte_kernel (not_lt.1 hk) hu _

/-- The invariants of a page directory that the kernel makes. -/
theorem Made.inv (h : Made k s) : s.Wf k ∧ s.pgdir.KernelOnly := by
  induction h with
  | @setupkvm x y d hk hn h =>
    obtain ⟨-, hr⟩ := (setupkvm_spec hk).of_ok h
    obtain ⟨d', hd', hpages, -⟩ := hr.resolve_left fun h => by cases h.1
    obtain rfl := some.inj hd'
    have hpages' : (space ⟨y, d⟩).pages = (x.kmem : Multiset ℕ) := hpages
    refine ⟨⟨fun pg hpg => hk pg ?_, ?_⟩, (setupkvm_kernel h).1⟩
    · rw [hpages'] at hpg
      exact hpg
    · rw [hpages']
      exact hn
  | allocuvm hs h ih =>
    obtain ⟨hwf, hker⟩ := (allocuvm_kernel ih.1).of_ok h
    refine ⟨hwf, kernelOnly_iff.2 fun b e hb hkb he => ?_⟩
    rw [hker b hb hkb] at he
    exact kernelOnly_iff.1 ih.2 b e hb hkb he
  | @clearpteu s uva d hs hu h ih =>
    refine ⟨ih.1.congr ?_, clearpteu_kernelOnly hu h ih.2⟩
    rw [space, Space.pages, clearpteu_pages hu h]
    rfl

/-! ## The result -/

/-- What `copyout` should do, whatever is at address 0 : it succeeds exactly if all of the range
can be written, and then it has written that. Otherwise it has written what comes before the
first address that cannot be written. Nothing else changes. -/
def CopyoutSafe (s : Store) (va : ℕ) (buf : List UInt8) : Prop :=
  ∀ null, ∃ ok mem, s.copyout null va buf = .ok (ok, { s with mem := mem }) ∧
    (ok = true ↔ Writable s.pgdir va buf.length) ∧
    (ok = true → Stored s.pgdir.dest s.mem mem (addr va) buf.length fun i => buf.getD i 0) ∧
    (ok = false → ∃ n < buf.length, StopsAt s.pgdir va n ∧
      Stored s.pgdir.dest s.mem mem (addr va) n fun i => buf.getD i 0)

/-- The first page that cannot be written, if any, has a page table. -/
def HasPageTable (d : Pgdir) (va len : ℕ) : Prop :=
  ∀ n < len, StopsAt d va n → d.walk (addr va n) ≠ none

theorem not_writable_of_stopsAt {n len : ℕ} (hn : n < len) (h : StopsAt d va n) :
    ¬Writable d va len := by
  intro hw
  obtain ⟨x, hx⟩ := hw n hn
  rw [h.bad] at hx
  cases hx

/-- `copyout` does what it should exactly if the first bad page has a page table. -/
theorem copyout_mapped (h : Made k s) (hva : va < 2 ^ 32) (hlen : buf.length < 2 ^ 32) :
    CopyoutSafe s va buf ↔ HasPageTable s.pgdir va buf.length := by
  obtain ⟨hwf, hker⟩ := h.inv
  have hsep := separate_dest hker hwf.separate
  have hcopy : ∀ null r, copyoutBytes null s.pgdir buf.length va buf s.mem = .ok r →
      s.copyout null va buf = .ok (r.1, { s with mem := r.2 }) := fun null r hr => by
    rw [copyout, hr]
    rfl
  constructor
  · intro hsafe n hn hstop hwalk
    -- a word at address 0 that has the flags of a user page
    obtain ⟨ok, mem, hok, -⟩ := hsafe ⟨0, true, true, true⟩
    have hout := copyoutBytes_ok ⟨0, true, true, true⟩ hsep buf.length va buf s.mem hva le_rfl
      hlen.le
    cases hr : copyoutBytes ⟨0, true, true, true⟩ s.pgdir buf.length va buf s.mem with
    | error f => simp [copyout, hr, bind, Except.bind] at hok
    | ok r =>
      rw [hr, outcome_ok_iff] at hout
      obtain ⟨n', hcop, htrue, hfalse⟩ := hout
      cases hr1 : r.1 with
      | true =>
        rw [htrue hr1] at hcop
        exact not_writable_of_stopsAt hn hstop hcop.writable
      | false =>
        obtain ⟨-, hstop', hnull⟩ := hfalse hr1
        obtain rfl := hstop.unique hstop'
        exact absurd (hnull hwalk) (by decide)
  · intro htab null
    have hout := copyoutBytes_ok null hsep buf.length va buf s.mem hva le_rfl hlen.le
    cases hr : copyoutBytes null s.pgdir buf.length va buf s.mem with
    | error f =>
      rw [hr, outcome_error_iff] at hout
      obtain ⟨-, n, hn, hstop, hwalk⟩ := hout
      exact absurd hwalk (htab n hn hstop)
    | ok r =>
      rw [hr, outcome_ok_iff] at hout
      obtain ⟨n, hcop, htrue, hfalse⟩ := hout
      refine ⟨r.1, r.2, hcopy null r hr, ⟨fun ht => ?_, fun hw => ?_⟩, fun ht => ?_, fun hf => ?_⟩
      · rw [← htrue ht]
        exact hcop.writable
      · cases hr1 : r.1 with
        | true => rfl
        | false =>
          obtain ⟨hn, hstop, -⟩ := hfalse hr1
          exact absurd hw (not_writable_of_stopsAt hn hstop)
      · rw [← htrue ht]
        exact hcop.stored
      · obtain ⟨hn, hstop, -⟩ := hfalse hf
        exact ⟨n, hn, hstop, hcop.stored⟩

theorem stored_user {d : Pgdir} {m m' : ℕ → UInt8} {addr : ℕ → ℕ} {n : ℕ} {f : ℕ → UInt8}
    (hd : d.KernelOnly) (h : Stored d.dest m m' addr n f) : Stored d.user m m' addr n f where
  hit i hi := by
    obtain ⟨x, hx, hv⟩ := h.hit i hi
    exact ⟨x, user_of_dest hd hx, hv⟩
  miss x hx := h.miss x fun i hi hd' => hx i hi (user_of_dest hd hd')

/-- There is a page table that `setupkvm` has made, with pages left. -/
theorem exists_made : ∃ s, Made Sys.usualKernel s ∧ s.pgdir.NoUser ∧ 4 ≤ s.kmem.length := by
  obtain ⟨x, hk, hn, hlen⟩ : ∃ x : Phys, (∀ pg ∈ x.kmem, Sys.usualKernel.Valid pg) ∧
      x.kmem.Nodup ∧ 517 ≤ x.kmem.length := by
    refine ⟨⟨Sys.usualKernel.mem, fun _ => 0⟩, fun _ => Kernel.valid_of_mem,
      Sys.usualKernel.nodup_mem, ?_⟩
    rw [Kernel.mem, length_append, pagesFrom, pagesFrom, length_map, length_map,
      length_range, length_range]
    simp only [PGROUNDUP, PGSIZE, KERNBASE, PHYSTOP]
    omega
  obtain ⟨⟨o, y⟩, hok, -, hr⟩ := (setupkvm_spec hk).exists_ok
  rcases hr with ⟨-, -, hshort⟩ | ⟨d, hd, hpages, hno⟩
  · omega
  · dsimp only at hd hpages
    subst hd
    have hcard := congrArg Multiset.card hpages
    have hd := hno.card_pages
    rw [Multiset.card_add, Multiset.coe_card, Multiset.coe_card] at hcard
    exact ⟨⟨y, d⟩, .setupkvm hk hn hok, hno, show 4 ≤ y.kmem.length by omega⟩

/-- There is one with a page for the user. -/
theorem exists_made_page : ∃ s e, Made Sys.usualKernel s ∧ s.pgdir.entry 0 = some e ∧
    e.u = true := by
  obtain ⟨s, hs, hno, hlen⟩ := exists_made
  have hfree : s.pgdir.Below 0 := fun b _ hbk hp => absurd hp (Pgdir.NoUser.absent hno hbk)
  obtain ⟨⟨r, t⟩, hok, hcon, hg⟩ := (allocuvm_spec hs.inv.1 hfree PGSIZE).exists_ok
  have hr := (hg.room (by decide) (show growNeed 0 PGSIZE ≤ s.kmem.length from hlen)).1
  dsimp only at hcon hr
  obtain ⟨-, -, hf⟩ := hcon.resolve_right fun h => by
    rw [hr] at h
    exact absurd h.1 (by decide)
  obtain ⟨e, he, -, hu, -⟩ := hf.new 0 ⟨rfl, by decide⟩ le_rfl (by decide)
  exact ⟨t, e, .allocuvm hs hok, he, hu⟩

theorem walk_eq_none_of_noUser (hd : d.NoUser) (hva : va < KERNBASE) : d.walk va = none := by
  rw [Pgdir.walk, hd _ (PDX_lt hva)]
  rfl

/-- Two bytes are copied to a page of the user and are there. -/
theorem copyout_mapped_page : ∃ s, Made Sys.usualKernel s ∧ CopyoutSafe s 4000 [65, 66] ∧
    ∃ mem, s.copyout .zero 4000 [65, 66] = .ok (true, { s with mem := mem }) ∧
      byte ⟨⟨s.kmem, mem⟩, s.pgdir⟩ 4000 = some 65 ∧
      byte ⟨⟨s.kmem, mem⟩, s.pgdir⟩ 4001 = some 66 := by
  obtain ⟨s, e, hs, he, hu⟩ := exists_made_page
  obtain ⟨hw, hp⟩ := entry_eq_some.1 he
  have hwrite : Writable s.pgdir 4000 2 := fun i hi =>
    ⟨_, dest_add (by decide) ((walk_pgrounddown s.pgdir 4000).symm.trans hw) hp hu (by
      simp only [PGSIZE]
      omega)⟩
  have hsafe : CopyoutSafe s 4000 [65, 66] := (copyout_mapped hs (by decide) (by decide)).2
    fun n hn hstop => absurd hwrite (not_writable_of_stopsAt hn hstop)
  obtain ⟨ok, mem, hok, hiff, hstored, -⟩ := hsafe .zero
  obtain rfl := hiff.2 hwrite
  have hst := stored_user hs.inv.2 (hstored rfl)
  exact ⟨s, hs, hsafe, mem, hok, hst.view_hit (show 0 < 2 by decide),
    hst.view_hit (show 1 < 2 by decide)⟩

/-- A byte is copied to an address that has no page table, and the word at address 0 has the
flags of a user page. -/
theorem copyout_null : ∃ s, Made Sys.usualKernel s ∧
    s.copyout ⟨0x1000, true, false, true⟩ 0 [65] = .error .null ∧ ¬CopyoutSafe s 0 [65] := by
  obtain ⟨s, hs, hno, -⟩ := exists_made
  have hw := walk_eq_none_of_noUser hno (by decide : 0 < KERNBASE)
  have hnull : s.copyout ⟨0x1000, true, false, true⟩ 0 [65] = .error .null := by
    simp [copyout, copyoutBytes, Store.uva2ka, PGROUNDDOWN, hw, bind, Except.bind]
  refine ⟨s, hs, hnull, fun hsafe => ?_⟩
  obtain ⟨ok, mem, hok, -⟩ := hsafe ⟨0x1000, true, false, true⟩
  rw [hnull] at hok
  cases hok

end Store

end Xv6.Vm
