import Xv6.Places

/-!
# What mappages maps

The loop of `mappages` ends when its address equals that of the last page, and one region of the
kernel ends at 2^32. `Word.mapLoop` is this loop with the arithmetic of the source. It ends within
`ROUNDS` rounds, and is the loop of `mappages` (`mapLoop_word`).

`mapLoop_word_ok` says what it maps. For the regions of `kmap` this gives the addresses that
`setupkvm` maps (`setupkvmWith_translate`). `mappages_exact` has both.
-/

set_option linter.unusedSectionVars false

namespace Xv6.Vm

open Function List

/-! ## The loop -/

/-- The loop of `mappages`, with its test and with 32-bit addresses. The first argument bounds the
rounds, and `none` is a loop that goes on. -/
def Word.mapLoop (w u : Bool) (last : ℕ) : ℕ → ℕ → ℕ → Space → Option (Except Fault (Bool × Space))
  | 0, _, _, _ => none
  | n + 1, a, pa, v =>
    match walkpgdir v a with
    | none => some (.ok (false, v))
    | some (pte, v) =>
      if pte.p then some (.error .remap)
      else
        let v := { v with pgdir := v.pgdir.setPte a ⟨pa, true, w, u⟩ }
        if a = last then some (.ok (true, v))
        else Word.mapLoop w u last n ((a + PGSIZE) % 2 ^ 32) ((pa + PGSIZE) % 2 ^ 32) v

/-- `mappages` with this loop. -/
def Word.mappages (v : Space) (va size pa : ℕ) (w u : Bool) :
    Option (Except Fault (Bool × Space)) :=
  Word.mapLoop w u (PGROUNDDOWN ((va + size + 2 ^ 32 - 1) % 2 ^ 32)) ROUNDS (PGROUNDDOWN va) pa v

variable {v v' : Space} {a b pa r : ℕ} {w u : Bool} {d : Pgdir}

/-- The first `n` pages from `a` on are mapped to those from `pa` on. -/
def Installed (v : Space) (a pa n : ℕ) (w u : Bool) (v' : Space) : Prop :=
  ∀ b, Aligned b → v'.pgdir.entry b =
    if a ≤ b ∧ b < a + n * 4096 then some ⟨(pa + (b - a)) % 2 ^ 32, true, w, u⟩
    else v.pgdir.entry b

theorem installed_zero (v : Space) (a pa : ℕ) (w u : Bool) : Installed v a pa 0 w u v := by
  intro b _
  rw [if_neg (by omega)]

theorem Installed.cons {v₁ : Space} {n : ℕ} (ha : Aligned a)
    (h₁ : ∀ b, Aligned b → v₁.pgdir.entry b =
      if b = a then some ⟨pa % 2 ^ 32, true, w, u⟩ else v.pgdir.entry b)
    (h : Installed v₁ (a + 4096) ((pa + 4096) % 2 ^ 32) n w u v') :
    Installed v a pa (n + 1) w u v' := by
  intro b hb
  have hmod := ha.mod
  have hbmod := hb.mod
  rw [h b hb, h₁ b hb]
  split_ifs with h1 h2 h3 h4
  · have hsum : pa + 4096 + (b - (a + 4096)) = pa + (b - a) := by omega
    rw [Nat.mod_add_mod, hsum]
  · omega
  · rw [h3, Nat.sub_self, add_zero]
  · omega
  · omega
  · rfl

/-- One round. -/
theorem entry_round {e : Pte} (hw : walkpgdir v a = some (e, v')) (ha : Aligned a)
    (hpa : pa < 2 ^ 32) (hb : Aligned b) : (v'.pgdir.setPte a ⟨pa, true, w, u⟩).entry b =
      if b = a then some ⟨pa % 2 ^ 32, true, w, u⟩ else v.pgdir.entry b := by
  rw [entry_setPte (walkpgdir_some hw).walk ha hb, (walkpgdir_entry hw).1, Nat.mod_eq_of_lt hpa]
  rfl

/-- The loop ends. It maps the whole range, or only its first pages. -/
theorem mapLoop_word_ok (w u : Bool) : ∀ (r n a pa : ℕ) (v : Space), Aligned a →
    a + r * 4096 < 2 ^ 32 → r < n → pa < 2 ^ 32 →
    (∀ b, Aligned b → a ≤ b → b ≤ a + r * 4096 → ¬v.pgdir.present b) →
    ∃ ok v' m, Word.mapLoop w u (a + r * 4096) n a pa v = some (.ok (ok, v')) ∧ m ≤ r + 1 ∧
      (ok = true ↔ m = r + 1) ∧ Installed v a pa m w u v'
  | r, 0, _, _, _, _, _, hn, _, _ => absurd hn (Nat.not_lt_zero r)
  | r, n + 1, a, pa, v, ha, hr, hn, hpa, hfree => by
    unfold Word.mapLoop
    cases hw : walkpgdir v a with
    | none => exact ⟨false, v, 0, rfl, by omega, by simp, installed_zero v a pa w u⟩
    | some x =>
      obtain ⟨e, v₁⟩ := x
      have hp : ¬ e.p = true := fun hp =>
        hfree a ha le_rfl (by omega) ((walkpgdir_some hw).p_iff.1 hp)
      simp only [if_neg hp]
      obtain ⟨v₂, hv₂⟩ : ∃ v₂ : Space, v₂ =
        { v₁ with pgdir := v₁.pgdir.setPte a ⟨pa, true, w, u⟩ } := ⟨_, rfl⟩
      have hround : ∀ b, Aligned b → v₂.pgdir.entry b =
          if b = a then some ⟨pa % 2 ^ 32, true, w, u⟩ else v.pgdir.entry b := fun b hb => by
        rw [hv₂]
        exact entry_round hw ha hpa hb
      rw [← hv₂]
      cases r with
      | zero =>
        rw [if_pos (by omega)]
        exact ⟨true, v₂, 1, rfl, le_rfl, by simp, .cons ha hround (installed_zero _ _ _ w u)⟩
      | succ r =>
        have hmod := ha.mod
        have hnext : (a + PGSIZE) % 2 ^ 32 = a + 4096 := by
          rw [show PGSIZE = 4096 from rfl]
          omega
        have hlast : a + (r + 1) * 4096 = a + 4096 + r * 4096 := by omega
        rw [if_neg (by omega), hnext, hlast]
        obtain ⟨ok, v', m, hrun, hm, hok, hin⟩ := mapLoop_word_ok w u r n (a + 4096)
          ((pa + PGSIZE) % 2 ^ 32) v₂ ⟨by omega, by omega⟩ (by omega) (by omega) (by omega)
          (fun b hb hab hbz hpr => by
            obtain ⟨e', he'⟩ := present_iff_entry.1 hpr
            rw [hround b hb, if_neg (by omega)] at he'
            exact hfree b hb (by omega) (by omega) (present_iff_entry.2 ⟨e', he'⟩))
        exact ⟨ok, v', m + 1, hrun, by omega, by rw [hok]; omega, .cons ha hround hin⟩

/-- This is the loop of `mappages`. -/
theorem mapLoop_word (w u : Bool) : ∀ (r n a pa : ℕ) (v : Space),
    a + r * 4096 < 2 ^ 32 → r < n → pa + r * 4096 < 2 ^ 32 →
    Word.mapLoop w u (a + r * 4096) n a pa v = some (mapLoop w u r a pa v)
  | r, 0, _, _, _, _, hn, _ => absurd hn (Nat.not_lt_zero r)
  | r, n + 1, a, pa, v, hr, hn, hpa => by
    unfold Word.mapLoop mapLoop
    cases hw : walkpgdir v a with
    | none => rfl
    | some x =>
      obtain ⟨e, v₁⟩ := x
      dsimp only
      split_ifs with hp hlast
      · rfl
      · obtain rfl : r = 0 := by omega
        rfl
      · cases r with
        | zero => omega
        | succ r =>
          have hP : PGSIZE = 4096 := rfl
          have hend : a + (r + 1) * 4096 = a + PGSIZE + r * 4096 := by omega
          rw [Nat.mod_eq_of_lt (by omega), Nat.mod_eq_of_lt (by omega), hend]
          exact mapLoop_word w u r n (a + PGSIZE) (pa + PGSIZE) _ (by omega) (by omega)
            (by omega)

/-! ## Translation -/

/-- The physical address, with `PTE_W` and `PTE_U`. -/
def Pgdir.translate (d : Pgdir) (b : ℕ) : Option (ℕ × Bool × Bool) :=
  (d.entry b).map fun e => (e.pa + b % PGSIZE, e.w, e.u)

/-- The translation of the addresses of the first `n` pages, and of the others. -/
theorem Installed.translate {n : ℕ} (h : Installed v a pa n w u v') (ha : Aligned a)
    (hb : b < 2 ^ 32) : v'.pgdir.translate b =
      if a ≤ b ∧ b < a + n * PGSIZE then
        some ((pa + (PGROUNDDOWN b - a)) % 2 ^ 32 + b % PGSIZE, w, u)
      else v.pgdir.translate b := by
  have hmod := ha.mod
  have hpage : (a ≤ PGROUNDDOWN b ∧ PGROUNDDOWN b < a + n * 4096) ↔
      (a ≤ b ∧ b < a + n * PGSIZE) := by
    simp only [PGROUNDDOWN, PGSIZE]
    omega
  rw [Pgdir.translate, ← entry_pgrounddown, h _ (aligned_pgrounddown hb), if_congr hpage rfl rfl]
  split_ifs
  · rfl
  · rw [entry_pgrounddown, Pgdir.translate]

/-- The number of pages in which a range lies. -/
def pageCount (va size : ℕ) : ℕ := (PGROUNDDOWN (va + size - 1) - PGROUNDDOWN va) / PGSIZE + 1

theorem pgrounddown_last {va size : ℕ} (hs : 1 ≤ size) (hz : va + size - 1 < 2 ^ 32) :
    PGROUNDDOWN ((va + size + 2 ^ 32 - 1) % 2 ^ 32) =
      PGROUNDDOWN va + (PGROUNDDOWN (va + size - 1) - PGROUNDDOWN va) / PGSIZE * 4096 := by
  simp only [PGROUNDDOWN, PGSIZE]
  omega

theorem mappages_word_ok (v : Space) {va size : ℕ} (w u : Bool) (hva : va < 2 ^ 32) (hs : 1 ≤ size)
    (hz : va + size - 1 < 2 ^ 32) (hpa : pa < 2 ^ 32)
    (hfree : ∀ b, Aligned b → PGROUNDDOWN va ≤ b → b < va + size → ¬v.pgdir.present b) :
    ∃ ok v' m, Word.mappages v va size pa w u = some (.ok (ok, v')) ∧ m ≤ pageCount va size ∧
      (ok = true ↔ m = pageCount va size) ∧ Installed v (PGROUNDDOWN va) pa m w u v' := by
  have ha := aligned_pgrounddown hva
  obtain ⟨r, hr⟩ : ∃ r, r = (PGROUNDDOWN (va + size - 1) - PGROUNDDOWN va) / PGSIZE := ⟨_, rfl⟩
  have hend : PGROUNDDOWN va + r * 4096 ≤ va + size - 1 := by
    simp only [PGROUNDDOWN, PGSIZE] at hr ⊢
    omega
  have hrounds : ROUNDS = 1048576 := rfl
  unfold Word.mappages pageCount
  rw [pgrounddown_last hs hz, ← hr]
  exact mapLoop_word_ok w u r ROUNDS _ pa v ha (by omega) (by omega) hpa fun b hb hab hbz =>
    hfree b hb hab (by omega)

/-- This is `mappages`, where no address wraps around. -/
theorem mappages_word (v : Space) {va size : ℕ} (w u : Bool) (hs : 1 ≤ size)
    (hz : va + size - 1 < 2 ^ 32)
    (hpa : pa + (PGROUNDDOWN (va + size - 1) - PGROUNDDOWN va) < 2 ^ 32) :
    Word.mappages v va size pa w u = some (mappages v va size pa w u) := by
  obtain ⟨r, hr⟩ : ∃ r, r = (PGROUNDDOWN (va + size - 1) - PGROUNDDOWN va) / PGSIZE := ⟨_, rfl⟩
  have hrounds : ROUNDS = 1048576 := rfl
  rw [Word.mappages, mappages, pgrounddown_last hs hz, ← hr]
  refine mapLoop_word w u r ROUNDS _ pa v ?_ ?_ ?_
  all_goals
    simp only [PGROUNDDOWN, PGSIZE] at hr hpa ⊢
    omega

/-- An empty page directory and one free page. -/
def emptySpace : Space := ⟨[0x401000], 0x400000, fun _ => none⟩

/-- The memory of the screen is mapped, with the free page for its page table. -/
theorem mappages_word_crt :
    Word.mappages emptySpace (KERNBASE + 0xB8000) 4000 0xB8000 true false =
      some (mappages emptySpace (KERNBASE + 0xB8000) 4000 0xB8000 true false) ∧
    (mappages emptySpace (KERNBASE + 0xB8000) 4000 0xB8000 true false).toOption.map
      (fun r => (r.1, r.2.kmem, r.2.pgdir.translate (KERNBASE + 0xB8F9F))) =
        some (true, [], some (0xB8F9F, true, false)) :=
  ⟨mappages_word _ true false (by decide) (by decide) (by decide), by decide +kernel⟩

/-! ## setupkvm -/

/-- `kmap`, for any address of the data of the kernel. -/
def kmapAt (data : ℕ) : List Kmap :=
  [⟨KERNBASE, 0, EXTMEM, true⟩,
   ⟨KERNLINK, KERNLINK - KERNBASE, data - KERNBASE, false⟩,
   ⟨data, data - KERNBASE, PHYSTOP, true⟩,
   ⟨DEVSPACE, DEVSPACE, 0, true⟩]

/-- `setupkvm`, for any address of the data of the kernel and for any `freevm`. -/
def setupkvmWith (freevm : Space → Except Fault (List ℕ)) (data : ℕ) (kmem : List ℕ) :
    Except Fault (Option Pgdir × List ℕ) :=
  match kalloc kmem with
  | none => .ok (none, kmem)
  | some (pg, kmem) =>
    if PHYSTOP + KERNBASE > DEVSPACE then .error .phystop
    else do
      let (ok, v) ← setupLoop (kmapAt data) ⟨kmem, ⟨pg, fun _ => none⟩⟩
      if ok then .ok (some v.pgdir, v.kmem)
      else do
        let kmem ← freevm v
        .ok (none, kmem)

/-- This is the `setupkvm` of the machine, with the contents of memory left out. -/
theorem Store.setupkvm_eq (k : Kernel) (x : Phys) :
    (Store.setupkvm k x).map (Prod.map id Phys.kmem) = setupkvmWith
      (fun v => (Store.freevm k ⟨⟨v.kmem, x.mem⟩, v.pgdir⟩).map Phys.kmem) k.data x.kmem := by
  unfold Store.setupkvm setupkvmWith
  cases kalloc x.kmem with
  | none => rfl
  | some r =>
    dsimp only
    split_ifs
    · rfl
    · refine map_bind_eq (f := id) ?_ fun a => ?_
      · change _ = setupLoop (kmap k) _
        cases setupLoop (kmap k) ⟨r.2, ⟨r.1, fun _ => none⟩⟩ <;> rfl
      · dsimp only [id]
        split_ifs
        · rfl
        · exact map_bind_eq rfl fun _ => rfl

/-- `mappages` of whole pages. -/
theorem mappages_whole (v : Space) {size : ℕ} (w u : Bool) (ha : Aligned a) (hs : 0 < size)
    (hz : a + size ≤ 2 ^ 32) (hpa : pa + size ≤ 2 ^ 32)
    (hfree : ∀ b, Aligned b → a ≤ b → b < a + size → ¬v.pgdir.present b) :
    ∃ ok v', mappages v a size pa w u = .ok (ok, v') ∧
      (∀ b, Aligned b → v'.pgdir.present b → v.pgdir.present b ∨ a ≤ b ∧ b < a + size) ∧
      (ok = true → ∀ b, Aligned b → v'.pgdir.entry b =
        if a ≤ b ∧ b < a + size then some ⟨pa + (b - a), true, w, u⟩ else v.pgdir.entry b) := by
  have hmod := ha.mod
  obtain ⟨r, hr⟩ : ∃ r, r = (PGROUNDDOWN (a + size - 1) - a) / PGSIZE := ⟨_, rfl⟩
  have hend : a + r * 4096 ≤ a + size - 1 ∧ a + size - 1 < a + (r + 1) * 4096 := by
    simp only [PGROUNDDOWN, PGSIZE] at hr
    omega
  obtain ⟨ok, v', m, hrun, hm, hok, hin⟩ := mapLoop_word_ok w u r (r + 1) a pa v ha (by omega)
    (by omega) (by omega) fun b hb hab hbz => hfree b hb hab (by omega)
  rw [mapLoop_word w u r (r + 1) a pa v (by omega) (by omega) (by omega)] at hrun
  refine ⟨ok, v', ?_, fun b hb hp => ?_, fun htrue b hb => ?_⟩
  · rw [mappages, pgrounddown_of_aligned ha, ← hr]
    exact Option.some.inj hrun
  · obtain ⟨e, he⟩ := present_iff_entry.1 hp
    rw [hin b hb] at he
    split_ifs at he with hrange
    · have := hb.mod
      exact Or.inr ⟨hrange.1, by omega⟩
    · exact Or.inl (present_iff_entry.2 ⟨e, he⟩)
  · have hbmod := hb.mod
    have hpage : (a ≤ b ∧ b < a + m * 4096) ↔ (a ≤ b ∧ b < a + size) := by
      rw [hok.1 htrue]
      omega
    rw [hin b hb, if_congr hpage rfl rfl]
    split_ifs with hrange
    · rw [Nat.mod_eq_of_lt (by omega)]
    · rfl

/-- The region in which an address lies. -/
def regionOf (ms : List Kmap) (b : ℕ) : Option Kmap :=
  ms.find? fun m => decide (m.virt ≤ b ∧ b < m.virt + m.size)

theorem regionOf_cons (m : Kmap) (ms : List Kmap) (b : ℕ) : regionOf (m :: ms) b =
    if m.virt ≤ b ∧ b < m.virt + m.size then some m else regionOf ms b := by
  split_ifs with h
  · exact List.find?_cons_of_pos (by simpa using h)
  · exact List.find?_cons_of_neg (by simpa using h)

theorem regionOf_eq_none : ∀ {ms : List Kmap} {z : ℕ}, Ascending z ms → b < z →
    regionOf ms b = none
  | [], _, _, _ => rfl
  | m :: ms, z, hasc, hb => by
    obtain ⟨-, -, hz, -, -, hms⟩ := hasc
    rw [regionOf_cons, if_neg (by omega)]
    exact regionOf_eq_none hms (by omega)

/-- The loop of `setupkvm` maps the regions. -/
theorem setupLoop_entry : ∀ (ms : List Kmap) (z : ℕ) (v v' : Space), Ascending z ms →
    (∀ m ∈ ms, m.physStart + m.size ≤ 2 ^ 32) →
    (∀ b, Aligned b → v.pgdir.present b → b < z) → setupLoop ms v = .ok (true, v') →
    ∀ b, Aligned b → v'.pgdir.entry b = match regionOf ms b with
      | some m => some ⟨m.physStart + (b - m.virt), true, m.w, false⟩
      | none => v.pgdir.entry b
  | [], _, v, v', _, _, _, hrun, b, _ => by
    obtain rfl := (Prod.mk.inj (Except.ok.inj hrun)).2
    rfl
  | m :: ms, z, v, v', hasc, hphys, hfree, hrun, b, hb => by
    obtain ⟨ha, -, hz, hs, hlt, hms⟩ := hasc
    obtain ⟨ok, v₁, hmap, hpres, hentry⟩ := mappages_whole v m.w false ha hs hlt
      (hphys m mem_cons_self) fun b hb hab _ hp => by
        have := hfree b hb hp
        omega
    have hrun' : (do
        let (ok, v) ← mappages v m.virt m.size m.physStart m.w false
        if ok then setupLoop ms v else .ok (false, v)) = .ok (true, v') := hrun
    rw [hmap] at hrun'
    cases ok with
    | false => cases hrun'
    | true =>
      have hnext := setupLoop_entry ms _ v₁ v' hms
        (fun m' hm' => hphys m' (mem_cons_of_mem _ hm')) (fun b hb hp => by
          rcases hpres b hb hp with hp | hp
          · have := hfree b hb hp
            omega
          · exact hp.2) hrun' b hb
      rw [hnext, hentry rfl b hb, regionOf_cons]
      split_ifs with hin
      · rw [regionOf_eq_none hms hin.2]
      · rfl

section Data

variable {data : ℕ} (halign : data % PGSIZE = 0) (hlow : KERNLINK < data)
  (hhigh : data < KERNBASE + PHYSTOP)

include halign hlow hhigh

theorem ascending_kmapAt : Ascending KERNBASE (kmapAt data) ∧
    ∀ m ∈ kmapAt data, m.physStart + m.size ≤ 2 ^ 32 := by
  simp only [KERNLINK, KERNBASE, EXTMEM, PGSIZE, PHYSTOP] at halign hlow hhigh
  simp only [kmapAt, Ascending, Kmap.size, KERNBASE, KERNLINK, EXTMEM, PHYSTOP, DEVSPACE,
    forall_mem_cons]
  refine ⟨⟨⟨by omega, by omega⟩, by omega, by omega, by omega, by omega, ⟨by omega, by omega⟩,
    by omega, by omega, by omega, by omega, ⟨by omega, by omega⟩, by omega, by omega, by omega,
    by omega, ⟨by omega, by omega⟩, by omega, by omega, by omega, by omega, trivial⟩,
    by omega, by omega, by omega, by omega, by simp⟩

theorem regionOf_kmapAt : regionOf (kmapAt data) b =
    if KERNBASE ≤ b ∧ b < KERNLINK then some ⟨KERNBASE, 0, EXTMEM, true⟩
    else if KERNLINK ≤ b ∧ b < data then
      some ⟨KERNLINK, KERNLINK - KERNBASE, data - KERNBASE, false⟩
    else if data ≤ b ∧ b < KERNBASE + PHYSTOP then
      some ⟨data, data - KERNBASE, PHYSTOP, true⟩
    else if DEVSPACE ≤ b ∧ b < 2 ^ 32 then some ⟨DEVSPACE, DEVSPACE, 0, true⟩
    else none := by
  have h₁ : KERNBASE + Kmap.size ⟨KERNBASE, 0, EXTMEM, true⟩ = KERNLINK := rfl
  have h₂ : KERNLINK + Kmap.size ⟨KERNLINK, KERNLINK - KERNBASE, data - KERNBASE, false⟩ =
      data := by
    simp only [Kmap.size, KERNLINK, KERNBASE, EXTMEM, PHYSTOP] at *
    omega
  have h₃ : data + Kmap.size ⟨data, data - KERNBASE, PHYSTOP, true⟩ = KERNBASE + PHYSTOP := by
    simp only [Kmap.size, KERNLINK, KERNBASE, EXTMEM, PHYSTOP] at *
    omega
  have h₄ : DEVSPACE + Kmap.size ⟨DEVSPACE, DEVSPACE, 0, true⟩ = 2 ^ 32 := rfl
  have hnil : regionOf [] b = none := rfl
  rw [kmapAt, regionOf_cons, regionOf_cons, regionOf_cons, regionOf_cons, h₁, h₂, h₃, h₄, hnil]

/-- The translation in the page of an address. -/
theorem region_translate (hb : b < 2 ^ 32) :
    Option.map (fun e : Pte => (e.pa + b % PGSIZE, e.w, e.u))
      (match regionOf (kmapAt data) (PGROUNDDOWN b) with
      | some m => some ⟨m.physStart + (PGROUNDDOWN b - m.virt), true, m.w, false⟩
      | none => none) =
    if KERNBASE ≤ b ∧ b < KERNBASE + PHYSTOP then
      some (b - KERNBASE, !decide (KERNLINK ≤ b ∧ b < data), false)
    else if DEVSPACE ≤ b then some (b, true, false) else none := by
  have hP : PGSIZE = 4096 := rfl
  have hlink : KERNLINK = KERNBASE + EXTMEM := rfl
  have hdev : KERNBASE + PHYSTOP ≤ DEVSPACE ∧ DEVSPACE < 2 ^ 32 := by decide
  have hmod : KERNBASE % 4096 = 0 ∧ EXTMEM % 4096 = 0 ∧ PHYSTOP % 4096 = 0 ∧
      DEVSPACE % 4096 = 0 := by decide
  have hpage : PGROUNDDOWN b = b - b % 4096 := by
    simp only [PGROUNDDOWN, PGSIZE]
    omega
  have hdata : data % 4096 = 0 := halign
  rw [regionOf_kmapAt halign hlow hhigh, hpage, hP]
  -- The regions begin and end at pages, so the address is in the region of its page.
  by_cases h₁ : KERNBASE ≤ b ∧ b < KERNLINK
  · rw [if_pos (by omega), if_pos (by omega), decide_eq_false (by omega)]
    have hpa : 0 + (b - b % 4096 - KERNBASE) + b % 4096 = b - KERNBASE := by omega
    exact congrArg (fun n => some (n, true, false)) hpa
  rw [if_neg (by omega)]
  by_cases h₂ : KERNLINK ≤ b ∧ b < data
  · rw [if_pos (by omega), if_pos (by omega), decide_eq_true h₂]
    have hpa : KERNLINK - KERNBASE + (b - b % 4096 - KERNLINK) + b % 4096 = b - KERNBASE := by
      omega
    exact congrArg (fun n => some (n, false, false)) hpa
  rw [if_neg (by omega), decide_eq_false h₂]
  by_cases h₃ : data ≤ b ∧ b < KERNBASE + PHYSTOP
  · rw [if_pos (by omega), if_pos (by omega)]
    have hpa : data - KERNBASE + (b - b % 4096 - data) + b % 4096 = b - KERNBASE := by omega
    exact congrArg (fun n => some (n, true, false)) hpa
  rw [if_neg (by omega)]
  by_cases h₄ : DEVSPACE ≤ b
  · rw [if_pos (by omega), if_neg (by omega), if_pos h₄]
    have hpa : DEVSPACE + (b - b % 4096 - DEVSPACE) + b % 4096 = b := by omega
    exact congrArg (fun n => some (n, true, false)) hpa
  · rw [if_neg (by omega), if_neg (by omega), if_neg h₄]
    rfl

/-- What the page table that `setupkvm` returns maps. -/
theorem setupkvmWith_translate {freevm : Space → Except Fault (List ℕ)} {kmem kmem' : List ℕ}
    (h : setupkvmWith freevm data kmem = .ok (some d, kmem')) (hb : b < 2 ^ 32) :
    d.translate b =
      if KERNBASE ≤ b ∧ b < KERNBASE + PHYSTOP then
        some (b - KERNBASE, !decide (KERNLINK ≤ b ∧ b < data), false)
      else if DEVSPACE ≤ b then some (b, true, false) else none := by
  obtain ⟨hasc, hphys⟩ := ascending_kmapAt halign hlow hhigh
  unfold setupkvmWith at h
  cases kmem with
  | nil => cases h
  | cons pg kmem =>
    simp only [kalloc] at h
    rw [if_neg (by decide)] at h
    cases hrun : setupLoop (kmapAt data) ⟨kmem, ⟨pg, fun _ => none⟩⟩ with
    | error f =>
      rw [hrun] at h
      cases h
    | ok r =>
      obtain ⟨ok, v⟩ := r
      rw [hrun] at h
      cases ok with
      | false =>
        change (freevm v >>= fun kmem => .ok (none, kmem)) = .ok (some d, kmem') at h
        cases hfree : freevm v with
        | error f =>
          rw [hfree] at h
          cases h
        | ok kmem =>
          rw [hfree] at h
          cases h
      | true =>
        obtain ⟨hd, -⟩ := Prod.mk.inj (Except.ok.inj h)
        obtain rfl := Option.some.inj hd
        have hentry := setupLoop_entry _ _ _ _ hasc hphys
          (fun b _ hp => by
            obtain ⟨e, he, -⟩ := hp
            cases he) hrun _ (aligned_pgrounddown hb)
        have hempty : (⟨pg, fun _ => none⟩ : Pgdir).entry (PGROUNDDOWN b) = none := rfl
        rw [hempty, entry_pgrounddown] at hentry
        rw [Pgdir.translate, hentry]
        exact region_translate halign hlow hhigh hb

end Data

theorem Store.setupkvm_translate {k : Kernel} {x y : Phys}
    (h : Store.setupkvm k x = .ok (some d, y)) (hb : b < 2 ^ 32) : d.translate b =
      if KERNBASE ≤ b ∧ b < KERNBASE + PHYSTOP then
        some (b - KERNBASE, !decide (KERNLINK ≤ b ∧ b < k.data), false)
      else if DEVSPACE ≤ b then some (b, true, false) else none := by
  have hkmem := Store.setupkvm_eq k x
  rw [h] at hkmem
  exact setupkvmWith_translate k.aligned k.lt_data
    ((k.data_le.trans k.end_le).trans_lt (by decide)) hkmem.symm hb

/-- `mappages` installs exactly the mapping asked for, or a proper part from its beginning on. So
`setupkvm` maps exactly the memory of the kernel and the devices, for the kernel only. -/
theorem mappages_exact :
    (∀ (v : Space) (va size pa : ℕ) (w u : Bool), va < 2 ^ 32 → pa < 2 ^ 32 → pa % PGSIZE = 0 →
      1 ≤ size → va + size - 1 < 2 ^ 32 →
      (∀ b, PGROUNDDOWN va ≤ b → b < va + size → ¬v.pgdir.present b) →
      ∃ ok v' n, Word.mappages v va size pa w u = some (.ok (ok, v')) ∧ n ≤ pageCount va size ∧
        (ok = true ↔ n = pageCount va size) ∧
        ∀ b < 2 ^ 32, v'.pgdir.translate b =
          if PGROUNDDOWN va ≤ b ∧ b < PGROUNDDOWN va + n * PGSIZE then
            some ((pa + (PGROUNDDOWN b - PGROUNDDOWN va)) % 2 ^ 32 + b % PGSIZE, w, u)
          else v.pgdir.translate b) ∧
    ∀ (freevm : Space → Except Fault (List ℕ)) (data : ℕ) (kmem kmem' : List ℕ) (d : Pgdir),
      data % PGSIZE = 0 → KERNLINK < data → data < KERNBASE + PHYSTOP →
      setupkvmWith freevm data kmem = .ok (some d, kmem') →
      ∀ b < 2 ^ 32, d.translate b =
        if KERNBASE ≤ b ∧ b < KERNBASE + PHYSTOP then
          some (b - KERNBASE, !decide (KERNLINK ≤ b ∧ b < data), false)
        else if DEVSPACE ≤ b then some (b, true, false) else none := by
  refine ⟨fun v va size pa w u hva hpa _ hs hz hfree => ?_,
    fun freevm data kmem kmem' d halign hlow hhigh h b hb =>
      setupkvmWith_translate halign hlow hhigh h hb⟩
  obtain ⟨ok, v', n, hrun, hn, hok, hin⟩ := mappages_word_ok v w u hva hs hz hpa fun b _ => hfree b
  exact ⟨ok, v', n, hrun, hn, hok, fun b hb => hin.translate (aligned_pgrounddown hva) hb⟩

/-- A kernel with 600 free pages. -/
theorem mappages_exact_kernel : ∃ x y d,
    Store.setupkvm Sys.usualKernel x = .ok (some d, y) ∧
      d.translate KERNBASE = some (0, true, false) ∧ d.translate 0 = none := by
  obtain ⟨n, hn⟩ : ∃ n, n = 600 := ⟨_, rfl⟩
  obtain ⟨kmem, hkmem⟩ : ∃ kmem, kmem = (List.range n).map fun i => 0x400000 + i * 4096 := ⟨_, rfl⟩
  have hvalid : ∀ pg ∈ kmem, Sys.usualKernel.Valid pg := by
    intro pg hpg
    rw [hkmem] at hpg
    obtain ⟨i, hi, rfl⟩ := mem_map.1 hpg
    rw [mem_range] at hi
    refine ⟨by omega, ?_, ?_⟩
    · simp only [Sys.usualKernel, KERNBASE]
      omega
    · simp only [PHYSTOP]
      omega
  obtain ⟨⟨o, y⟩, hrun, -, ⟨-, -, hlen⟩ | ⟨d, hd, -⟩⟩ :=
    (Store.setupkvm_spec (x := ⟨kmem, fun _ => 0⟩) hvalid).exists_ok
  · rw [hkmem, length_map, length_range] at hlen
    omega
  · obtain rfl : o = some d := hd
    have heq := Store.setupkvm_eq Sys.usualKernel ⟨kmem, fun _ => 0⟩
    rw [hrun] at heq
    have htr := mappages_exact.2 _ Sys.usualKernel.data kmem y.kmem d
      Sys.usualKernel.aligned Sys.usualKernel.lt_data (by decide) heq.symm
    refine ⟨⟨kmem, fun _ => 0⟩, y, d, hrun, ?_, ?_⟩
    · rw [htr KERNBASE (by decide)]
      decide
    · rw [htr 0 (by decide)]
      decide

end Xv6.Vm
