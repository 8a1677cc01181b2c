import Xv6.Places

/-!
# growproc and copyuvm

`growproc` does all that it is asked to or nothing, unless it is asked to take away all of the
memory of a process or more (`growproc_all_or_nothing`). `copyuvm` makes a copy that shares
nothing with the original (`copyuvm_independent`). Both are about any state in which the pages
are distinct, which all reachable states are (`Sys.Inv.wf`).
-/

namespace Xv6.Vm

open Function Ram Option

variable {k : Kernel}

namespace Store

variable {s t : Store} {sz : ℕ}

/-! ## copyuvm -/

/-- `copyuvm`, with pages and contents. -/
theorem copyuvm_spec (hs : s.Wf k) (hsz : sz ≤ KERNBASE) :
    Outcome (s.copyuvm k sz) (s.pgdir.Hole sz) fun r =>
      (∀ pg, pg % 4096 = 0 → pg ∉ s.kmem → SamePage pg s.mem r.2.mem) ∧
      ((r.1 = none ∧ (r.2.kmem : Multiset ℕ) = s.kmem ∧ s.kmem.length < 514 + growNeed 0 sz) ∨
        ∃ d, r.1 = some d ∧ (r.2.kmem : Multiset ℕ) + d.pages = s.kmem ∧ d.Contig sz ∧
          ∀ b, Aligned b → b < sz → ∃ e e', s.pgdir.entry b = some e ∧ d.entry b = some e' ∧
            e'.w = e.w ∧ e'.u = e.u ∧ e'.pa ∈ s.kmem ∧
            ∀ i < PGSIZE, r.2.mem (e'.pa + i) = s.mem (e.pa + i)) := by
  have hvalid : ∀ pg ∈ s.kmem, k.Valid pg := fun pg hpg =>
    hs.good pg (Multiset.mem_add.2 (.inl hpg))
  unfold copyuvm
  refine (setupkvm_spec hvalid).weaken.bind ?_
  rintro ⟨o, m⟩ ⟨hsame, ⟨ho, hk, hshort⟩ | ⟨d, ho, hkmem, hno⟩⟩
  · dsimp only at hsame ho hk
    subst ho
    exact outcome_ok ⟨hsame, .inl ⟨rfl, hk, by omega⟩⟩
  · dsimp only at hsame ho hkmem
    subst ho
    dsimp only
    have hpages : (space ⟨m, d⟩).pages = (s.kmem : Multiset ℕ) := hkmem
    have hwf : Wf k ⟨m, d⟩ := by
      refine ⟨fun pg hpg => hvalid pg ?_, ?_⟩
      · rw [hpages] at hpg
        exact hpg
      · rw [hpages]
        exact (Multiset.nodup_add.1 hs.nodup).1
    have hsub : ∀ pg ∈ m.kmem, pg ∈ s.kmem := fun pg hpg => by
      have : pg ∈ (s.kmem : Multiset ℕ) := by
        rw [← hpages]
        exact Multiset.mem_add.2 (.inl hpg)
      exact this
    have hnone : ∀ b, b < KERNBASE → d.entry b = none := fun b hb =>
      entry_eq_none_iff.2 (hno.absent hb)
    refine (copyLoop_spec hsz ROUNDS 0 ⟨m, d⟩ hwf rfl ?_ (fun b _ _ hbz => hnone b (by omega))
      fun b e hb hbz he => ?_).bind ?_
    · simp only [ROUNDS, NPDENTRIES, NPTENTRIES, KERNBASE] at *
      omega
    · exact ⟨hs.entry_mod he (by omega), fun hm => hs.entry_not_mem he (by omega) (hsub _ hm)⟩
    rintro ⟨ok, x⟩ ⟨hp, hr, hsame'⟩
    dsimp only at hp hr hsame'
    have hx : ∀ pg, pg % 4096 = 0 → pg ∉ s.kmem → SamePage pg s.mem x.mem :=
      fun pg hpg hnot => (hsame pg hpg hnot).trans (hsame' pg hpg fun hm => hnot (hsub pg hm))
    obtain ⟨rfl, hcop⟩ | ⟨rfl, hroom⟩ := hr
    · refine outcome_ok ⟨hx, .inr ⟨x.pgdir, rfl, hp.trans hpages, fun b hb hbk => ?_,
        fun b hb hbz => ?_⟩⟩
      · rw [present_iff_entry]
        by_cases hbz : b < sz
        · obtain ⟨-, e', -, he', -⟩ := hcop.new b hb (Nat.zero_le b) hbz
          exact iff_of_true ⟨e', he'⟩ hbz
        · rw [hcop.old b hb (by omega), hnone b hbk]
          exact iff_of_false (by simp) hbz
      · obtain ⟨e, e', he, he', hw, hu, hpa, hbytes⟩ := hcop.new b hb (Nat.zero_le b) hbz
        refine ⟨e, e', he, he', hw, hu, hsub _ hpa, fun i hi => ?_⟩
        have hbk : b < KERNBASE := by omega
        rw [hbytes i hi, hsame e.pa (hs.entry_mod he hbk) (hs.entry_not_mem he hbk) i hi]
    · have hgood := hwf.good.congr hp
      have hcard := congrArg Multiset.card hkmem
      have hd := hno.card_pages
      rw [Multiset.card_add, Multiset.coe_card, Multiset.coe_card] at hcard
      refine (freevm_spec hgood).weaken.bind ?_
      rintro y ⟨hy, hyk⟩
      refine outcome_ok ⟨fun pg hpg hnot => ?_, .inl ⟨rfl, hyk.trans (hp.trans hpages), ?_⟩⟩
      · refine (hx pg hpg hnot).trans (hy pg hpg fun hmem => hnot ?_)
        rw [hp, hpages] at hmem
        exact hmem
      · rw [growNeed]
        omega

/-- A store through one of two tables that share no page is not seen through the other. -/
theorem view_update_of_disjoint {d d' : Pgdir} {m : ℕ → UInt8} {x : ℕ} (c : UInt8)
    (h : ∀ va va' y, d.user va = some y → d'.user va' ≠ some y) {va : ℕ}
    (hx : d.user va = some x) : view d'.user (update m x c) = view d'.user m := by
  refine view_congr fun va' y hy => update_of_ne ?_ _ _
  rintro rfl
  exact h va va' y hx hy

/-- `copyuvm` does not panic and leaves the page table that it copies as it is. If it succeeds the
copy has the same contents and permissions below `sz` and nothing above, in pages that were free,
and stores through one table are not visible through the other. If it fails the same pages are
free as before. -/
theorem copyuvm_independent (hs : s.Wf k) (hsz : sz ≤ KERNBASE) (hc : s.pgdir.Contig sz) :
    ∃ o m, s.copyuvm k sz = .ok (o, m) ∧
      (∀ va, byte ⟨m, s.pgdir⟩ va = s.byte va) ∧
      (o = none → (m.kmem : Multiset ℕ) = s.kmem) ∧
      ∀ d, o = some d →
        (∀ va < sz, ∃ e e', s.pgdir.walk va = some e ∧ d.walk va = some e' ∧
          e'.p = e.p ∧ e'.w = e.w ∧ e'.u = e.u ∧
          ∃ c, s.byte va = some c ∧ byte ⟨m, d⟩ va = some c) ∧
        (∀ a, a % PGSIZE = 0 → sz ≤ a → a < KERNBASE → ¬d.present a) ∧
        Separate d.user ∧
        (∀ va x, d.user va = some x → PGROUNDDOWN x ∈ s.kmem) ∧
        (∀ va va' x, d.user va = some x → s.pgdir.user va' ≠ some x) ∧
        (∀ va x c, d.user va = some x →
          view s.pgdir.user (update m.mem x c) = view s.pgdir.user m.mem) ∧
        ∀ va x c, s.pgdir.user va = some x →
          view d.user (update m.mem x c) = view d.user m.mem := by
  have hvalid : ∀ pg ∈ s.kmem, k.Valid pg := fun pg hpg =>
    hs.good pg (Multiset.mem_add.2 (.inl hpg))
  obtain ⟨⟨o, m⟩, hok, hsame, hr⟩ := ((copyuvm_spec hs hsz).mono
    (fun f h => hc.not_hole hsz h) fun _ h => h).exists_ok
  dsimp only at hsame hr
  refine ⟨o, m, hok, byte_of_same hs hsame, fun ho => ?_, fun d hd => ?_⟩
  · rcases hr with ⟨-, hk, -⟩ | ⟨d, hd, -⟩
    · exact hk
    · rw [ho] at hd
      cases hd
  · obtain ⟨d', hd', hpages, hcd, hcop⟩ := hr.resolve_left fun h => by rw [hd] at h; cases h.1
    obtain rfl := some.inj (hd.symm.trans hd')
    have hwf : Wf k ⟨m, d⟩ := by
      refine ⟨fun pg hpg => hvalid pg ?_, ?_⟩
      · rw [show (space ⟨m, d⟩).pages = _ from hpages] at hpg
        exact hpg
      · rw [show (space ⟨m, d⟩).pages = _ from hpages]
        exact (Multiset.nodup_add.1 hs.nodup).1
    have hfresh : ∀ va x, d.user va = some x → PGROUNDDOWN x ∈ s.kmem := fun va x hx => by
      have : PGROUNDDOWN x ∈ (s.kmem : Multiset ℕ) := by
        rw [← hpages]
        exact Multiset.mem_add.2 (.inr (user_page hwf.pgdir_mod hx))
      exact this
    have hdisj : ∀ va va' x, d.user va = some x → s.pgdir.user va' ≠ some x :=
      fun va va' x hx hx' =>
      Multiset.disjoint_left.1 (Multiset.nodup_add.1 hs.nodup).2.2 (hfresh va x hx)
        (user_page hs.pgdir_mod hx')
    refine ⟨fun va hva => ?_, fun a ha hsa hak hp => ?_, hwf.separate, hfresh, hdisj,
      fun va x c hx => view_update_of_disjoint c hdisj hx,
      fun va x c hx => view_update_of_disjoint c (fun va va' y h h' => hdisj va' va y h' h) hx⟩
    · have hvk : va < KERNBASE := by omega
      have hle := pgrounddown_le va
      obtain ⟨e, e', he, he', hw, hu, hpa, hbytes⟩ :=
        hcop _ (aligned_pgrounddown (hvk.trans kernbase_lt)) (lt_of_le_of_lt hle hva)
      have hwalk := entry_eq_some.1 he
      have hwalk' := entry_eq_some.1 he'
      rw [walk_pgrounddown] at hwalk hwalk'
      refine ⟨e, e', hwalk.1, hwalk'.1, hwalk'.2.trans hwalk.2.symm, hw, hu,
        s.mem (e.pa + va % PGSIZE), ?_, ?_⟩
      · rw [byte, view, user_of_lt hvk, he]
        rfl
      · rw [byte, view, user_of_lt hvk, he']
        exact congrArg some (hbytes _ (Nat.mod_lt _ (by decide)))
    · have := (hcd a ⟨ha, hak.trans kernbase_lt⟩ hak).1 hp
      omega

/-- `copyuvm` succeeds if there is enough memory. -/
theorem copyuvm_some (hs : s.Wf k) (hsz : sz ≤ KERNBASE) (hc : s.pgdir.Contig sz)
    (hroom : 514 + growNeed 0 sz ≤ s.kmem.length) : ∃ d m, s.copyuvm k sz = .ok (some d, m) := by
  obtain ⟨⟨o, m⟩, hok, -, hr⟩ := ((copyuvm_spec hs hsz).mono
    (fun f h => hc.not_hole hsz h) fun _ h => h).exists_ok
  obtain ⟨d, ho, -⟩ := hr.resolve_left fun hr => by omega
  obtain rfl : o = some d := ho
  exact ⟨d, m, hok⟩

/-- The memory of the first process is copied to pages that were free. -/
theorem copyuvm_independent_init : ∃ s c d m, Sys.usualMain = .ok s ∧
    s.proc Ptable.initproc = some c ∧
      copyuvm Sys.usualKernel ⟨⟨s.kmem, fun _ => 7⟩, c.pgdir⟩ c.sz = .ok (some d, m) ∧
      byte ⟨m, d⟩ 5 = some 7 ∧ ∃ x, d.user 5 = some x ∧ PGROUNDDOWN x ∈ s.kmem := by
  obtain ⟨s, c, h, hinv, hc, hp, -, hsz, hlen, -⟩ := Sys.exists_main
  have hwf := hinv.wf hp fun _ => 7
  have hlt := (hinv.below _ c hp).1.le
  obtain ⟨d, m, hd⟩ := copyuvm_some hwf hlt (hc _ c hp) (by
    have hneed : growNeed 0 PGSIZE = 4 := by decide
    rw [hsz, hneed]
    dsimp only
    omega)
  obtain ⟨o, m', hok, -, -, hcopy⟩ := copyuvm_independent hwf hlt (hc _ c hp)
  obtain ⟨rfl, rfl⟩ := Prod.mk.inj (Except.ok.inj (hd.symm.trans hok))
  obtain ⟨hsame, -, -, hfree, -⟩ := hcopy d rfl
  obtain ⟨-, -, -, -, -, -, -, b, hb, hb'⟩ := hsame 5 (by rw [hsz]; decide)
  obtain ⟨y, -, hy⟩ := map_eq_some_iff.1 hb
  obtain ⟨x, hx, -⟩ := map_eq_some_iff.1 hb'
  exact ⟨s, c, d, m, h, hp, hd, hb'.trans (congrArg some hy.symm), x, hx, hfree 5 x hx⟩

/-! ## growproc -/

/-- `growproc` changes the size by `n` and keeps what is below both sizes, or it changes
nothing. -/
def AllOrNothing (k : Kernel) (s : Store) (sz : ℕ) (n : Int32) : Prop :=
  ∃ r t, s.growproc k sz n = .ok (r, t) ∧
    ((∃ newsz, r = some newsz ∧ (newsz : ℤ) = sz + n.toInt ∧ t.pgdir.Contig newsz ∧
      ∀ va, va < sz → va < newsz → t.byte va = s.byte va) ∨
    (r = none ∧ (∀ b, Aligned b → t.pgdir.entry b = s.pgdir.entry b) ∧
      ∀ va, t.byte va = s.byte va))

variable {newsz : ℕ} {n : Int32}

/-- What `allocuvm` leaves. -/
theorem Fresh.byte_eq {z : ℕ} (h : Fresh s t sz z) (hs : s.Wf k) {va : ℕ}
    (hva : ¬(sz ≤ PGROUNDDOWN va ∧ PGROUNDDOWN va < z)) : t.byte va = s.byte va := by
  by_cases hvk : va < KERNBASE
  · have hle := pgrounddown_le va
    refine byte_congr (h.old _ (aligned_pgrounddown (hvk.trans kernbase_lt)) hva) ?_
    exact fun e he => h.same _ (hs.entry_mod he (by omega)) (hs.entry_not_mem he (by omega))
  · rw [byte_of_not_lt hvk, byte_of_not_lt hvk]

theorem toInt_bounds (n : Int32) : -2147483648 ≤ n.toInt ∧ n.toInt < 2147483648 :=
  ⟨n.le_toInt, n.toInt_lt⟩

theorem zero_lt_iff : 0 < n ↔ 0 < n.toInt := Int32.lt_iff_toInt_lt

theorem lt_zero_iff : n < 0 ↔ n.toInt < 0 := Int32.lt_iff_toInt_lt

/-- `growproc` with a positive argument. -/
theorem growproc_of_pos (hs : s.Wf k) (hsz : sz < KERNBASE) (hc : s.pgdir.Contig sz)
    (hn : 0 < n.toInt) : AllOrNothing k s sz n := by
  have hbound := toInt_bounds n
  obtain ⟨newsz, hnew⟩ : ∃ newsz : ℕ, (newsz : ℤ) = sz + n.toInt := ⟨(sz + n.toInt).toNat, by omega⟩
  have hsum : ((sz + n.toInt) % 2 ^ 32).toNat = newsz := by
    simp only [KERNBASE] at hsz
    omega
  obtain ⟨⟨r, t⟩, hok, hcon, hgrown⟩ := (allocuvm_spec hs hc.below newsz).exists_ok
  dsimp only at hcon hgrown
  have hgrow : s.growproc k sz n = if r = 0 then .ok (none, t) else .ok (some r, t) := by
    rw [growproc, hsum, if_pos (zero_lt_iff.2 hn), hok]
    rfl
  rcases hcon with ⟨hr, -, hf⟩ | ⟨hr, hf⟩
  · have hr' : r = newsz := by omega
    rw [if_neg (by omega)] at hgrow
    refine ⟨_, t, hgrow, .inl ⟨r, rfl, by omega, ?_, fun va hva _ => hf.byte_eq hs ?_⟩⟩
    · exact (hgrown.contig (by omega) hc hsz).2.2
    · have hle := pgrounddown_le va
      omega
  · rw [if_pos hr] at hgrow
    exact ⟨_, t, hgrow, .inr ⟨rfl, fun b hb => hf.old b hb (by omega),
      fun va => hf.byte_eq hs (by omega)⟩⟩

/-- `growproc` with a negative argument, in terms of what `deallocuvm` does. -/
theorem growproc_of_neg (hs : s.Wf k) (hsz : sz < KERNBASE) (hn : n.toInt < 0) :
    ∃ t, s.growproc k sz n =
        .ok (if min sz ((sz + n.toInt) % 2 ^ 32).toNat = 0 then none
          else some (min sz ((sz + n.toInt) % 2 ^ 32).toNat), t) ∧
      Freed s t ((sz + n.toInt) % 2 ^ 32).toNat sz := by
  obtain ⟨⟨r, t⟩, hok, hf, hr, -⟩ :=
    (deallocuvm_spec hsz.le hs.good ((sz + n.toInt) % 2 ^ 32).toNat).exists_ok
  dsimp only at hf hr
  refine ⟨t, ?_, hf⟩
  rw [growproc, if_neg (by rw [zero_lt_iff]; omega), if_pos (lt_zero_iff.2 hn), hok, ← hr]
  change (if r = 0 then Except.ok (none, t) else Except.ok (some r, t)) = _
  split_ifs <;> rfl

/-- What `deallocuvm` leaves. -/
theorem byte_of_freed {z : ℕ} (h : Freed s t z sz) (hs : s.Wf k) (hsz : sz < KERNBASE) {va : ℕ}
    (hva : va < z) : t.byte va = s.byte va := by
  by_cases hvk : va < KERNBASE
  · have hle := pgrounddown_le va
    have hal := aligned_pgrounddown (hvk.trans kernbase_lt)
    refine byte_congr ?_ fun e he => ?_
    · rw [h.entry _ hal, if_neg (by omega)]
    · refine h.same _ (hs.entry_mod he (by omega)) fun b e' hb hzb hbs he' hpa => ?_
      have := entry_inj hs.nodup_pgdir hb hal (by omega) (by omega) he' he hpa
      omega
  · rw [byte_of_not_lt hvk, byte_of_not_lt hvk]

/-- `growproc` with a negative argument that leaves something. -/
theorem growproc_shrink (hs : s.Wf k) (hsz : sz < KERNBASE) (hc : s.pgdir.Contig sz)
    (hn : n.toInt < 0) (hpos : 0 < sz + n.toInt) : AllOrNothing k s sz n := by
  obtain ⟨t, hgrow, hf⟩ := growproc_of_neg hs hsz hn
  obtain ⟨newsz, hnew⟩ : ∃ newsz : ℕ, (newsz : ℤ) = sz + n.toInt := ⟨(sz + n.toInt).toNat, by omega⟩
  have hsum : ((sz + n.toInt) % 2 ^ 32).toNat = newsz := by
    simp only [KERNBASE] at hsz
    omega
  rw [hsum] at hgrow hf
  have hmin : min sz newsz = newsz := by omega
  rw [hmin, if_neg (by omega)] at hgrow
  refine ⟨_, t, hgrow, .inl ⟨newsz, rfl, hnew, fun b hb hbk => ?_,
    fun va _ hva => byte_of_freed hf hs hsz hva⟩⟩
  rw [present_iff_entry, hf.entry b hb]
  have hp := hc b hb hbk
  rw [present_iff_entry] at hp
  split_ifs with hbr
  · simp only [exists_false, false_iff]
    omega
  · rw [hp]
    omega

/-- `growproc` of a process without memory. -/
theorem growproc_empty (hs : s.Wf k) (hn : n.toInt < 0) : AllOrNothing k s 0 n := by
  obtain ⟨t, hgrow, hf⟩ := growproc_of_neg hs (by decide : 0 < KERNBASE) hn
  rw [Nat.zero_min, if_pos rfl] at hgrow
  have hentry : ∀ b, Aligned b → t.pgdir.entry b = s.pgdir.entry b := fun b hb => by
    rw [hf.entry b hb, if_neg (by omega)]
  refine ⟨_, t, hgrow, .inr ⟨rfl, hentry, fun va => ?_⟩⟩
  by_cases hvk : va < KERNBASE
  · refine byte_congr (hentry _ (aligned_pgrounddown (hvk.trans kernbase_lt))) fun e he => ?_
    refine hf.same _ (hs.entry_mod he ?_) fun b e' _ _ hb0 => absurd hb0 (Nat.not_lt_zero b)
    exact lt_of_le_of_lt (pgrounddown_le va) hvk
  · rw [byte_of_not_lt hvk, byte_of_not_lt hvk]

/-- All of the memory, or more, is taken away. -/
theorem growproc_not_all_or_nothing (hs : s.Wf k) (hsz : sz < KERNBASE) (hc : s.pgdir.Contig sz)
    (hn : n.toInt < 0) (hneg : sz + n.toInt ≤ 0) (hpos : 0 < sz) : ¬AllOrNothing k s sz n := by
  obtain ⟨t, hgrow, hf⟩ := growproc_of_neg hs hsz hn
  have hbound := toInt_bounds n
  rintro ⟨r, t', hok, h⟩
  rw [hgrow] at hok
  obtain ⟨hr, rfl⟩ := Prod.mk.inj (Except.ok.inj hok)
  rcases h with ⟨newsz, rfl, hnew, -⟩ | ⟨rfl, hentry, -⟩
  · -- the size can only become 0, for which the result is -1
    have h0 : newsz = 0 := by omega
    split_ifs at hr with hmin
    have := some.inj hr
    omega
  · -- the first page was there
    split_ifs at hr with hmin
    have h0 : Aligned 0 := ⟨rfl, by decide⟩
    have hz : ((sz + n.toInt) % 2 ^ 32).toNat = 0 := by omega
    have hp := (hc 0 h0 (by decide)).2 hpos
    rw [present_iff_entry, ← hentry 0 h0, hf.entry 0 h0, hz, if_pos ⟨le_rfl, hpos⟩] at hp
    obtain ⟨e, he⟩ := hp
    cases he

/-- `growproc` is all or nothing exactly if it is not asked to take away all of the memory of a
process or more. -/
theorem growproc_all_or_nothing (hs : s.Wf k) (hsz : sz < KERNBASE) (hc : s.pgdir.Contig sz)
    (n : Int32) : AllOrNothing k s sz n ↔ 0 ≤ n.toInt ∨ 0 < sz + n.toInt ∨ sz = 0 := by
  constructor
  · intro h
    by_contra hnot
    simp only [not_or, not_le, not_lt] at hnot
    exact growproc_not_all_or_nothing hs hsz hc hnot.1 hnot.2.1 (pos_of_ne_zero hnot.2.2) h
  · intro h
    rcases lt_trichotomy n.toInt 0 with hn | hn | hn
    · rcases h with h | h | rfl
      · omega
      · exact growproc_shrink hs hsz hc hn h
      · exact growproc_empty hs hn
    · refine ⟨some sz, s, ?_, .inl ⟨sz, rfl, by omega, hc, fun _ _ _ => rfl⟩⟩
      rw [growproc, if_neg (by rw [zero_lt_iff]; omega), if_neg (by rw [lt_zero_iff]; omega)]
    · exact growproc_of_pos hs hsz hc hn

/-- The first process grows by a byte. -/
theorem growproc_all_or_nothing_init : ∃ s c, Sys.usualMain = .ok s ∧
    s.proc Ptable.initproc = some c ∧
      AllOrNothing Sys.usualKernel ⟨⟨s.kmem, fun _ => 0⟩, c.pgdir⟩ c.sz 1 := by
  obtain ⟨s, c, h, hinv, hc, hp, -, -⟩ := Sys.exists_main
  refine ⟨s, c, h, hp, (growproc_all_or_nothing (hinv.wf hp fun _ => 0) (hinv.below _ c hp).1
    (hc _ c hp) 1).2 (.inl (by decide))⟩

/-- The first process, which has one page, calls `sbrk(-4096)` or `sbrk(-4097)`. -/
theorem growproc_takes_all : ∃ s c, Sys.usualMain = .ok s ∧
    s.proc Ptable.initproc = some c ∧ c.sz = 4096 ∧
      ¬AllOrNothing Sys.usualKernel ⟨⟨s.kmem, fun _ => 0⟩, c.pgdir⟩ c.sz (-4096) ∧
      ¬AllOrNothing Sys.usualKernel ⟨⟨s.kmem, fun _ => 0⟩, c.pgdir⟩ c.sz (-4097) := by
  obtain ⟨s, c, h, hinv, hc, hp, -, hsz, -⟩ := Sys.exists_main
  have hfails : ∀ n : Int32, n.toInt ≤ -4096 →
      ¬AllOrNothing Sys.usualKernel ⟨⟨s.kmem, fun _ => 0⟩, c.pgdir⟩ c.sz n := by
    intro n hn
    have hsz' : c.sz = 4096 := hsz
    exact growproc_not_all_or_nothing (hinv.wf hp fun _ => 0) (hinv.below _ c hp).1 (hc _ c hp)
      (by omega) (by omega) (by omega)
  exact ⟨s, c, h, hp, hsz, hfails _ (by decide), hfails _ (by decide)⟩

end Store

end Xv6.Vm
