import Xv6.BlockStore

/-!
# The buffer cache and the log refine an array of blocks

The steps of `commit` keep the invariant of `BlockStore`, and so do whole runs.
`cache_refines_array` : what `bread` returned and what holders stored is a run of a
plain array, which knows neither buffers nor a log. The copies that `install_trans`
makes leave no event, so they change nothing a reader can see. The theorem also says
why : logged blocks stay pinned until they are installed, and a home block is written
only while the header on the disk records it.

The log has `LOGSIZE` blocks and the cache `NBUF`, the same number. As `log_write`
looks at `log.lh.n` without the lock, the transaction can grow to `LOGSIZE` blocks,
one more than fits. Then every buffer is pinned and `commit` finds none for the
first log block (`length_lh_lt`), so no run gets further.
-/

set_option linter.unusedSectionVars false

namespace Xv6

open Option Function

variable {i : BufId} {b : ℕ}

namespace BlockStore

variable {P : Type} [DecidableEq P]

section Invariant

variable [Fintype P] {d₀ st : Disk} {s t : BlockStore P} {p : P} {pc : CommitPc}
  {c : Bcache P} {u : Use} {j : BufId} {a : BlockAction P}

/-! ## Steps of `commit` -/

theorem clean_of_fetch (h : c.Fetch p i b) (hidle : c.Idle p) : c.Held p i b .clean := by
  rcases h.state with hw | ⟨u, hu, hl⟩
  · simp [hidle.1] at hw
  · refine ⟨h.toAt, ?_⟩
    cases u with
    | filling => exact absurd hl (hidle.2 i)
    | clean => exact hl
    | changed => exact absurd rfl hu

theorem ne_of_at {b' : ℕ} (hi : (c.buf i).At b) (hj : (c.buf j).At b') (hne : b' ≠ b) : j ≠ i := by
  rintro rfl
  exact hne (hj.blockno.symm.trans hi.blockno)

theorem holding_of_held (h : c.Held p i b u) :
    c.Holding p i := by
  rw [Bcache.Holding, h.lock]
  rfl

/-- A buffer of a block outside the transaction leaves the others to pin it. -/
theorem length_lh_lt {lh : List ℕ} (hnd : lh.Nodup) (hpins : ∀ k (hk : k < lh.length), c.Pins lh[k])
    (hi : (c.buf i).At b) (hb : b ∉ lh) :
    lh.length < NBUF := by
  choose f hf using fun k : Fin lh.length => hpins k k.isLt
  have hinj : Function.Injective f := by
    intro k l hkl
    have hblock : lh[k.val] = lh[l.val] :=
      (hf k).1.blockno.symm.trans ((congrArg (fun j => (c.buf j).blockno) hkl).trans
        (hf l).1.blockno)
    exact Fin.ext ((hnd.getElem_inj_iff).1 hblock)
  have hout : i ∉ Set.range f := by
    rintro ⟨k, rfl⟩
    exact hb (hi.blockno.symm.trans (hf k).1.blockno ▸ List.getElem_mem k.isLt)
  simpa using Fintype.card_lt_of_injective_of_notMem f hinj hout

theorem Inv.contains_start (h : s.Inv d₀ st) : s.area.Contains s.start := by
  have hL : LOGSIZE = 30 := rfl
  have := h.size
  exact ⟨le_rfl, by simp only [area]; omega⟩

/-- What holds at the place in `commit` where the process is. -/
theorem Inv.pcInv (h : s.Inv d₀ st) (hp : (s.proto.phase p).committer = 1) (hpc : s.pc = pc) :
    s.PcInv st p pc := hpc ▸ h.pc p hp

theorem Inv.contains_log (h : s.Inv d₀ st) {k : ℕ} (hk : k + 1 < NBUF) :
    s.area.Contains (s.start + k + 1) := by
  have hL : LOGSIZE = NBUF := rfl
  have := h.size
  exact ⟨by simp only [area]; omega, by simp only [area]; omega⟩

theorem Inv.start_ne (h : s.Inv d₀ st) (hb : b ∈ s.lh) : b ≠ s.start :=
  LogArea.ne_of_contains h.contains_start (h.home b hb)

theorem Inv.log_ne (h : s.Inv d₀ st) {k : ℕ} (hb : b ∈ s.lh) (hk : k + 1 < NBUF) :
    b ≠ s.start + k + 1 :=
  LogArea.ne_of_contains (h.contains_log hk) (h.home b hb)

section Copy

variable {dir : CopyDir} {tail : ℕ} {m m' : CopyPc} {c' : Bcache P} {tr : List BlockEvent}
variable (h : s.Inv d₀ st) (hidle : s.cache.Idle p) (hp : (s.proto.phase p).committer = 1)

theorem PcInv.copy_lt (h : s.PcInv st p (.copy dir tail m)) : tail < s.lh.length := by
  cases dir with
  | toLog => exact WriteLogInv.lt h
  | toHome => exact InstallInv.lt h

theorem PcInv.copy_room (h : s.PcInv st p (.copy dir tail m)) (hm : m ≠ .start) :
    s.lh.length < NBUF := by
  cases dir with
  | toLog => exact (WriteLogInv.room h).resolve_right fun hs => hm hs.2
  | toHome => exact InstallInv.room h

theorem PcInv.copy_bufs (h : s.PcInv st p (.copy dir tail m)) :
    CopyInv s.cache p dir (s.start + tail + 1) (s.lh.getD tail 0) m := by
  cases dir with
  | toLog => exact WriteLogInv.bufs h
  | toHome => exact InstallInv.bufs h

/-- A step inside a round that stores and writes nothing. -/
theorem PcInv.copy_next (h : s.PcInv st p (.copy dir tail m)) (hroom : s.lh.length < NBUF)
    (hm : m'.movedN = m.movedN) (hdisk : c'.disk = s.cache.disk)
    (hb : CopyInv c' p dir (s.start + tail + 1) (s.lh.getD tail 0) m') :
    PcInv { s with cache := c', pc := .copy dir tail m', trace := tr } st p
      (.copy dir tail m') := by
  cases dir with
  | toLog =>
    obtain ⟨hphase, hlt, -, hcop, -⟩ : s.WriteLogInv st p tail m := h
    exact ⟨hphase, hlt, Or.inl hroom, hm ▸ hcop, hb⟩
  | toHome =>
    obtain ⟨hphase, hlt, hr, hcop, hhead, -⟩ : s.InstallInv st p tail m := h
    exact ⟨hphase, hlt, hr, hcop, hdisk.symm ▸ hhead, hb⟩

/-- Inside a round the pins stay, except for the block just written. -/
theorem Inv.pins_copy (h : s.Inv d₀ st) (hpc : s.pc = .copy dir tail m)
    (hq : s.cache.Quietly c') {n : CopyPc} (hm : n.writtenN = m.writtenN) (k : ℕ)
    (hk : k < s.lh.length) (hin : ¬(CommitPc.copy dir tail n).Installed k) :
    c'.Pins s.lh[k] := by
  refine hq.pins _ (h.pins k hk ?_)
  rw [hpc]
  cases dir with
  | toLog => exact id
  | toHome => simpa [CommitPc.Installed, hm] using hin

/-- The two blocks of a round are different, and so are their buffers. -/
theorem Inv.copy_ne (h : s.Inv d₀ st) (hI : s.PcInv st p (.copy dir tail m))
    (hroom : s.lh.length < NBUF) : s.lh.getD tail 0 ≠ s.start + tail + 1 := by
  have hlt := hI.copy_lt
  rw [List.getD_eq_getElem _ _ hlt]
  exact h.log_ne (List.getElem_mem hlt) (by omega)

theorem held_data (h : s.Inv d₀ st) (hh : s.cache.Held p i b .clean) :
    (s.cache.buf i).data = st b := by
  have hv := (h.cache.good i).returned p .clean hh.lock (by simp)
  rw [((h.cache.good i).coherent hv).2.2, hh.blockno]

theorem held_store {b' : ℕ} {u' : Use} {v : Block} (hi : c.Held p i b u) (hj : c.Held p j b' u')
    (hne : b' ≠ b) :
    (c.store p i v).Held p i b .changed ∧ (c.store p i v).Held p j b' u' := by
  have hji := ne_of_at hi.toAt hj.toAt hne
  refine ⟨⟨Bcache.at_store.2 hi.toAt, ?_⟩, ⟨Bcache.at_store.2 hj.toAt, ?_⟩⟩
  · simp [Bcache.store]
  · simpa [Bcache.store, hji] using hj.lock

/-- What `bwrite` leaves of the pins and of the buffers. -/
theorem pins_bwrite {b' : ℕ} (ht : c.bwrite p i = .ok c') (hi : (c.buf i).At b) (hne : b' ≠ b)
    (h : c.Pins b') : c'.Pins b' := by
  obtain rfl := Bcache.bwrite_cases ht
  obtain ⟨j, hj, hd⟩ := h
  have hji := ne_of_at hi hj hne
  exact ⟨j, by simpa [hji] using ⟨hj, hd⟩⟩

theorem held_bwrite (ht : c.bwrite p i = .ok c') (hi : c.Held p i b u) : c'.Held p i b .clean ∧
      ∀ j b' u', b' ≠ b → c.Held p j b' u' → c'.Held p j b' u' := by
  obtain rfl := Bcache.bwrite_cases ht
  refine ⟨⟨by simpa using ⟨hi.dev, hi.blockno⟩, by simp⟩, fun j b' u' hne hj => ?_⟩
  have hji := ne_of_at hi.toAt hj.toAt hne
  exact ⟨by simpa [hji] using hj.toAt, by simpa [hji] using hj.lock⟩

theorem disk_bwrite (ht : c.bwrite p i = .ok c') (hi : (c.buf i).At b) :
    c'.disk = update c.disk b (c.buf i).data := by
  rw [Bcache.bwrite_cases ht, hi.blockno]

theorem disksize_bwrite (ht : c.bwrite p i = .ok c') :
    c'.disksize = c.disksize := by
  rw [Bcache.bwrite_cases ht]

/-- A buffer released by its holder leaves its other buffers alone. -/
theorem held_brelse {b' : ℕ} {u' : Use} (ht : c.brelse p i = .ok c') (hi : c.Held p i b u)
    (hj : c.Held p j b' u') (hne : b' ≠ b) :
    c'.Held p j b' u' := by
  obtain ⟨-, rfl⟩ := Bcache.brelse_cases ht
  have hji := ne_of_at hi.toAt hj.toAt hne
  exact ⟨by simpa [hji] using hj.toAt, by simpa [hji] using hj.lock⟩

include h hidle hp

theorem Inv.copyStart (hpc : s.pc = .copy dir tail .start)
    (ht : s.copyStep p dir tail .start = some t) : t.Inv d₀ st := by
  simp only [copyStep, bind_eq_bind, bind_eq_some_iff, toOption_eq_some,
    Prod.exists, pure_def, some.injEq] at ht
  obtain ⟨i, c, hget, rfl⟩ := ht
  have hI := h.pcInv hp hpc
  have hinv := h.cache.bget hidle hget
  have hpins := h.pins_copy (n := .first i) hpc (Bcache.quietly_bget hget) rfl
  -- this is where a transaction of `NBUF` blocks would stop
  have hroom : s.lh.length < NBUF := by
    cases dir with
    | toHome => exact InstallInv.room hI
    | toLog =>
      rcases WriteLogInv.room hI with hr | ⟨rfl, -⟩
      · exact hr
      · refine length_lh_lt h.proto.nodup (fun k hk => hpins k hk id)
          (Bcache.bget_fetch hget).toAt fun hmem => ?_
        exact h.log_ne (k := 0) hmem (by decide) rfl
  exact h.pcStep hp hinv (Bcache.quietly_bget hget).disksize h.trace hpins
    (hI.copy_next hroom rfl (Bcache.quietly_bget hget).disk (Bcache.bget_fetch hget))

theorem Inv.copyFirst (hpc : s.pc = .copy dir tail (.first i))
    (ht : s.copyStep p dir tail (.first i) = some t) : t.Inv d₀ st := by
  simp only [copyStep, bind_eq_bind, bind_eq_some_iff, toOption_eq_some,
    Prod.exists, pure_def, some.injEq] at ht
  obtain ⟨j, c, hget, rfl⟩ := ht
  have hI := h.pcInv hp hpc
  have hheld := clean_of_fetch hI.copy_bufs hidle
  refine h.pcStep hp (h.cache.bget hidle hget) (Bcache.quietly_bget hget).disksize h.trace
    (h.pins_copy hpc (Bcache.quietly_bget hget) rfl)
    (hI.copy_next (hI.copy_room (by simp)) rfl (Bcache.quietly_bget hget).disk ⟨?_, ?_⟩)
  · exact (h.cache.keeps_bget hidle.1 hget p).held i _ .clean (by simp) hheld
  · exact Bcache.bget_fetch hget

/-- `memmove` of `write_log` : the log block gets the contents of the home block. -/
theorem Inv.copyBoth_toLog (hpc : s.pc = .copy .toLog tail (.both i j))
    (ht : s.copyStep p .toLog tail (.both i j) = some t) : ∃ st', t.Inv d₀ st' := by
  simp only [copyStep, some.injEq, CopyDir.dst, CopyDir.src, copyBlock_eq] at ht
  subst ht
  have hI := h.pcInv hp hpc
  have hroom := hI.copy_room (by simp)
  have hne := h.copy_ne hI hroom
  obtain ⟨hi, hj⟩ := hI.copy_bufs
  replace hj := clean_of_fetch hj hidle
  obtain ⟨hphase, hlt, -, hcop, -⟩ : s.WriteLogInv st p tail (.both i j) := hI
  have hget : s.lh.getD tail 0 = s.lh[tail] := List.getD_eq_getElem _ _ hlt
  have hblock : (s.cache.buf i).blockno = s.start + tail + 1 := hi.blockno
  refine ⟨_, h.pcStep hp (h.cache.store hi.lock (by simp) _) rfl ?_ ?_ ?_⟩
  · refine (exec_append _ _).2 ⟨st, h.trace, ?_⟩
    simp [exec, arrayStep, hblock]
  · exact h.pins_copy hpc Bcache.quietly_store rfl
  · refine ⟨hphase, hlt, Or.inl hroom, ?_, held_store hi hj hne⟩
    intro k hk hkt
    have hk' : k < s.lh.length := hk
    have hother : s.lh[k] ≠ s.start + tail + 1 := h.log_ne (List.getElem_mem hk') (by omega)
    rw [hblock, held_data h hj]
    by_cases hkt' : k = tail
    · subst hkt'
      rw [update_self, hget]
      exact (update_of_ne hother _ _).symm
    · rw [update_of_ne (by simp only; omega)]
      refine (hcop k hk' ?_).trans (update_of_ne hother _ _).symm
      simp only [CopyPc.movedN] at hkt ⊢
      omega

/-- `memmove` of `install_trans` : the home block has these contents already. -/
theorem Inv.copyBoth_toHome (hpc : s.pc = .copy .toHome tail (.both i j))
    (ht : s.copyStep p .toHome tail (.both i j) = some t) : t.Inv d₀ st := by
  simp only [copyStep, some.injEq, CopyDir.dst, CopyDir.src, copyBlock_eq] at ht
  subst ht
  have hI := h.pcInv hp hpc
  have hne := h.copy_ne hI (hI.copy_room (by simp))
  obtain ⟨hi, hj⟩ := hI.copy_bufs
  replace hj := clean_of_fetch hj hidle
  obtain ⟨hphase, hlt, hroom, hcop, hhead, -⟩ : s.InstallInv st p tail (.both i j) := hI
  have hsame : (s.cache.buf i).data = st (s.cache.buf j).blockno := by
    rw [held_data h hi, hj.blockno, List.getD_eq_getElem _ _ hlt]
    exact hcop tail hlt hlt
  have hinv := h.cache.store hj.lock (by simp) (s.cache.buf i).data
  rw [hsame, update_eq_self, ← hsame] at hinv
  refine h.pcStep hp hinv rfl h.trace (h.pins_copy hpc Bcache.quietly_store rfl) ?_
  exact ⟨hphase, hlt, hroom, hcop, hhead, held_store hj hi hne.symm⟩

omit hidle in
theorem Inv.copyMoved (hpc : s.pc = .copy dir tail (.moved i j))
    (ht : s.copyStep p dir tail (.moved i j) = some t) : t.Inv d₀ st := by
  simp only [copyStep, bind_eq_bind, bind_eq_some_iff, toOption_eq_some,
    pure_def, some.injEq] at ht
  obtain ⟨c, hw, rfl⟩ := ht
  have hI := h.pcInv hp hpc
  have hroom := hI.copy_room (by simp)
  have hne := h.copy_ne hI hroom
  obtain ⟨hdst, hsrc⟩ := hI.copy_bufs
  obtain ⟨hdst', hkeep⟩ := held_bwrite hw hdst
  have hinv := h.cache.bwrite hdst.lock (by simp) hw
  cases dir with
  | toLog =>
    obtain ⟨hphase, hlt, -, hcop, -⟩ : s.WriteLogInv st p tail (.moved i j) := hI
    refine h.pcStep hp hinv (disksize_bwrite hw) h.trace ?_
      ⟨hphase, hlt, Or.inl hroom, hcop, hdst', hkeep _ _ _ hne hsrc⟩
    -- the block written is a log block, so the pins stay
    exact fun k hk _ => pins_bwrite hw hdst.toAt (h.log_ne (List.getElem_mem hk) (by omega))
      (h.pins k hk (by simp [hpc, CommitPc.Installed]))
  | toHome =>
    obtain ⟨hphase, hlt, -, hcop, hhead, -⟩ : s.InstallInv st p tail (.moved i j) := hI
    have hget : s.lh.getD tail 0 = s.lh[tail] := List.getD_eq_getElem _ _ hlt
    have hstart : s.start ≠ s.lh.getD tail 0 := by
      rw [hget]
      exact (h.start_ne (List.getElem_mem hlt)).symm
    refine h.pcStep hp hinv (disksize_bwrite hw) h.trace ?_
      ⟨hphase, hlt, hroom, hcop, ?_, hdst', hkeep _ _ _ hne.symm hsrc⟩
    · intro k hk hin
      simp only [CommitPc.Installed, CopyPc.writtenN] at hin
      have hkt : s.lh[k] ≠ s.lh.getD tail 0 := by
        rw [hget]
        intro he
        have := (h.proto.nodup.getElem_inj_iff).1 he
        omega
      refine pins_bwrite hw hdst.toAt hkt (h.pins k hk ?_)
      simp only [hpc, CommitPc.Installed, CopyPc.writtenN]
      omega
    · rw [show c.disk s.start = s.cache.disk s.start by
        rw [disk_bwrite hw hdst.toAt]
        exact update_of_ne hstart _ _]
      exact hhead

theorem Inv.copyWritten (hpc : s.pc = .copy dir tail (.written i j))
    (ht : s.copyStep p dir tail (.written i j) = some t) : t.Inv d₀ st := by
  simp only [copyStep, bind_eq_bind, bind_eq_some_iff, toOption_eq_some,
    pure_def, some.injEq] at ht
  obtain ⟨c, hr, rfl⟩ := ht
  have hI := h.pcInv hp hpc
  have hroom := hI.copy_room (by simp)
  have hne := h.copy_ne hI hroom
  obtain ⟨hdst, hsrc⟩ := hI.copy_bufs
  have hne' : dir.dst (s.start + tail + 1) (s.lh.getD tail 0) ≠
      dir.src (s.start + tail + 1) (s.lh.getD tail 0) := by
    cases dir with
    | toLog => exact hne.symm
    | toHome => exact hne
  exact h.pcStep hp (h.cache.brelse hidle.1 hsrc.lock (by simp) hr)
    (Bcache.quietly_brelse hr).disksize h.trace (h.pins_copy hpc (Bcache.quietly_brelse hr) rfl)
    (hI.copy_next hroom rfl (Bcache.quietly_brelse hr).disk (held_brelse hr hsrc hdst hne'))

/-- The end of a round. -/
theorem Inv.copyReleased (hpc : s.pc = .copy dir tail (.released i j))
    (ht : s.copyStep p dir tail (.released i j) = some t) : t.Inv d₀ st := by
  simp only [copyStep, bind_eq_bind, bind_eq_some_iff, toOption_eq_some,
    pure_def, some.injEq] at ht
  obtain ⟨c, hr, rfl⟩ := ht
  have hI := h.pcInv hp hpc
  have hroom := hI.copy_room (by simp)
  have hdst : s.cache.Held p (dir.dst i j) _ .clean := hI.copy_bufs
  have hq := Bcache.quietly_brelse hr
  have hpins := h.pins_copy hpc hq rfl
  refine h.pcStep hp (h.cache.brelse hidle.1 hdst.lock (by simp) hr) hq.disksize h.trace ?_ ?_
  · intro k hk hin
    refine hpins k hk ?_
    cases dir with
    | toLog => exact id
    | toHome =>
      split_ifs at hin with hlt
      · simpa [CommitPc.Installed, CopyPc.writtenN] using hin
      · simp [CommitPc.Installed] at hin
  · cases dir with
    | toLog =>
      obtain ⟨hphase, hlt, -, hcop, -⟩ : s.WriteLogInv st p tail (.released i j) := hI
      simp only [CopyPc.movedN] at hcop
      split_ifs with hnext
      · exact ⟨hphase, hnext, Or.inl hroom, hcop, trivial⟩
      · refine ⟨hphase, by simp only [lh] at hlt ⊢; omega, hroom, ?_, trivial, by simp, by simp⟩
        exact fun k hk hkn => hcop k hk (by simp only [lh] at hnext hk ⊢; omega)
    | toHome =>
      obtain ⟨hphase, hlt, -, hcop, hhead, -⟩ : s.InstallInv st p tail (.released i j) := hI
      split_ifs with hnext
      · exact ⟨hphase, hnext, hroom, hcop, hq.disk.symm ▸ hhead, trivial⟩
      · exact hphase

end Copy

/-! ### `write_head` -/

section Head

variable {erase : Bool} {c' : Bcache P}
variable (h : s.Inv d₀ st) (hidle : s.cache.Idle p) (hp : (s.proto.phase p).committer = 1)

theorem PcInv.head_bufs {m : HeadPc} (h : s.PcInv st p (.head erase m)) :
    HeadInv s.cache p s.start m := by
  cases erase with
  | false => exact WriteHeadInv.bufs h
  | true => exact h.2

/-- A block number of the transaction fits the header's `int`. -/
theorem Inv.lt_of_mem (h : s.Inv d₀ st) (hin : ∀ k, ¬s.pc.Installed k) (hb : b ∈ s.lh) :
    b < 2 ^ 32 := by
  obtain ⟨k, hk, rfl⟩ := List.getElem_of_mem hb
  obtain ⟨i, hat, hd⟩ := h.pins k hk (hin k)
  have hlt := ((h.cache.good i).coherent ((h.cache.good i).dirty hd)).2.1
  rw [hat.blockno] at hlt
  have := h.int
  omega

theorem Inv.pins_head (h : s.Inv d₀ st) {m : HeadPc} (hpc : s.pc = .head erase m)
    (hq : s.cache.Quietly c') (k : ℕ) (hk : k < s.lh.length) : c'.Pins s.lh[k] :=
  hq.pins _ (h.pins k hk (by simp [hpc, CommitPc.Installed]))

include h hidle hp

theorem Inv.headStart (hpc : s.pc = .head erase .start) (ht : s.headStep p erase .start = some t) :
    t.Inv d₀ st := by
  simp only [headStep, bind_eq_bind, bind_eq_some_iff, toOption_eq_some,
    Prod.exists, pure_def, some.injEq] at ht
  obtain ⟨i, c, hget, rfl⟩ := ht
  have hI := h.pcInv hp hpc
  have hfetch := Bcache.bget_fetch hget
  refine h.pcStep hp (h.cache.bget hidle hget) (Bcache.quietly_bget hget).disksize h.trace
    (fun k hk _ => h.pins_head hpc (Bcache.quietly_bget hget) k hk) ?_
  cases erase with
  | false =>
    obtain ⟨hphase, hpos, hroom, hcop, -, -, -⟩ : s.WriteHeadInv st p .start := hI
    exact ⟨hphase, hpos, hroom, hcop, hfetch, by simp, by simp⟩
  | true => exact ⟨hI.1, hfetch⟩

/-- The stores of `write_head`. -/
theorem Inv.headGot (hpc : s.pc = .head erase (.got i))
    (ht : s.headStep p erase (.got i) = some t) : ∃ st', t.Inv d₀ st' := by
  simp only [headStep, some.injEq] at ht
  subst ht
  have hI := h.pcInv hp hpc
  have hi := clean_of_fetch hI.head_bufs hidle
  have hblock : (s.cache.buf i).blockno = s.start := hi.blockno
  have hinv := h.cache.store hi.lock (by simp) (putHead (s.cache.buf i).data s.lh)
  have hheld : (s.cache.store p i (putHead (s.cache.buf i).data s.lh)).Held p i s.start .changed :=
    ⟨Bcache.at_store.2 hi.toAt, by simp [Bcache.store]⟩
  rw [hblock] at hinv
  refine ⟨_, h.pcStep hp hinv rfl ?_
    (fun k hk _ => h.pins_head hpc Bcache.quietly_store k hk) ?_⟩
  · exact (exec_append _ _).2 ⟨st, h.trace, by simp [exec, arrayStep]⟩
  · cases erase with
    | false =>
      obtain ⟨hphase, hpos, hroom, hcop, -, -, -⟩ : s.WriteHeadInv st p (.got i) := hI
      refine ⟨hphase, hpos, hroom, ?_, hheld, ?_, by simp⟩
      · intro k hk hkn
        have hk' : k < s.lh.length := hk
        have hother : s.lh[k] ≠ s.start := h.start_ne (List.getElem_mem hk')
        rw [update_of_ne (by simp only; omega)]
        exact (hcop k hk' hkn).trans (update_of_ne hother _ _).symm
      · intro _ _
        rw [update_self]
        exact headBlocks_putHead _ hroom.le
          fun b hb => h.lt_of_mem (by simp [hpc, CommitPc.Installed]) hb
    | true => exact ⟨hI.1, hheld⟩

omit hidle in
theorem Inv.headStored (hpc : s.pc = .head erase (.stored i))
    (ht : s.headStep p erase (.stored i) = some t) : t.Inv d₀ st := by
  simp only [headStep, bind_eq_bind, bind_eq_some_iff, toOption_eq_some,
    pure_def, some.injEq] at ht
  obtain ⟨c, hw, rfl⟩ := ht
  have hI := h.pcInv hp hpc
  have hi : s.cache.Held p i s.start .changed := hI.head_bufs
  have hv := (h.cache.good i).returned p .changed hi.lock (by simp)
  have hdata : (s.cache.buf i).data = st s.start := by
    rw [((h.cache.good i).coherent hv).2.2, hi.blockno]
  refine h.pcStep hp (h.cache.bwrite hi.lock (by simp) hw) (disksize_bwrite hw) h.trace ?_ ?_
  · exact fun k hk _ => pins_bwrite hw hi.toAt (h.start_ne (List.getElem_mem hk))
      (h.pins k hk (by simp [hpc, CommitPc.Installed]))
  · cases erase with
    | false =>
      obtain ⟨hphase, hpos, hroom, hcop, -, hst, -⟩ : s.WriteHeadInv st p (.stored i) := hI
      refine ⟨hphase, hpos, hroom, hcop, (held_bwrite hw hi).1, by simp, fun _ _ => ?_⟩
      rw [show c.disk s.start = st s.start by
        rw [disk_bwrite hw hi.toAt, update_self, hdata]]
      exact hst i rfl
    | true => exact ⟨hI.1, (held_bwrite hw hi).1⟩

theorem Inv.headWritten (hpc : s.pc = .head erase (.written i))
    (ht : s.headStep p erase (.written i) = some t) : t.Inv d₀ st := by
  simp only [headStep, bind_eq_bind, bind_eq_some_iff, toOption_eq_some,
    pure_def, some.injEq] at ht
  obtain ⟨c, hr, rfl⟩ := ht
  have hI := h.pcInv hp hpc
  have hi : s.cache.Held p i s.start .clean := hI.head_bufs
  have hq := Bcache.quietly_brelse hr
  refine h.pcStep hp (h.cache.brelse hidle.1 hi.lock (by simp) hr) hq.disksize h.trace ?_ ?_
  · exact fun k hk _ => h.pins_head hpc hq k hk
  · cases erase with
    | false =>
      obtain ⟨hphase, hpos, hroom, hcop, -, -, hhead⟩ : s.WriteHeadInv st p (.written i) := hI
      exact ⟨hphase, hpos, hroom, hcop, hq.disk.symm ▸ hhead i rfl, trivial⟩
    | true => exact hI.1

end Head

/-! ## Every step and every run -/

/-- `log.lh.n = 0` at the end of `commit`. -/
theorem Inv.erase (h : s.Inv d₀ st) {l : LogState P} (hl : s.protoStep (.commit p) = some l)
    (hpc : (s.proto.phase p).committer = 1 → l.phase p = .finish →
      PcInv { s with proto := l, pc := pc } st p pc) :
    Inv d₀ st { s with proto := l, pc := pc } := by
  obtain ⟨hstep, hlive⟩ := protoStep_eq_some.1 hl
  obtain ⟨-, hp, rfl⟩ := LogState.step_cases hstep
  have hproto := h.proto.step hstep
  have hp' : (s.proto.phase p).committer = 1 := by simp [hp, Phase.committer]
  exact
    { h with
      proto := hproto
      live := hlive
      home := fun b hb => absurd hb List.not_mem_nil
      logging := by
        intro q op mine b hq
        by_cases hqp : q = p
        · subst hqp
          simp [LogState.commit] at hq
        · exact h.logging q op mine b (by simpa [LogState.commit, hqp] using hq)
      pins := fun k hk => absurd hk (Nat.not_lt_zero k)
      idle := fun hc => absurd ((h.proto.committing hp').symm.trans hc) (by simp)
      pc := by
        intro q hq
        obtain rfl : q = p :=
          hproto.committer_unique hq (by simp [LogState.commit, Phase.committer])
        exact hpc hp' (by simp [LogState.commit]) }

theorem Inv.commitStep (h : s.Inv d₀ st) (hidle : s.cache.Idle p)
    (hp : (s.proto.phase p).committer = 1) (ht : s.commitStep p = some t) :
    ∃ st', t.Inv d₀ st' := by
  unfold BlockStore.commitStep at ht
  split at ht
  · cases ht
  · rename_i hpc
    have hI := h.pc p hp
    rw [hpc] at hI
    split_ifs at ht with hpos
    · obtain rfl := some.inj ht
      refine ⟨st, h.pcStep hp h.cache rfl h.trace ?_ ?_⟩
      · exact fun k hk _ => h.pins k hk (by simp [hpc, CommitPc.Installed])
      · exact ⟨hI, hpos, Or.inr ⟨rfl, rfl⟩, fun k _ hk => absurd hk (Nat.not_lt_zero k), trivial⟩
    · simp only [bind_eq_bind, bind_eq_some_iff, pure_def,
        some.injEq] at ht
      obtain ⟨l, hl, rfl⟩ := ht
      exact ⟨st, h.erase hl fun _ hf => hf⟩
  · rename_i dir tail m hpc
    cases m with
    | start => exact ⟨st, h.copyStart hidle hp hpc ht⟩
    | first i => exact ⟨st, h.copyFirst hidle hp hpc ht⟩
    | both i j =>
      cases dir with
      | toLog => exact h.copyBoth_toLog hidle hp hpc ht
      | toHome => exact ⟨st, h.copyBoth_toHome hidle hp hpc ht⟩
    | moved i j => exact ⟨st, h.copyMoved hp hpc ht⟩
    | written i j => exact ⟨st, h.copyWritten hidle hp hpc ht⟩
    | released i j => exact ⟨st, h.copyReleased hidle hp hpc ht⟩
  · simp only [bind_eq_bind, bind_eq_some_iff, pure_def,
      some.injEq] at ht
    obtain ⟨l, hl, rfl⟩ := ht
    exact ⟨st, h.erase hl fun _ hf => ⟨hf, trivial⟩⟩
  · rename_i erase m hpc
    cases m with
    | start => exact ⟨st, h.headStart hidle hp hpc ht⟩
    | got i => exact h.headGot hidle hp hpc ht
    | stored i => exact ⟨st, h.headStored hp hpc ht⟩
    | written i => exact ⟨st, h.headWritten hidle hp hpc ht⟩

/-- Every step keeps the invariant, with the array it leaves. -/
theorem Inv.step (h : s.Inv d₀ st) (ht : s.step a = some t) :
    ∃ st', t.Inv d₀ st' := by
  cases a with
  | bread p dev b => exact ⟨st, h.bread ht⟩
  | acquire p => exact ⟨st, h.acquire ht⟩
  | fill p i => exact ⟨st, h.fill ht⟩
  | store p i v => exact h.store ht
  | logWrite p i => exact ⟨st, h.logWrite ht⟩
  | logAppend p i => exact ⟨st, h.logAppend ht⟩
  | brelse p i => exact ⟨st, h.brelse ht⟩
  | brelseEnd p => exact ⟨st, h.brelseEnd ht⟩
  | beginOp p => exact ⟨st, h.beginOp ht⟩
  | endOp p => exact ⟨st, h.endOp ht⟩
  | endCommit p => exact ⟨st, h.endCommit ht⟩
  | kill p => exact ⟨st, h.kill ht⟩
  | commit p =>
    simp only [BlockStore.step, ite_none_right_eq_some] at ht
    exact h.commitStep ht.1.1 ht.1.2 ht.2

/-! ## What a step does to the cache -/

/-- What process `p` does to the cache in a step, apart from `bwrite`. -/
inductive Does (p : P) (c : Bcache P) : Bcache P → Prop
  | nothing : Does p c c
  | bget {dev b : ℕ} {i : BufId} {c' : Bcache P} (hp : c.Idle p)
      (h : c.bget p dev b = .ok (i, c')) : Does p c c'
  | acquire {i : BufId} (hp : c.call p = .waiting i) (hl : (c.buf i).lock = none) :
      Does p c (c.acquire p i)
  | fill {i : BufId} {c' : Bcache P} (hl : (c.buf i).lock = some (p, .filling))
      (h : c.fill p i = .ok c') : Does p c c'
  | store {i : BufId} (v : Block) (hp : c.Idle p) (hh : c.Holding p i) : Does p c (c.store p i v)
  | pin {i : BufId} (hp : c.Idle p) (hh : c.Holding p i) : Does p c (c.pin p i)
  | brelse {i : BufId} {c' : Bcache P} (hp : c.Idle p) (h : c.brelse p i = .ok c') : Does p c c'
  | brelseEnd {i : BufId} (hp : c.call p = .releasing i) : Does p c (c.brelseEnd p i)

/-- The calls of `bwrite` in `commit`. -/
inductive Writes (s : BlockStore P) (p : P) (c' : Bcache P) : Prop
  | copy {dir : CopyDir} {tail : ℕ} {i j : BufId} (hpc : s.pc = .copy dir tail (.moved i j))
      (h : s.cache.bwrite p (dir.dst i j) = .ok c')
  | head {erase : Bool} {i : BufId} (hpc : s.pc = .head erase (.stored i))
      (h : s.cache.bwrite p i = .ok c')

theorem Inv.commitStep_does (h : s.Inv d₀ st) (hidle : s.cache.Idle p)
    (hp : (s.proto.phase p).committer = 1) (ht : s.commitStep p = some t) :
    Does p s.cache t.cache ∨ s.Writes p t.cache := by
  have hI := h.pc p hp
  unfold BlockStore.commitStep at ht
  split at ht
  · cases ht
  · split_ifs at ht
    · obtain rfl := some.inj ht
      exact Or.inl .nothing
    · simp only [bind_eq_bind, bind_eq_some_iff, pure_def,
        some.injEq] at ht
      obtain ⟨l, -, rfl⟩ := ht
      exact Or.inl .nothing
  · rename_i dir tail m hpc
    rw [hpc] at hI
    cases m with
    | both i j =>
      obtain rfl := some.inj ht
      obtain ⟨hi, hj⟩ := hI.copy_bufs
      have hj := clean_of_fetch hj hidle
      refine Or.inl (.store _ hidle ?_)
      cases dir with
      | toLog => exact holding_of_held hi
      | toHome => exact holding_of_held hj
    | _ =>
      simp only [copyStep, bind_eq_bind, bind_eq_some_iff, toOption_eq_some,
        Prod.exists, pure_def, some.injEq] at ht
      first
      | obtain ⟨_, c, hget, rfl⟩ := ht
        exact Or.inl (.bget hidle hget)
      | obtain ⟨c, hr, rfl⟩ := ht
        first
        | exact Or.inl (.brelse hidle hr)
        | exact Or.inr (.copy hpc hr)
  · simp only [bind_eq_bind, bind_eq_some_iff, pure_def,
      some.injEq] at ht
    obtain ⟨l, -, rfl⟩ := ht
    exact Or.inl .nothing
  · rename_i erase m hpc
    rw [hpc] at hI
    cases m with
    | got i =>
      obtain rfl := some.inj ht
      exact Or.inl (.store _ hidle (holding_of_held (clean_of_fetch hI.head_bufs hidle)))
    | _ =>
      simp only [headStep, bind_eq_bind, bind_eq_some_iff, toOption_eq_some,
        Prod.exists, pure_def, some.injEq] at ht
      first
      | obtain ⟨_, c, hget, rfl⟩ := ht
        exact Or.inl (.bget hidle hget)
      | obtain ⟨c, hr, rfl⟩ := ht
        first
        | exact Or.inl (.brelse hidle hr)
        | exact Or.inr (.head hpc hr)

/-- Only `commit` calls `bwrite`. -/
theorem Inv.step_does (h : s.Inv d₀ st) (ht : s.step a = some t) :
    Does a.proc s.cache t.cache ∨ s.cache.Idle a.proc ∧
      (s.proto.phase a.proc).committer = 1 ∧ s.Writes a.proc t.cache := by
  cases a with
  | commit p =>
    simp only [BlockStore.step, ite_none_right_eq_some] at ht
    obtain ⟨⟨hidle, hp⟩, ht⟩ := ht
    exact (h.commitStep_does hidle hp ht).imp_right fun hw => ⟨hidle, hp, hw⟩
  | acquire p =>
    simp only [BlockStore.step] at ht
    split at ht
    · rename_i hp
      split_ifs at ht with hl
      obtain rfl := some.inj ht
      exact Or.inl (.acquire hp hl)
    · cases ht
  | brelseEnd p =>
    simp only [BlockStore.step] at ht
    split at ht
    · rename_i hp
      obtain rfl := some.inj ht
      exact Or.inl (.brelseEnd hp)
    · cases ht
  | logAppend p i =>
    simp only [BlockStore.step] at ht
    split at ht
    · simp only [ite_none_right_eq_some, bind_eq_bind, bind_eq_some_iff,
        pure_def, some.injEq] at ht
      obtain ⟨⟨hidle, hh, -⟩, l, -, rfl⟩ := ht
      exact Or.inl (.pin hidle hh)
    · cases ht
  | endCommit p =>
    simp only [BlockStore.step] at ht
    split at ht
    · simp only [ite_none_right_eq_some, bind_eq_bind, bind_eq_some_iff,
        pure_def, some.injEq] at ht
      obtain ⟨-, l, -, rfl⟩ := ht
      exact Or.inl .nothing
    · cases ht
  | store p i v =>
    simp only [BlockStore.step, ite_none_right_eq_some, some.injEq] at ht
    obtain ⟨⟨hu, -, hh, -⟩, rfl⟩ := ht
    exact Or.inl (.store v hu.1 hh)
  | kill p =>
    simp only [BlockStore.step, bind_eq_bind, bind_eq_some_iff, pure_def,
      some.injEq] at ht
    obtain ⟨l, -, rfl⟩ := ht
    exact Or.inl .nothing
  | _ =>
    simp only [BlockStore.step, ite_none_right_eq_some, bind_eq_bind,
      bind_eq_some_iff, toOption_eq_some, Prod.exists, pure_def,
      some.injEq] at ht
    first
    | obtain ⟨hu, _, c, hget, rfl⟩ := ht
      exact Or.inl (.bget hu.1 hget)
    | obtain ⟨hl, c, hc, rfl⟩ := ht
      first
      | exact Or.inl (.fill hl hc)
      | exact Or.inl (.brelse hl.1.1 hc)
      | exact Or.inl .nothing

theorem Does.quietly {c' : Bcache P} (h : Does p c c') (hc : c.Inv st) : c.Quietly c' := by
  cases h with
  | nothing => exact ⟨fun _ hb => hb, rfl, rfl⟩
  | bget hp h => exact Bcache.quietly_bget h
  | acquire hp hl => exact Bcache.quietly_acquire
  | fill hl h => exact hc.quietly_fill hl h
  | store v hp hh => exact Bcache.quietly_store
  | pin hp hh => exact Bcache.quietly_pin
  | brelse hp h => exact Bcache.quietly_brelse h
  | brelseEnd hp => exact Bcache.quietly_brelseEnd

/-- A process asks for itself, and only in `bget`. -/
theorem Does.asked {c' : Bcache P} {q : P} (h : Does q c c') (hc : c.Inv st) (hqp : q ≠ p) :
    c'.asked p = c.asked p := by
  cases h with
  | bget hp h =>
    rcases Bcache.bget_cases h with ⟨-, rfl⟩ | ⟨-, -, -, rfl⟩ <;>
      exact update_of_ne hqp.symm _ _
  | fill hl h =>
    obtain ⟨-, -, rfl⟩ := hc.fill_eq hl h
    rfl
  | brelse hp h =>
    obtain ⟨-, rfl⟩ := Bcache.brelse_cases h
    rfl
  | _ => rfl

theorem Writes.asked {c' : Bcache P} {q : P} (h : s.Writes q c') : c'.asked = s.cache.asked := by
  cases h with
  | copy _ h => rw [Bcache.bwrite_cases h]
  | head _ h => rw [Bcache.bwrite_cases h]

/-- A home block is written by `install_trans` only, and the header on the disk records it. -/
theorem Inv.home_recorded (h : s.Inv d₀ st) (ht : s.step a = some t) (hb : ¬s.area.Contains b)
    (hne : t.cache.disk b ≠ s.cache.disk b) :
    b ∈ headBlocks (s.cache.disk s.start) := by
  -- a `bwrite` changes its own block only
  have hwrite : ∀ {i : BufId} {b' : ℕ} {u : Use}, s.cache.Held a.proc i b' u →
      s.cache.bwrite a.proc i = .ok t.cache → b = b' := by
    intro i b' u hi hw
    by_contra hbb
    rw [disk_bwrite hw hi.toAt, update_of_ne hbb] at hne
    exact hne rfl
  rcases h.step_does ht with hdoes | ⟨-, hp, hw⟩
  · exact absurd (congrFun (hdoes.quietly h.cache).disk b) hne
  · have hI := h.pc _ hp
    cases hw with
    | copy hpc hw =>
      rename_i dir tail i j
      rw [hpc] at hI
      have hlt := hI.copy_lt
      have hroom := hI.copy_room (by simp)
      obtain rfl := hwrite hI.copy_bufs.1 hw
      cases dir with
      | toLog => exact absurd (h.contains_log (by omega)) hb
      | toHome =>
        rw [InstallInv.head hI]
        simp only [CopyDir.dst]
        rw [List.getD_eq_getElem _ _ hlt]
        exact List.getElem_mem hlt
    | head hpc hw =>
      rw [hpc] at hI
      obtain rfl := hwrite hI.head_bufs hw
      exact absurd h.contains_start hb

/-- In `bread` a process does nothing but wait for its buffer. Others may kill it. -/
def Awaits (p : P) (a : BlockAction P) : Prop := a.proc = p → a = .acquire p ∨ a = .kill p

/-- What a process asked for is the same until it calls `bget` again. -/
theorem Inv.asked_step (h : s.Inv d₀ st) (ha : Awaits p a) (ht : s.step a = some t) :
    t.cache.asked p = s.cache.asked p := by
  by_cases hap : a.proc = p
  · rcases ha hap with rfl | rfl
    · simp only [BlockStore.step] at ht
      split at ht
      · split_ifs at ht
        obtain rfl := some.inj ht
        rfl
      · cases ht
    · simp only [BlockStore.step, bind_eq_bind, bind_eq_some_iff, pure_def,
        some.injEq] at ht
      obtain ⟨l, -, rfl⟩ := ht
      rfl
  · rcases h.step_does ht with hdoes | ⟨-, -, hw⟩
    · exact hdoes.asked h.cache hap
    · exact congrFun hw.asked p

theorem asked_bread {dev : ℕ} (ht : s.step (.bread p dev b) = some t) :
    t.cache.asked p = (dev, b) := by
  simp only [step, ite_none_right_eq_some, bind_eq_bind, bind_eq_some_iff,
    toOption_eq_some, Prod.exists, pure_def, some.injEq] at ht
  obtain ⟨-, i, c, hget, rfl⟩ := ht
  rcases Bcache.bget_cases hget with ⟨-, rfl⟩ | ⟨-, -, -, rfl⟩ <;> exact Function.update_self ..

/-- At its end `bread` has a buffer of the block that it was asked for, with the contents that
the array has. -/
theorem Inv.fill_returns (h : s.Inv d₀ st) (ht : s.step (.fill p i) = some t) :
    ((t.cache.buf i).dev, (t.cache.buf i).blockno) = s.cache.asked p ∧
      (t.cache.buf i).At (t.cache.buf i).blockno ∧
      (t.cache.buf i).data = st (t.cache.buf i).blockno := by
  simp only [BlockStore.step, ite_none_right_eq_some, bind_eq_bind,
    bind_eq_some_iff, toOption_eq_some, pure_def, some.injEq] at ht
  obtain ⟨hl, c, hc, rfl⟩ := ht
  obtain ⟨hat, -, rfl⟩ := h.cache.fill_eq hl hc
  simp only [Bcache.setBuf_buf_self]
  exact ⟨h.cache.asks p i (Or.inr hl), ⟨hat.dev, rfl⟩, trivial⟩

/-- `bread`, from its call to its return, with what others do in between. -/
theorem Inv.bread_returns (h : s.Inv d₀ st) {dev : ℕ} {mid : List (BlockAction P)}
    (hmid : ∀ a ∈ mid, Awaits p a)
    (ht : exec BlockStore.step s (.bread p dev b :: (mid ++ [.fill p i])) = some t) :
    dev = ROOTDEV ∧ (t.cache.buf i).At b ∧
      ∃ st', exec arrayStep d₀ t.trace = some st' ∧ (t.cache.buf i).data = st' b := by
  obtain ⟨s₁, hbread, ht⟩ := exec_cons_eq_some.1 ht
  obtain ⟨s₂, hrun, ht⟩ := (exec_append _ _).1 ht
  obtain ⟨t', hfill, ht⟩ := exec_cons_eq_some.1 ht
  obtain rfl := some.inj ht
  obtain ⟨⟨st₂, h₂⟩, hasked⟩ := exec_invariant
    (fun u => (∃ st', u.Inv d₀ st') ∧ u.cache.asked p = (dev, b))
    (fun u a v ⟨⟨_, hu⟩, hask⟩ ha hv => ⟨hu.step hv, (hu.asked_step ha hv).trans hask⟩)
    ⟨⟨_, h.bread hbread⟩, asked_bread hbread⟩ (along_of_forall hmid) hrun
  obtain ⟨hid, hat, hdata⟩ := h₂.fill_returns hfill
  obtain ⟨hdev, hb⟩ := Prod.mk.inj (hid.trans hasked)
  rw [hb] at hat hdata
  exact ⟨hdev.symm.trans hat.dev, hat, st₂, (h₂.fill hfill).trace, hdata⟩

end Invariant

/-! ## Refinement -/

/-- Nobody holds or waits for a buffer, nothing is dirty, valid buffers agree with the
disk, and no operation has started : the state after boot. -/
structure Quiescent (s : BlockStore P) : Prop where
  proto : s.proto = LogState.init P s.proto.log.size
  size : LOGSIZE ≤ s.proto.log.size
  int : s.cache.disksize < 2 ^ 31
  calls : ∀ p, s.cache.call p = .idle
  unlocked : ∀ i, (s.cache.buf i).lock = none ∧ (s.cache.buf i).refcnt = 0
  flushed : ∀ i, (s.cache.buf i).dirty = false
  unique : ∀ i j b, (s.cache.buf i).At b → (s.cache.buf j).At b → i = j
  valid : ∀ i, (s.cache.buf i).valid = true → (s.cache.buf i).dev = ROOTDEV ∧
    (s.cache.buf i).blockno < s.cache.disksize ∧
    (s.cache.buf i).data = s.cache.disk (s.cache.buf i).blockno
  pc : s.pc = .idle
  trace : s.trace = []

variable [Fintype P]

theorem Quiescent.inv {s : BlockStore P} (h : s.Quiescent) : s.Inv s.cache.disk s.cache.disk :=
  { h with
    proto := h.proto ▸ LogState.inv_init _
    live := by rw [h.proto]; rfl
    cache :=
      { unique := h.unique
        refs := fun i => by simp [h.calls, Call.refs, h.unlocked i]
        good := fun i => ⟨fun p u hl => by simp [(h.unlocked i).1] at hl, h.valid i,
          fun hd => by simp [h.flushed i] at hd⟩
        covered := fun b => Or.inl rfl
        asks := fun p i hr => by simp [Bcache.Reading, h.calls, (h.unlocked i).1] at hr }
    trace := by rw [h.trace]; rfl
    home := fun b hb => by
      have hlh : s.lh = [] := by rw [lh, h.proto]; rfl
      simp [hlh] at hb
    logging := fun p op mine b hp => by
      rw [h.proto] at hp
      cases hp
    pins := fun k hk => by
      have hlh : s.lh = [] := by rw [lh, h.proto]; rfl
      simp [hlh] at hk
    idle := fun _ => h.pc
    pc := fun p hp => by
      rw [h.proto] at hp
      cases hp }

theorem Inv.of_exec {s₀ s : BlockStore P} {as : List (BlockAction P)} (h₀ : s₀.Quiescent)
    (h : exec BlockStore.step s₀ as = some s) : ∃ st, s.Inv s₀.cache.disk st :=
  exec_invariant_all (fun s => ∃ st, s.Inv s₀.cache.disk st)
    (fun _ _ _ ⟨_, hs⟩ ht => hs.step ht) ⟨_, h₀.inv⟩ h

/-- The cache and the log refine a plain array of blocks. In every run what `bread` returned
and what holders stored is a run of the array that starts with the disk's contents, and a
`bread`, whatever others do until it returns, returns a buffer of the block that it was asked for
with the contents that the array has. A block
of the transaction is cached with `B_VALID` and `B_DIRTY` until it is installed, no block is
in it twice, and the next step writes no home block that the header on the disk does not
record. -/
theorem cache_refines_array (s₀ s : BlockStore P) (as : List (BlockAction P))
    (h₀ : s₀.Quiescent) (h : exec step s₀ as = some s) :
    (∃ st, exec arrayStep s₀.cache.disk s.trace = some st) ∧
      (∀ p dev b i mid t, (∀ a ∈ mid, Awaits p a) →
        exec step s (.bread p dev b :: (mid ++ [.fill p i])) = some t →
        dev = ROOTDEV ∧ (t.cache.buf i).At b ∧
          ∃ st, exec arrayStep s₀.cache.disk t.trace = some st ∧ (t.cache.buf i).data = st b) ∧
      (∀ k (hk : k < s.lh.length), ¬s.pc.Installed k →
        ∃ i, (s.cache.buf i).At s.lh[k] ∧ (s.cache.buf i).valid = true ∧
          (s.cache.buf i).dirty = true) ∧
      s.lh.Nodup ∧
      ∀ a t, step s a = some t → ∀ b, ¬s.area.Contains b →
        t.cache.disk b ≠ s.cache.disk b → b ∈ headBlocks (s.cache.disk s.start) := by
  obtain ⟨st, hI⟩ := Inv.of_exec h₀ h
  refine ⟨⟨st, hI.trace⟩, fun p dev b i mid t hmid => hI.bread_returns hmid, ?_,
    hI.proto.nodup, ?_⟩
  · intro k hk hin
    obtain ⟨i, hat, hd⟩ := hI.pins k hk hin
    exact ⟨i, hat, (hI.cache.good i).dirty hd, hd⟩
  · exact fun a t ht b hb hne => hI.home_recorded ht hb hne

omit [Fintype P] in
/-- The machine after `binit` over a disk without a transaction, with the log where and as
large as `mkfs` makes it. -/
def boot (P : Type) (disk : Disk) (disksize : ℕ) : BlockStore P where
  proto := LogState.init P LOGSIZE
  cache :=
    { buf := fun _ => ⟨false, false, 0, 0, none, 0, Bytes.zero BSIZE⟩
      lru := ⟨(List.finRange NBUF).reverse, by simp⟩
      disk := disk
      disksize := disksize
      call := fun _ => .idle
      asked := fun _ => (0, 0) }
  start := 2
  pc := .idle
  trace := []

omit [Fintype P] [DecidableEq P] in
theorem quiescent_boot {disk : Disk} {disksize : ℕ} (h : disksize < 2 ^ 31) :
    (boot P disk disksize).Quiescent where
  proto := rfl
  size := le_rfl
  int := h
  calls _ := rfl
  unlocked _ := ⟨rfl, rfl⟩
  flushed _ := rfl
  unique _ _ _ hi := absurd hi.dev Nat.zero_ne_one
  valid _ hv := by simp [boot] at hv
  pc := rfl
  trace := rfl

/-- An operation that stores in block 100, and its commit. -/
def oneBlockRun : List (BlockAction (Fin 1)) :=
  [.beginOp 0, .bread 0 1 100, .acquire 0, .fill 0 0, .store 0 0 (fun _ => 7),
    .logWrite 0 0, .logAppend 0 0, .brelse 0 0, .brelseEnd 0, .endOp 0, .commit 0,
    .commit 0, .acquire 0, .fill 0 1, .commit 0, .acquire 0, .fill 0 0, .commit 0, .commit 0,
    .commit 0, .brelseEnd 0, .commit 0, .brelseEnd 0,
    .commit 0, .acquire 0, .fill 0 2, .commit 0, .commit 0, .commit 0, .brelseEnd 0,
    .commit 0, .acquire 0, .fill 0 1, .commit 0, .acquire 0, .fill 0 0, .commit 0, .commit 0,
    .commit 0, .brelseEnd 0, .commit 0, .brelseEnd 0, .commit 0,
    .commit 0, .acquire 0, .fill 0 2, .commit 0, .commit 0, .commit 0, .brelseEnd 0,
    .endCommit 0]

/-- The run is one of the machine, and a `bread` of the block after it returns what was stored. -/
theorem cache_refines_array_one_block : ∃ s t,
    exec step (boot (Fin 1) (fun _ => Bytes.zero BSIZE) 1000) oneBlockRun = some s ∧
      exec step s [.bread 0 1 100, .acquire 0, .fill 0 0] = some t ∧
      (t.cache.buf 0).At 100 ∧ (t.cache.buf 0).data ⟨511, by decide⟩ = 7 ∧
      ∃ st, exec arrayStep (fun _ => Bytes.zero BSIZE) t.trace = some st ∧
        (t.cache.buf 0).data = st 100 := by
  have hrun : ((exec step (boot (Fin 1) (fun _ => Bytes.zero BSIZE) 1000) oneBlockRun).bind
      fun s => (exec step s [.bread 0 1 100, .acquire 0, .fill 0 0]).map
        fun t => (t.cache.buf 0).data ⟨511, by decide⟩) = some 7 := by
    decide +kernel
  obtain ⟨s, hs, hread⟩ := bind_eq_some_iff.1 hrun
  obtain ⟨t, ht, hbyte⟩ := map_eq_some_iff.1 hread
  obtain ⟨-, hbread, -⟩ := cache_refines_array _ s oneBlockRun (quiescent_boot (by decide)) hs
  obtain ⟨-, hat, hst⟩ := hbread 0 1 100 0 [.acquire 0] t (by simp [Awaits]) ht
  exact ⟨s, t, hs, ht, hat, hbyte, hst⟩

end BlockStore

end Xv6
