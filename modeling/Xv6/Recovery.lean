import Xv6.Param
import Xv6.DiskProg

/-!
# Crash recovery of the redo log

The disk side of `log.c`. The functions `writeLog`, `writeHead`,
`installTrans`, `commit` and `recoverFromLog` are disk programs, so a crash
can fall between any two of their disk writes. The buffer cache enters as the
contents of the blocks pinned by `B_DIRTY` (`Pinned`) : `bread` of a pinned
block returns the cached contents, of any other block the disk's. After a
crash nothing is pinned.

`crash_atomic` : crash `commit` after any number of writes, crash recovery
any number of times, then let it complete. Every block outside the log area
has its old contents, or every logged block its new contents and every other
block its old ones. The new contents appear exactly when the header write of
the commit reached the disk.

The proof follows the header. Until it is written the disk is `Quiet` with the
old home blocks. From then on it is `Logged` : header and log blocks describe
the transaction, and a home block that is not logged is old. Installing any
number of blocks keeps `Logged`, and the last header write makes the disk
`Quiet` with the new home blocks.
-/

namespace Xv6

open List Function

/-- The log area : `log.start` and `log.size`. -/
structure LogArea where
  start : ℕ
  size : ℕ

/-- The blocks of the log area. -/
def LogArea.Contains (lg : LogArea) (b : ℕ) : Prop :=
  lg.start ≤ b ∧ b < lg.start + lg.size

instance (lg : LogArea) (b : ℕ) : Decidable (lg.Contains b) :=
  inferInstanceAs (Decidable (_ ∧ _))

theorem LogArea.ne_of_contains {lg : LogArea} {a b : ℕ} (ha : lg.Contains a)
    (hb : ¬lg.Contains b) : b ≠ a :=
  fun h => hb (h ▸ ha)

/-- Programs over the disk of blocks. -/
abbrev DiskM := DiskProg ℕ Block

/-- The cached contents of the blocks pinned by `B_DIRTY`. -/
abbrev Pinned := ℕ → Option Block

/-- `bread` : the contents of a block, from the cache or from the disk. -/
def bread (cache : Pinned) (b : ℕ) : DiskM Block :=
  match cache b with
  | some data => pure data
  | none => DiskProg.readCell b

/-- `bwrite` : write a buffer to disk. -/
def bwrite (b : ℕ) (data : Block) : DiskM Unit := DiskProg.writeCell b data

/-! ## The header block -/

/-- `lh->n` of a header block. A negative `int` bounds no loop, as 0 does. -/
def headN (hb : Block) : ℕ := if hb.word 0 < 2 ^ 31 then hb.word 0 else 0

/-- `lh->block[0..n)` of a header block. -/
def headBlocks (hb : Block) : List ℕ := (List.range (headN hb)).map fun i => hb.word (i + 1)

/-- The loop of `write_head` : `hb->block[i] = log.lh.block[i]`, from index `i`. -/
def putBlocks (hb : Block) (i : ℕ) : List ℕ → Block
  | [] => hb
  | b :: bs => putBlocks (hb.setWord (i + 1) b) (i + 1) bs

/-- The header buffer after the stores of `write_head`. -/
def putHead (hb : Block) (lh : List ℕ) : Block := putBlocks (hb.setWord 0 lh.length) 0 lh

theorem word_putBlocks_of_le : ∀ (bs : List ℕ) (hb : Block) (i j : ℕ), j ≤ i →
    (putBlocks hb i bs).word j = hb.word j
  | [], _, _, _, _ => rfl
  | b :: bs, hb, i, j, h => by
    rw [putBlocks, word_putBlocks_of_le bs _ _ _ (by omega),
      Bytes.word_setWord_of_ne _ _ (by omega)]

theorem word_putBlocks : ∀ (bs : List ℕ) (hb : Block) (i k : ℕ) (hk : k < bs.length),
    i + bs.length < 128 → (∀ b ∈ bs, b < 2 ^ 32) → (putBlocks hb i bs).word (i + 1 + k) = bs[k]
  | b :: bs, hb, i, 0, _, hlen, hlt => by
    have hi : 4 * (i + 1) + 4 ≤ BSIZE := by
      simp only [length_cons, BSIZE] at hlen ⊢
      omega
    rw [putBlocks, word_putBlocks_of_le _ _ _ _ (by omega), add_zero,
      Bytes.word_setWord_self _ hi (hlt b (by simp)), getElem_cons_zero]
  | b :: bs, hb, i, k + 1, hk, hlen, hlt => by
    have ih := word_putBlocks bs (hb.setWord (i + 1) b) (i + 1) k (by simpa using hk)
      (by simp only [length_cons] at hlen; omega) fun c hc => hlt c (by simp [hc])
    rw [putBlocks, show i + 1 + (k + 1) = i + 1 + 1 + k by omega, ih, getElem_cons_succ]

theorem word_putHead_zero (hb : Block) {lh : List ℕ} (hlen : lh.length < 2 ^ 32) :
    (putHead hb lh).word 0 = lh.length := by
  rw [putHead, word_putBlocks_of_le _ _ _ _ le_rfl, Bytes.word_setWord_self _ (by decide) hlen]

/-- Reading the header back gives the blocks that were stored. -/
theorem headBlocks_putHead (hb : Block) {lh : List ℕ} (hlen : lh.length ≤ LOGSIZE)
    (hlt : ∀ b ∈ lh, b < 2 ^ 32) : headBlocks (putHead hb lh) = lh := by
  have hlen' : lh.length ≤ 30 := hlen
  have hn : headN (putHead hb lh) = lh.length := by
    rw [headN, word_putHead_zero hb (by omega), if_pos (by omega)]
  refine ext_getElem (by simp [headBlocks, hn]) fun i hi hi' => ?_
  have h := word_putBlocks lh (hb.setWord 0 lh.length) 0 i hi' (by omega) hlt
  simp only [headBlocks, getElem_map, getElem_range]
  rwa [show 0 + 1 + i = i + 1 by omega] at h

/-! ## The programs -/

/-- `install_trans` from index `tail` : copy committed blocks from the log to
their home location. -/
def installTrans (lg : LogArea) (cache : Pinned) : ℕ → List ℕ → DiskM Unit
  | _, [] => pure ()
  | tail, b :: bs => do
    let lbuf ← bread cache (lg.start + tail + 1) -- read log block
    let dbuf ← bread cache b -- read dst
    bwrite b (copyBlock dbuf lbuf)
    installTrans lg cache (tail + 1) bs

/-- `read_head` : the block numbers of the on-disk header. -/
def readHead (lg : LogArea) (cache : Pinned) : DiskM (List ℕ) := do
  let buf ← bread cache lg.start
  pure (headBlocks buf)

/-- `write_head` : write the in-memory header to disk. -/
def writeHead (lg : LogArea) (cache : Pinned) (lh : List ℕ) : DiskM Unit := do
  let buf ← bread cache lg.start
  bwrite lg.start (putHead buf lh)

/-- `recover_from_log`, with the empty cache of a fresh boot. -/
def recoverFromLog (lg : LogArea) : DiskM Unit := do
  let lh ← readHead lg fun _ => none
  installTrans lg (fun _ => none) 0 lh
  writeHead lg (fun _ => none) []

/-- `write_log` from index `tail` : copy modified blocks from the cache to the log. -/
def writeLog (lg : LogArea) (cache : Pinned) : ℕ → List ℕ → DiskM Unit
  | _, [] => pure ()
  | tail, b :: bs => do
    let toBuf ← bread cache (lg.start + tail + 1) -- log block
    let fromBuf ← bread cache b -- cache block
    bwrite (lg.start + tail + 1) (copyBlock toBuf fromBuf)
    writeLog lg cache (tail + 1) bs

/-- `commit`, with the in-memory header `lh`. -/
def commit (lg : LogArea) (cache : Pinned) (lh : List ℕ) : DiskM Unit :=
  if 0 < lh.length then do
    writeLog lg cache 0 lh
    writeHead lg cache lh
    installTrans lg cache 0 lh
    writeHead lg cache []
  else
    pure ()

open DiskProg

section Bread

variable (cache : Pinned) (b : ℕ) (d : Disk)

@[simp] theorem exec_bread : (bread cache b).exec d = ((cache b).getD (d b), d) := by
  unfold bread
  cases cache b <;> rfl

@[simp] theorem numWrites_bread : (bread cache b).numWrites d = 0 := by
  unfold bread
  cases cache b <;> rfl

theorem always_bread {I : Disk → Prop} (h : I d) : Always I (bread cache b) d := by
  unfold bread
  cases cache b with
  | none => exact always_readCell h
  | some data => exact always_pure h

end Bread

section Programs

variable {lg : LogArea} {cache : Pinned} {I : Disk → Prop}

/-! ## One round of each loop -/

theorem exec_writeLog_cons (tail b : ℕ) (bs : List ℕ) (d : Disk) :
    (writeLog lg cache tail (b :: bs)).exec d = (writeLog lg cache (tail + 1) bs).exec
      (update d (lg.start + tail + 1) ((cache b).getD (d b))) := by
  simp [writeLog, exec_bind, bwrite]

theorem always_writeLog_cons {tail b : ℕ} {bs : List ℕ} {d : Disk} (h : I d)
    (h' : Always I (writeLog lg cache (tail + 1) bs)
      (update d (lg.start + tail + 1) ((cache b).getD (d b)))) :
    Always I (writeLog lg cache tail (b :: bs)) d := by
  refine always_bind (always_bread _ _ _ h) (always_bind ?_ (always_bind ?_ ?_))
  · simpa using always_bread _ _ _ h
  · simpa [bwrite] using always_writeCell h h'.start
  · simpa [bwrite] using h'

theorem numWrites_writeLog : ∀ (bs : List ℕ) (tail : ℕ) (d : Disk),
    (writeLog lg cache tail bs).numWrites d = bs.length
  | [], _, _ => rfl
  | b :: bs, tail, d => by
    simp [writeLog, numWrites_bind, bwrite, numWrites_writeLog bs, writeCell, numWrites]
    omega

theorem exec_installTrans_cons (tail b : ℕ) (bs : List ℕ) (d : Disk) :
    (installTrans lg cache tail (b :: bs)).exec d = (installTrans lg cache (tail + 1) bs).exec
      (update d b ((cache (lg.start + tail + 1)).getD (d (lg.start + tail + 1)))) := by
  simp [installTrans, exec_bind, bwrite]

theorem always_installTrans_cons {tail b : ℕ} {bs : List ℕ} {d : Disk} (h : I d)
    (h' : Always I (installTrans lg cache (tail + 1) bs)
      (update d b ((cache (lg.start + tail + 1)).getD (d (lg.start + tail + 1))))) :
    Always I (installTrans lg cache tail (b :: bs)) d := by
  refine always_bind (always_bread _ _ _ h) (always_bind ?_ (always_bind ?_ ?_))
  · simpa using always_bread _ _ _ h
  · simpa [bwrite] using always_writeCell h h'.start
  · simpa [bwrite] using h'

/-- What `write_head` leaves on the disk when the header buffer is not pinned. -/
theorem exec_writeHead (hc : cache lg.start = none) (lh : List ℕ) (d : Disk) :
    (writeHead lg cache lh).exec d =
      ((), update d lg.start (putHead (d lg.start) lh)) := by
  simp [writeHead, exec_bind, bwrite, hc]

theorem numWrites_writeHead (lh : List ℕ) (d : Disk) :
    (writeHead lg cache lh).numWrites d = 1 := by
  simp [writeHead, numWrites_bind, bwrite, writeCell, numWrites]

theorem always_writeHead (hc : cache lg.start = none) {lh : List ℕ} {d : Disk} (h : I d)
    (h' : I (update d lg.start (putHead (d lg.start) lh))) :
    Always I (writeHead lg cache lh) d :=
  always_bind (always_bread _ _ _ h) (by simpa [bwrite, hc] using always_writeCell h h')

/-! ## The two kinds of disk -/

/-- The header records no transaction, and the home blocks are those of `d₀`. -/
structure Quiet (lg : LogArea) (d₀ d : Disk) : Prop where
  head : (d lg.start).word 0 = 0
  home : ∀ b, ¬lg.Contains b → d b = d₀ b

/-- Header and log blocks record the transaction that stores `new b` in each block
`b` of `lh`. A home block that is not logged is that of `d₀`. -/
structure Logged (lg : LogArea) (lh : List ℕ) (new d₀ d : Disk) : Prop where
  head : headBlocks (d lg.start) = lh
  log : ∀ i (h : i < lh.length), d (lg.start + i + 1) = new lh[i]
  home : ∀ b, ¬lg.Contains b → b ∉ lh → d b = d₀ b

/-- The home blocks after the transaction. -/
def install (lh : List ℕ) (new d₀ : Disk) : Disk := fun b => if b ∈ lh then new b else d₀ b

/-- A transaction fits the log area and writes only home blocks. -/
structure Transaction (lg : LogArea) (lh : List ℕ) : Prop where
  nodup : lh.Nodup
  length : (lh.length : ℤ) ≤ min (LOGSIZE : ℤ) (lg.size - 1)
  home : ∀ b ∈ lh, ¬lg.Contains b
  uint : ∀ b ∈ lh, b < 2 ^ 32

variable {lh : List ℕ} {new d₀ d : Disk}

theorem Transaction.contains_start (ht : Transaction lg lh) : lg.Contains lg.start := by
  have := ht.length
  exact ⟨le_rfl, by omega⟩

theorem Transaction.contains_log (ht : Transaction lg lh) {i : ℕ} (hi : i < lh.length) :
    lg.Contains (lg.start + i + 1) := by
  have := ht.length
  exact ⟨by omega, by omega⟩

/-- A write inside the log area, past the header, keeps a quiet disk quiet. -/
theorem Quiet.update_log (h : Quiet lg d₀ d) {a : ℕ} (ha : lg.Contains a) (hne : a ≠ lg.start)
    (v : Block) : Quiet lg d₀ (update d a v) where
  head := by rw [update_of_ne hne.symm]; exact h.head
  home b hb := by
    rw [update_of_ne (LogArea.ne_of_contains ha hb)]
    exact h.home b hb

/-- Clearing the header makes the disk quiet. -/
theorem quiet_clearHead (hs : lg.Contains lg.start) (h : ∀ b, ¬lg.Contains b → d b = d₀ b) :
    Quiet lg d₀ (update d lg.start (putHead (d lg.start) [])) where
  head := by
    rw [update_self, word_putHead_zero _ (by decide)]
    rfl
  home b hb := by
    rw [update_of_ne (LogArea.ne_of_contains hs hb)]
    exact h b hb

/-! ## Before the header write -/

theorem always_writeLog_quiet : ∀ (bs : List ℕ) (tail : ℕ) (d : Disk), Quiet lg d₀ d →
    tail + bs.length < lg.size → Always (Quiet lg d₀) (writeLog lg cache tail bs) d
  | [], _, _, h, _ => always_pure h
  | b :: bs, tail, d, h, hsz => by
    simp only [length_cons] at hsz
    have h' := h.update_log (a := lg.start + tail + 1) ⟨by omega, by omega⟩ (by omega)
      ((cache b).getD (d b))
    exact always_writeLog_cons h (always_writeLog_quiet bs (tail + 1) _ h' (by omega))

/-- `write_log` changes only the log blocks it fills. -/
theorem writeLog_of_not_mem : ∀ (bs : List ℕ) (tail : ℕ) (d : Disk) (a : ℕ),
    (a ≤ lg.start + tail ∨ lg.start + tail + bs.length < a) →
      ((writeLog lg cache tail bs).exec d).2 a = d a
  | [], _, _, _, _ => rfl
  | b :: bs, tail, d, a, ha => by
    simp only [length_cons] at ha
    rw [exec_writeLog_cons, writeLog_of_not_mem bs (tail + 1) _ a (by omega),
      update_of_ne (by omega)]

/-- After `write_log` the log blocks hold the cached contents. -/
theorem writeLog_log : ∀ (bs : List ℕ) (tail : ℕ) (d : Disk),
    (∀ b ∈ bs, cache b = some (new b)) → ∀ i (hi : i < bs.length),
      ((writeLog lg cache tail bs).exec d).2 (lg.start + (tail + i) + 1) = new bs[i]
  | b :: bs, tail, d, hc, 0, _ => by
    rw [exec_writeLog_cons, writeLog_of_not_mem bs _ _ _ (by omega), add_zero,
      update_self, hc b (by simp)]
    rfl
  | b :: bs, tail, d, hc, i + 1, hi => by
    rw [exec_writeLog_cons, show tail + (i + 1) = tail + 1 + i by omega,
      writeLog_log bs (tail + 1) _ (fun c h => hc c (by simp [h])) i (by simpa using hi),
      getElem_cons_succ]

/-- The header write turns a quiet disk with a filled log into a logged one. -/
theorem logged_of_writeHead (ht : Transaction lg lh) (hc : ∀ b ∈ lh, cache b = some (new b))
    (h : Quiet lg d₀ d) :
    Logged lg lh new d₀ (update ((writeLog lg cache 0 lh).exec d).2 lg.start
      (putHead (((writeLog lg cache 0 lh).exec d).2 lg.start) lh)) where
  head := by
    have := ht.length
    rw [update_self, headBlocks_putHead _ (by omega) ht.uint]
  log i hi := by
    rw [update_of_ne (by omega)]
    simpa using writeLog_log lh 0 d hc i hi
  home b hb _ := by
    have := ht.length
    have hne := LogArea.ne_of_contains ht.contains_start hb
    rw [update_of_ne hne, writeLog_of_not_mem _ _ _ _ ?_, h.home b hb]
    by_contra hcon
    exact hb ⟨by omega, by omega⟩

/-! ## After the header write -/

/-- Installing one logged block keeps a logged disk logged. -/
theorem Logged.update_home (ht : Transaction lg lh) (h : Logged lg lh new d₀ d) {b : ℕ}
    (hb : b ∈ lh) (v : Block) : Logged lg lh new d₀ (update d b v) where
  head := by
    rw [update_of_ne (LogArea.ne_of_contains ht.contains_start (ht.home b hb)).symm]
    exact h.head
  log i hi := by
    rw [update_of_ne (LogArea.ne_of_contains (ht.contains_log hi) (ht.home b hb)).symm]
    exact h.log i hi
  home a ha hal := by
    have hne : a ≠ b := fun he => hal (he ▸ hb)
    rw [update_of_ne hne]
    exact h.home a ha hal

/-- What one round of `install_trans` writes : the new contents. -/
theorem Logged.read_log (ht : Transaction lg lh) (hc : ∀ b, lg.Contains b → cache b = none)
    (h : Logged lg lh new d₀ d) {tail b : ℕ} {bs : List ℕ} (hbs : lh.drop tail = b :: bs) :
    (cache (lg.start + tail + 1)).getD (d (lg.start + tail + 1)) = new b ∧ b ∈ lh ∧
      lh.drop (tail + 1) = bs := by
  have hlt : tail < lh.length := by
    by_contra hge
    rw [drop_eq_nil_of_le (Nat.le_of_not_lt hge)] at hbs
    cases hbs
  rw [drop_eq_getElem_cons hlt, cons.injEq] at hbs
  obtain ⟨rfl, hdrop⟩ := hbs
  rw [hc _ (ht.contains_log hlt), Option.getD_none, h.log tail hlt]
  exact ⟨rfl, getElem_mem hlt, hdrop⟩

theorem always_installTrans_logged (ht : Transaction lg lh)
    (hc : ∀ b, lg.Contains b → cache b = none) :
    ∀ (bs : List ℕ) (tail : ℕ) (d : Disk), lh.drop tail = bs → Logged lg lh new d₀ d →
      Always (Logged lg lh new d₀) (installTrans lg cache tail bs) d
  | [], _, _, _, h => always_pure h
  | b :: bs, tail, d, hbs, h => by
    obtain ⟨_, hb, hdrop⟩ := h.read_log ht hc hbs
    exact always_installTrans_cons h
      (always_installTrans_logged ht hc bs (tail + 1) _ hdrop (h.update_home ht hb _))

/-- After `install_trans` the installed blocks hold their new contents. -/
theorem installTrans_home (ht : Transaction lg lh) (hc : ∀ b, lg.Contains b → cache b = none) :
    ∀ (bs : List ℕ) (tail : ℕ) (d : Disk), lh.drop tail = bs → Logged lg lh new d₀ d → ∀ a,
      ((installTrans lg cache tail bs).exec d).2 a = if a ∈ bs then new a else d a
  | [], _, _, _, _, _ => rfl
  | b :: bs, tail, d, hbs, h, a => by
    obtain ⟨hnew, hb, hdrop⟩ := h.read_log ht hc hbs
    rw [exec_installTrans_cons, installTrans_home ht hc bs (tail + 1) _ hdrop
      (h.update_home ht hb _) a, hnew]
    by_cases hab : a = b
    · subst hab
      simp
    · simp [hab]

/-- Installing everything and clearing the header completes the transaction. -/
theorem always_finish (ht : Transaction lg lh) (hc : ∀ b, lg.Contains b → cache b = none)
    (h : Logged lg lh new d₀ d) :
    Always (fun d => Logged lg lh new d₀ d ∨ Quiet lg (install lh new d₀) d)
        (do installTrans lg cache 0 lh; writeHead lg cache []) d ∧
      Quiet lg (install lh new d₀) ((do installTrans lg cache 0 lh; writeHead lg cache []
        : DiskM Unit).exec d).2 := by
  have hall := always_installTrans_logged ht hc lh 0 d rfl h
  have hq : Quiet lg (install lh new d₀)
      (update ((installTrans lg cache 0 lh).exec d).2 lg.start
        (putHead (((installTrans lg cache 0 lh).exec d).2 lg.start) [])) := by
    refine quiet_clearHead ht.contains_start fun b hb => ?_
    rw [installTrans_home ht hc lh 0 d rfl h b, install]
    split_ifs with hbl
    · rfl
    · exact h.home b hb hbl
  have hcs := hc _ ht.contains_start
  refine ⟨always_bind (hall.mono fun _ => Or.inl) ?_, ?_⟩
  · exact always_writeHead hcs (Or.inl hall.exec) (Or.inr hq)
  · rw [exec_bind, exec_writeHead hcs]
    exact hq

/-! ## Crash atomicity -/

/-- The cache at a commit : the logged blocks are pinned with their new contents. -/
def pinned (lh : List ℕ) (new : Disk) : Pinned := fun b => if b ∈ lh then some (new b) else none

theorem pinned_of_contains (ht : Transaction lg lh) (new : Disk) {b : ℕ} (hb : lg.Contains b) :
    pinned lh new b = none :=
  if_neg fun hl => ht.home b hl hb

theorem pinned_of_mem (new : Disk) {b : ℕ} (hb : b ∈ lh) : pinned lh new b = some (new b) :=
  if_pos hb

/-- Recovery of a quiet disk changes no home block, wherever it crashes. -/
theorem always_recover_quiet (hs : lg.Contains lg.start) (h : Quiet lg d₀ d) :
    Always (Quiet lg d₀) (recoverFromLog lg) d := by
  have hb : headBlocks (d lg.start) = [] := by simp [headBlocks, headN, h.head]
  refine always_bind (always_bind (always_bread _ _ _ h) (always_pure (by simpa using h))) ?_
  have hex : (readHead lg fun _ => none).exec d = ([], d) := by simp [readHead, exec_bind, hb]
  rw [hex]
  exact always_bind (always_pure h) (always_writeHead rfl h (quiet_clearHead hs h.home))

/-- Recovery of a logged disk keeps it logged until it has completed the transaction. -/
theorem always_recover_logged (ht : Transaction lg lh) (h : Logged lg lh new d₀ d) :
    Always (fun d => Logged lg lh new d₀ d ∨ Quiet lg (install lh new d₀) d)
        (recoverFromLog lg) d ∧
      Quiet lg (install lh new d₀) ((recoverFromLog lg).exec d).2 := by
  have hex : (readHead lg fun _ => none).exec d = (lh, d) := by
    simp [readHead, exec_bind, h.head]
  obtain ⟨hall, hq⟩ := always_finish ht
    (fun b _ => rfl : ∀ b, lg.Contains b → (fun _ => none : Pinned) b = none) h
  refine ⟨always_bind ?_ ?_, ?_⟩
  · exact always_bind (always_bread _ _ _ (Or.inl h)) (always_pure (by simpa using Or.inl h))
  · rw [hex]
    exact hall
  · rw [recoverFromLog, exec_bind, hex]
    exact hq

/-- A crash of `commit` : the disk is quiet with the old home blocks if the header
write did not reach it, else logged or complete. -/
theorem crash_commit (ht : Transaction lg lh) (new : Disk) (h : Quiet lg d₀ d) (k : ℕ) :
    if (writeLog lg (pinned lh new) 0 lh).numWrites d < k then
      Logged lg lh new d₀ (crash k (commit lg (pinned lh new) lh) d) ∨
        Quiet lg (install lh new d₀) (crash k (commit lg (pinned lh new) lh) d)
    else Quiet lg d₀ (crash k (commit lg (pinned lh new) lh) d) := by
  have hsize := ht.length
  have hwl : Always (Quiet lg d₀) (writeLog lg (pinned lh new) 0 lh) d :=
    always_writeLog_quiet lh 0 d h (by omega)
  unfold commit
  by_cases hlen : 0 < lh.length
  · simp only [if_pos hlen]
    split_ifs with hk
    · -- the crash falls behind the header write
      have hlog := logged_of_writeHead ht (fun b hb => pinned_of_mem new hb) h
      have hcs := pinned_of_contains ht new ht.contains_start
      rw [crash_bind, if_neg (by omega), crash_bind,
        if_neg (by rw [numWrites_writeHead]; omega), exec_writeHead hcs]
      exact (always_finish ht (fun b hb => pinned_of_contains ht new hb) hlog).1 _
    · rw [crash_bind]
      split_ifs with hlt
      · exact hwl k
      · rw [crash_bind, if_pos (by rw [numWrites_writeHead]; omega),
          show k - (writeLog lg (pinned lh new) 0 lh).numWrites d = 0 by omega, crash_zero]
        exact hwl.exec
  · obtain rfl : lh = [] := length_eq_zero_iff.1 (by omega)
    have hq : Quiet lg (install [] new d₀) d := ⟨h.head, by simpa [install] using h.home⟩
    simp only [if_neg hlen]
    split_ifs
    · exact Or.inr (always_pure hq k)
    · exact always_pure h k

/-- Recovery crashes at the writes `js`, one boot after the other. -/
def recoverCrashes (lg : LogArea) : List ℕ → Disk → Disk
  | [], d => d
  | j :: js, d => recoverCrashes lg js (crash j (recoverFromLog lg) d)

/-- A quiet disk stays quiet through crashes of recovery and its completion. -/
theorem quiet_recoverCrashes (hs : lg.Contains lg.start) : ∀ (js : List ℕ) (d : Disk),
    Quiet lg d₀ d → Quiet lg d₀ ((recoverFromLog lg).exec (recoverCrashes lg js d)).2
  | [], _, h => (always_recover_quiet hs h).exec
  | j :: js, _, h => quiet_recoverCrashes hs js _ (always_recover_quiet hs h j)

/-- A logged disk stays logged until some recovery completes the transaction. -/
theorem logged_recoverCrashes (ht : Transaction lg lh) : ∀ (js : List ℕ) (d : Disk),
    Logged lg lh new d₀ d →
      Quiet lg (install lh new d₀) ((recoverFromLog lg).exec (recoverCrashes lg js d)).2
  | [], _, h => (always_recover_logged ht h).2
  | j :: js, _, h => by
    rcases (always_recover_logged ht h).1 j with hl | hq
    · exact logged_recoverCrashes ht js _ hl
    · exact quiet_recoverCrashes ht.contains_start js _ hq

/-- The disk after a crash of `commit` at write `k`, crashes of recovery at the writes
`js`, and a recovery that completes. -/
def crashRecover (lg : LogArea) (lh : List ℕ) (new d : Disk) (k : ℕ) (js : List ℕ) : Disk :=
  ((recoverFromLog lg).exec
    (recoverCrashes lg js (crash k (commit lg (pinned lh new) lh) d))).2

/-- Crash atomicity of the redo log. The header ends with `n = 0`, and every block
outside the log area has its contents from before the transaction, or every such block
has its contents from after it. They are the contents from after it exactly when the
first header write, which follows the writes of `write_log`, reached the disk. -/
theorem crash_atomic (lg : LogArea) (lh : List ℕ) (new d : Disk) (k : ℕ) (js : List ℕ)
    (ht : Transaction lg lh) (hd : (d lg.start).word 0 = 0) :
    (crashRecover lg lh new d k js lg.start).word 0 = 0 ∧
      if (writeLog lg (pinned lh new) 0 lh).numWrites d < k then
        ∀ b, ¬lg.Contains b →
          crashRecover lg lh new d k js b = if b ∈ lh then new b else d b
      else ∀ b, ¬lg.Contains b → crashRecover lg lh new d k js b = d b := by
  have hcommit := crash_commit ht new ⟨hd, fun _ _ => rfl⟩ k
  split_ifs with hk
  · rw [if_pos hk] at hcommit
    have hq : Quiet lg (install lh new d) (crashRecover lg lh new d k js) :=
      hcommit.elim (logged_recoverCrashes ht js _)
        (quiet_recoverCrashes ht.contains_start js _)
    exact ⟨hq.head, hq.home⟩
  · rw [if_neg hk] at hcommit
    have hq : Quiet lg d (crashRecover lg lh new d k js) :=
      quiet_recoverCrashes ht.contains_start js _ hcommit
    exact ⟨hq.head, hq.home⟩

/-- A transaction of three blocks, with two more crashes during recovery. If the first crash comes
right after the header write all three blocks are new, and if it comes after the second block is
written to the log none of them is. -/
theorem crash_atomic_three_blocks :
    Transaction ⟨2, 30⟩ [100, 40, 101] ∧
      (∀ b ∈ [100, 40, 101], crashRecover ⟨2, 30⟩ [100, 40, 101] (fun b _ => .ofNat b)
        (fun _ => Bytes.zero BSIZE) 4 [2, 1] b = fun _ => .ofNat b) ∧
      ∀ b ∈ [100, 40, 101], crashRecover ⟨2, 30⟩ [100, 40, 101] (fun b _ => .ofNat b)
        (fun _ => Bytes.zero BSIZE) 2 [2, 1] b = Bytes.zero BSIZE := by
  have ht : Transaction ⟨2, 30⟩ [100, 40, 101] :=
    ⟨by decide, by decide, by decide, by decide⟩
  have hout : ∀ b ∈ [100, 40, 101], ¬(⟨2, 30⟩ : LogArea).Contains b := by decide
  have h := fun k => (crash_atomic ⟨2, 30⟩ [100, 40, 101] (fun b _ => .ofNat b)
    (fun _ => Bytes.zero BSIZE) k [2, 1] ht (Bytes.word_zero 0)).2
  refine ⟨ht, fun b hb => ?_, fun b hb => ?_⟩
  · have h4 := h 4
    rw [numWrites_writeLog, if_pos (by decide)] at h4
    rw [h4 b (hout b hb), if_pos hb]
  · have h2 := h 2
    rw [numWrites_writeLog, if_neg (by decide)] at h2
    exact h2 b (hout b hb)

end Programs

end Xv6
