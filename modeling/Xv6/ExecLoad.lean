import Xv6.Exec
import Xv6.Copyout
import Xv6.MemoryCalls

/-!
# exec loads the image of its file

`Loaded` is what the loop over the program headers keeps : the headers so far are acceptable, the
size is the largest end of a segment, and every byte is that of the last segment that covers it.
All that happens on the way stays in the pages that were free (`From`), so that an `exec` that
fails leaves the process as it was (`exec_loads`).
-/

namespace Xv6.Vm

open Function Ram List Option

variable {off offset : UInt32}

variable {k : Kernel} {file : Contents} {ph : Segment} {phs : List Segment}

/-! ## What a file describes -/

/-- The address after the last one of a segment. -/
def Segment.stop (ph : Segment) : ℕ := ph.vaddr.toNat + ph.memsz.toNat

/-- The address is one of those that a segment has bytes of the file for. -/
def Segment.Covers (ph : Segment) (va : ℕ) : Prop :=
  ph.vaddr.toNat ≤ va ∧ va < ph.vaddr.toNat + ph.filesz.toNat

instance (ph : Segment) (va : ℕ) : Decidable (ph.Covers va) := by
  unfold Segment.Covers
  infer_instance

/-- A segment that `exec` may load. -/
structure Segment.Acceptable (file : Contents) (ph : Segment) : Prop where
  memsz : ph.filesz ≤ ph.memsz
  stop_lt : ph.stop < KERNBASE
  mod : ph.vaddr.toNat % PGSIZE = 0
  inside : ph.filesz = 0 ∨ ph.off.toNat + ph.filesz.toNat ≤ file.bytes.length

/-- The segments with type `PT_LOAD` among the `n` headers from `off` on. -/
def loadHeaders (file : Contents) : ℕ → UInt32 → List Segment
  | 0, _ => []
  | n + 1, off =>
    ((readProghdr file off).toList.filter fun ph => ph.type = ELF_PROG_LOAD) ++
      loadHeaders file n (off + 32)

theorem loadHeaders_succ {n : ℕ} (h : readProghdr file off = some ph) :
    loadHeaders file (n + 1) off = if ph.type = ELF_PROG_LOAD then
      ph :: loadHeaders file n (off + 32) else loadHeaders file n (off + 32) := by
  rw [loadHeaders, h]
  split_ifs with htype <;> simp [htype]

/-- The largest end of a segment. -/
def imageSize (phs : List Segment) : ℕ := (phs.map Segment.stop).foldl max 0

/-- The byte of the file that the last segment has for an address, or 0. -/
def imageByte (file : Contents) (phs : List Segment) (va : ℕ) : UInt8 :=
  match phs.reverse.find? (Segment.Covers · va) with
  | none => 0
  | some ph => file.bytes.getD (ph.off.toNat + (va - ph.vaddr.toNat)) 0

theorem imageSize_concat (phs : List Segment) (ph : Segment) :
    imageSize (phs ++ [ph]) = max (imageSize phs) ph.stop := by
  simp [imageSize]

/-- The last segment that has an address decides. -/
theorem imageByte_concat (phs : List Segment) (ph : Segment) (va : ℕ) :
    imageByte file (phs ++ [ph]) va =
      if ph.Covers va then file.bytes.getD (ph.off.toNat + (va - ph.vaddr.toNat)) 0
      else imageByte file phs va := by
  rw [imageByte, reverse_append, reverse_singleton, singleton_append,
    List.find?_cons]
  split_ifs with h
  · simp [h]
  · simp [h, imageByte]

theorem stop_le_imageSize (h : ph ∈ phs) : ph.stop ≤ imageSize phs := by
  have hle : ∀ (l : List ℕ) (m x : ℕ), x = m ∨ x ∈ l → x ≤ l.foldl max m := by
    intro l
    induction l with
    | nil =>
      rintro m x (rfl | hx)
      · exact le_rfl
      · cases hx
    | cons y l ih =>
      rintro m x (rfl | hx)
      · exact (le_max_left x y).trans (ih _ _ (.inl rfl))
      · rcases mem_cons.1 hx with rfl | hx
        · exact (le_max_right m x).trans (ih _ _ (.inl rfl))
        · exact ih _ _ (.inr hx)
  exact hle _ _ _ (.inr (mem_map_of_mem h))

/-- Behind all segments there are zeros. -/
theorem imageByte_of_le {va : ℕ} (hacc : ∀ ph ∈ phs, Segment.Acceptable file ph)
    (hva : imageSize phs ≤ va) : imageByte file phs va = 0 := by
  have hnone : phs.reverse.find? (Segment.Covers · va) = none := by
    rw [List.find?_eq_none]
    intro ph hph
    have hmem := mem_reverse.1 hph
    have hstop := stop_le_imageSize hmem
    have hsz := (hacc ph hmem).memsz
    rw [UInt32.le_iff_toNat_le] at hsz
    simp only [Segment.stop] at hstop
    rw [decide_eq_true_eq]
    rintro ⟨-, hlt⟩
    omega
  rw [imageByte, hnone]

/-! ## loaduvm -/

theorem chunk_eq (sz i : ℕ) : chunk sz i = min (sz - i) 4096 := by
  unfold chunk
  split_ifs with h
  · exact (min_eq_left h.le).symm
  · exact (min_eq_right (not_lt.1 h)).symm

theorem toNat_chunk (sz i : ℕ) : (UInt32.ofNat (chunk sz i)).toNat = chunk sz i := by
  have := chunk_eq sz i
  rw [UInt32.toNat_ofNat', Nat.mod_eq_of_lt (by omega)]

theorem readi_eq_some {n : UInt32} {bytes : List UInt8} (h : readi file off n = some bytes) :
    off.toNat ≤ file.bytes.length ∧ bytes = (file.bytes.drop off.toNat).take n.toNat := by
  unfold readi at h
  split_ifs at h with hbad
  simp only [not_or, not_lt] at hbad
  exact ⟨hbad.1, (some.inj h).symm⟩

theorem readi_of_le {n : UInt32} (h : off.toNat + n.toNat ≤ file.bytes.length) :
    readi file off n = some ((file.bytes.drop off.toNat).take n.toNat) := by
  have hlt := file.lt
  refine if_neg ?_
  rw [UInt32.lt_iff_toNat_lt, UInt32.toNat_add]
  omega

namespace Store

variable {s t : Store} {va sz : ℕ}

/-- Only user memory of `s` changes. -/
structure UserOnly (s t : Store) : Prop where
  space : t.space = s.space
  same : ∀ x, (∀ va, s.pgdir.user va ≠ some x) → t.mem x = s.mem x

theorem UserOnly.refl (s : Store) : UserOnly s s := ⟨rfl, fun _ _ => rfl⟩

theorem UserOnly.pgdir (h : UserOnly s t) : t.pgdir = s.pgdir := congrArg Space.pgdir h.space

theorem UserOnly.trans {u : Store} (h : UserOnly s t) (h' : UserOnly t u) : UserOnly s u := by
  refine ⟨h'.space.trans h.space, fun x hx => (h'.same x fun va => ?_).trans (h.same x hx)⟩
  rw [h.pgdir]
  exact hx va

/-- User memory is stored to. -/
theorem UserOnly.of_stored {m : ℕ → UInt8} {addr : ℕ → ℕ} {n : ℕ} {f : ℕ → UInt8}
    (h : Stored s.pgdir.user s.mem m addr n f) : UserOnly s { s with mem := m } :=
  ⟨rfl, fun x hx => h.miss x fun i _ => hx (addr i)⟩

theorem UserOnly.wf (h : UserOnly s t) (hs : s.Wf k) : t.Wf k := hs.congr (by rw [h.space])

/-- A page that is present, from a page boundary on. -/
theorem user_add {a i : ℕ} {e : Pte} (ha : Aligned a) (he : s.pgdir.entry a = some e)
    (hi : i < 4096) (hk : a + i < KERNBASE) : s.pgdir.user (a + i) = some (e.pa + i) := by
  have hmod := ha.mod
  have hround : PGROUNDDOWN (a + i) = a := by
    simp only [PGROUNDDOWN, PGSIZE]
    omega
  refine user_eq_some.2 ⟨hk, e, by rw [hround]; exact he, ?_⟩
  simp only [PGSIZE]
  omega

/-- What `loaduvm` has read from offset `i` of a segment on. -/
def ReadFrom (file : Contents) (s t : Store) (addr offset sz i : ℕ) : Prop :=
  (i < sz → offset + sz ≤ file.bytes.length) ∧
  Stored s.pgdir.user s.mem t.mem (fun j => addr + i + j) (sz - i)
    fun j => file.bytes.getD (offset + i + j) 0

/-- The loop of `loaduvm`. -/
theorem loadLoop_contents {addr : ℕ} (hmod : addr % 4096 = 0) (hlt : addr + sz < KERNBASE) :
    ∀ (fuel i : ℕ) (s : Store), s.Wf k →
    (∀ b, Aligned b → addr ≤ b → b < addr + sz → s.pgdir.present b) → i % 4096 = 0 →
    sz ≤ i + fuel * 4096 → (i < sz → offset.toNat + i < 2 ^ 32) →
    Outcome (loadLoop file addr offset sz fuel i s) (fun _ => False) fun r =>
      UserOnly s r.2 ∧ (r.1 = true → ReadFrom file s r.2 addr offset.toNat sz i) ∧
        ((i < sz → offset.toNat + sz ≤ file.bytes.length) → r.1 = true)
  | 0, i, s, _, _, _, hn, _ => by
    refine outcome_ok ⟨.refl s, fun _ => ⟨fun h => by omega, ?_⟩, fun _ => rfl⟩
    rw [show sz - i = 0 by omega]
    exact .zero
  | fuel + 1, i, s, hs, hp, hi, hn, hoff => by
    rw [loadLoop]
    split_ifs with his
    swap
    · refine outcome_ok ⟨.refl s, fun _ => ⟨fun h => absurd h his, ?_⟩, fun _ => rfl⟩
      rw [show sz - i = 0 by omega]
      exact .zero
    have hk32 := kernbase_lt
    have ha : Aligned (addr + i) := ⟨by omega, by omega⟩
    obtain ⟨e, he⟩ := present_iff_entry.1 (hp (addr + i) ha (by omega) (by omega))
    rw [(entry_eq_some.1 he).1]
    dsimp only
    have hchunk := chunk_eq sz i
    have hsum : (offset + UInt32.ofNat i).toNat = offset.toNat + i := by
      rw [UInt32.toNat_add, UInt32.toNat_ofNat', Nat.add_mod_mod, Nat.mod_eq_of_lt (hoff his)]
    cases hread : readi file (offset + .ofNat i) (.ofNat (chunk sz i)) with
    | none =>
      refine outcome_ok ⟨.refl s, by simp, fun hin => ?_⟩
      rw [readi_of_le (by rw [hsum, toNat_chunk]; have := hin his; omega)] at hread
      cases hread
    | some bytes =>
      obtain ⟨hofs, hbytes⟩ := readi_eq_some hread
      rw [hsum] at hofs hbytes
      rw [toNat_chunk] at hbytes
      have hlen : bytes.length = min (chunk sz i) (file.bytes.length - (offset.toNat + i)) := by
        rw [hbytes, length_take, length_drop]
      have hcell : ∀ j < bytes.length, s.pgdir.user (addr + i + j) = some (e.pa + j) := fun j hj =>
        user_add ha he (by omega) (by omega)
      have hstored : Stored s.pgdir.user s.mem (putBytes s.mem e.pa bytes)
          (fun j => addr + i + j) bytes.length fun j => bytes.getD j 0 := .of_write hcell
      have huser := UserOnly.of_stored hstored
      dsimp only
      split_ifs with hfull
      swap
      · exact outcome_ok ⟨huser, by simp, fun hin => by have := hin his; omega⟩
      have hend : offset.toNat + i + chunk sz i ≤ file.bytes.length := by omega
      have hnext : i + 4096 < sz → offset.toNat + (i + 4096) < 2 ^ 32 := fun h =>
        lt_of_le_of_lt (by omega) file.lt
      refine (loadLoop_contents hmod hlt fuel (i + 4096) _ (huser.wf hs) hp (by omega) (by omega)
        hnext).imp ?_
      rintro r ⟨hu, hr, hprog⟩
      refine ⟨huser.trans hu, fun hok => ?_, fun hin => hprog fun _ => hin his⟩
      obtain ⟨hrest, hst⟩ := hr hok
      refine ⟨fun _ => by omega, ?_⟩
      rw [show sz - i = bytes.length + (sz - (i + 4096)) by omega]
      refine Stored.append hs.separate (fun j l hj hl => by omega)
        (hstored.congr (fun _ _ => rfl) fun j hj => ?_)
        (hst.congr (fun j hj => by omega) fun j hj => ?_)
      · rw [hbytes, getD_eq_getElem?_getD, getD_eq_getElem?_getD,
          List.getElem?_take_of_lt (by omega), List.getElem?_drop]
      · rw [show offset.toNat + i + (bytes.length + j) = offset.toNat + (i + 4096) + j by omega]

theorem loaduvm_contents {addr : ℕ} (hmod : addr % PGSIZE = 0) (hlt : addr + sz < KERNBASE)
    (hs : s.Wf k) (hp : ∀ b, Aligned b → addr ≤ b → b < addr + sz → s.pgdir.present b) :
    Outcome (s.loaduvm file addr offset sz) (fun _ => False) fun r =>
      UserOnly s r.2 ∧ (r.1 = true → ReadFrom file s r.2 addr offset.toNat sz 0) ∧
        ((0 < sz → offset.toNat + sz ≤ file.bytes.length) → r.1 = true) := by
  rw [loaduvm, if_neg (not_not.2 hmod)]
  refine loadLoop_contents hmod hlt _ 0 s hs hp rfl ?_ fun _ => offset.toNat_lt
  simp only [ROUNDS, NPDENTRIES, NPTENTRIES, KERNBASE] at *
  omega

/-! ## The loop over the headers -/

/-- The pages of an address space come from the free list of `x`, and no other page has
changed. -/
structure From (x : Phys) (s : Store) : Prop where
  pages : s.space.pages = (x.kmem : Multiset ℕ)
  same : ∀ pg, pg % 4096 = 0 → pg ∉ x.kmem → SamePage pg x.mem s.mem

variable {x : Phys}

theorem From.wf (h : From x s) (hx : ∀ pg ∈ x.kmem, k.Valid pg) (hn : x.kmem.Nodup) : s.Wf k := by
  refine ⟨fun pg hpg => hx pg ?_, ?_⟩
  · rw [h.pages] at hpg
    exact hpg
  · rw [h.pages]
    exact hn

theorem From.mem (h : From x s) {pg : ℕ} (hpg : pg ∈ s.space.pages) : pg ∈ x.kmem := by
  rw [h.pages] at hpg
  exact hpg

theorem From.fresh {a z : ℕ} (h : From x s) (hf : Fresh s t a z)
    (hp : t.space.pages = s.space.pages) : From x t :=
  ⟨hp.trans h.pages, fun pg hpg hnot => (h.same pg hpg hnot).trans
    (hf.same pg hpg fun hm => hnot (h.mem (Multiset.mem_add.2 (.inl hm))))⟩

theorem From.userOnly (h : From x s) (hs : s.Wf k) (hu : UserOnly s t) : From x t := by
  refine ⟨(congrArg Space.pages hu.space).trans h.pages, fun pg hpg hnot => ?_⟩
  refine (h.same pg hpg hnot).trans fun i hi => hu.same _ fun va hva => hnot (h.mem ?_)
  have hmem := user_page hs.pgdir_mod hva
  have hpg' : PGROUNDDOWN (pg + i) = pg := by
    simp only [PGROUNDDOWN, PGSIZE] at *
    omega
  rw [hpg'] at hmem
  exact Multiset.mem_add.2 (.inr hmem)

/-- The kernel's part of a page directory : not for the user, and there is a last page. -/
structure HasKernel (d : Pgdir) : Prop where
  only : d.KernelOnly
  last : d.present 0xFFFFF000

theorem HasKernel.congr {d d' : Pgdir} (h : HasKernel d) (hd : SameKernel d d') : HasKernel d' := by
  refine ⟨kernelOnly_iff.2 fun b e hb hkb he => ?_, ?_⟩
  · rw [hd b hb hkb] at he
    exact kernelOnly_iff.1 h.only b e hb hkb he
  · rw [present_iff_entry, hd 0xFFFFF000 ⟨rfl, by decide⟩ (by decide), ← present_iff_entry]
    exact h.last

/-- What the loop over the program headers has made of the headers `phs`. -/
structure Loaded (k : Kernel) (file : Contents) (phs : List Segment) (sz : ℕ) (s : Store) :
    Prop where
  wf : s.Wf k
  kernel : HasKernel s.pgdir
  lt : sz < KERNBASE
  contig : s.pgdir.Contig sz
  acceptable : ∀ ph ∈ phs, ph.Acceptable file
  size : sz = imageSize phs
  byte : ∀ va < PGROUNDUP sz, s.byte va = some (imageByte file phs va)

theorem pgroundup_of_lt (h : sz < KERNBASE) : PGROUNDUP sz = (sz + 4095) / 4096 * 4096 := by
  simp only [PGROUNDUP, PGSIZE, KERNBASE] at *
  omega

/-- A fresh page has zeros. -/
theorem Fresh.byte_new {a z : ℕ} (h : Fresh s t a z) (hva : va < KERNBASE)
    (hz : a ≤ PGROUNDDOWN va ∧ PGROUNDDOWN va < z) : t.byte va = some 0 := by
  obtain ⟨e, he, -, -, -, hzero⟩ :=
    h.new _ (aligned_pgrounddown (hva.trans kernbase_lt)) hz.1 hz.2
  rw [Store.byte, view, user_of_lt hva, he]
  exact congrArg some (hzero _ (Nat.mod_lt _ (by decide)))

/-- Memory grows before a segment is read to it. -/
theorem Loaded.grow {newsz : ℕ} (h : Loaded k file phs sz s) (hnew : newsz < KERNBASE)
    (hf : Fresh s t sz newsz) : ∀ va < PGROUNDUP (max sz newsz),
      t.byte va = some (imageByte file phs va) := by
  intro va hva
  have hlt := h.lt
  rw [pgroundup_of_lt (max_lt hlt hnew)] at hva
  have hup := pgroundup_of_lt hlt
  have hvk : va < KERNBASE := by
    simp only [KERNBASE] at *
    omega
  have hdown : PGROUNDDOWN va = va / 4096 * 4096 := rfl
  by_cases hold : va < PGROUNDUP sz
  · rw [hf.byte_eq h.wf (by omega)]
    exact h.byte va hold
  · rw [hf.byte_new hvk (by omega), imageByte_of_le h.acceptable]
    rw [← h.size]
    omega

/-- A segment has been read. -/
theorem Loaded.concat {newsz : ℕ} (h : Loaded k file phs sz s) (hacc : ph.Acceptable file)
    (hsz : newsz = max sz ph.stop) (ht : t.Wf k) (hker : HasKernel t.pgdir)
    (hc : t.pgdir.Contig newsz) {s₁ : Store} (hs₁ : s₁.Wf k) (hpg : t.pgdir = s₁.pgdir)
    (hbyte : ∀ va < PGROUNDUP newsz, s₁.byte va = some (imageByte file phs va))
    (hread : ReadFrom file s₁ t ph.vaddr.toNat ph.off.toNat ph.filesz.toNat 0) :
    Loaded k file (phs ++ [ph]) newsz t where
  wf := ht
  kernel := hker
  lt := by
    rw [hsz]
    exact max_lt h.lt hacc.stop_lt
  contig := hc
  acceptable p hp := by
    rcases mem_append.1 hp with hp | hp
    · exact h.acceptable p hp
    · rw [mem_singleton.1 hp]
      exact hacc
  size := by rw [imageSize_concat, ← h.size, hsz]
  byte va hva := by
    rw [imageByte_concat, Store.byte, hpg]
    split_ifs with hcov
    · obtain ⟨hle, hlt⟩ := hcov
      have hhit := hread.2.view_hit (i := va - ph.vaddr.toNat) (by omega)
      simp only [add_zero] at hhit
      rw [Nat.add_sub_cancel' hle] at hhit
      exact hhit
    · refine (hread.2.view_miss hs₁.separate fun i hi heq => hcov ?_).trans (hbyte va hva)
      exact ⟨by omega, by omega⟩

/-- The sum of address and size does not wrap. -/
theorem toNat_stop (h : ¬ph.vaddr + ph.memsz < ph.vaddr) :
    (ph.vaddr + ph.memsz).toNat = ph.stop := by
  have h₁ := ph.vaddr.toNat_lt
  have h₂ := ph.memsz.toNat_lt
  rw [UInt32.lt_iff_toNat_lt, UInt32.toNat_add] at h
  rw [UInt32.toNat_add, Segment.stop]
  omega

/-- The loop of `exec` over the program headers. -/
theorem loadSegs_contents (hx : ∀ pg ∈ x.kmem, k.Valid pg) (hn : x.kmem.Nodup) :
    ∀ (n : ℕ) (off : UInt32) (sz : ℕ) (s : Store) (phs : List Segment), From x s →
    Loaded k file phs sz s →
    Outcome (loadSegs k file n off sz s) (fun _ => False) fun r => From x r.2 ∧
      ∀ sz', r.1 = some sz' → Loaded k file (phs ++ loadHeaders file n off) sz' r.2 ∧
        ∀ i < n, (readProghdr file (off + 32 * .ofNat i)).isSome
  | 0, off, sz, s, phs, hfrom, h => by
    refine outcome_ok ⟨hfrom, fun sz' hsz => ⟨?_, fun i hi => absurd hi (Nat.not_lt_zero i)⟩⟩
    obtain rfl := some.inj hsz
    rw [loadHeaders, append_nil]
    exact h
  | n + 1, off, sz, s, phs, hfrom, h => by
    rw [loadSegs]
    cases hread : readProghdr file off with
    | none => exact outcome_ok ⟨hfrom, by simp⟩
    | some ph =>
      -- the headers after this one
      have hnext : ∀ (t : Store) (newsz : ℕ), From x t →
          Loaded k file (phs ++ [ph].filter fun ph => ph.type = ELF_PROG_LOAD) newsz t →
          Outcome (loadSegs k file n (off + 32) newsz t) (fun _ => False) fun r => From x r.2 ∧
            ∀ sz', r.1 = some sz' →
              Loaded k file (phs ++ loadHeaders file (n + 1) off) sz' r.2 ∧
                ∀ i < n + 1, (readProghdr file (off + 32 * .ofNat i)).isSome := by
        intro t newsz ht hl
        refine (loadSegs_contents hx hn n (off + 32) newsz t _ ht hl).imp ?_
        rintro r ⟨hr, hsz⟩
        refine ⟨hr, fun sz' hsz' => ?_⟩
        obtain ⟨hl', hall⟩ := hsz sz' hsz'
        refine ⟨?_, fun i hi => ?_⟩
        · rw [loadHeaders, hread, ← append_assoc]
          exact hl'
        · cases i with
          | zero =>
            rw [show off + 32 * UInt32.ofNat 0 = off from UInt32.add_zero _, hread]
            rfl
          | succ i =>
            have := hall i (by omega)
            rw [UInt32.add_assoc] at this
            rw [UInt32.ofNat_add, UInt32.mul_add, UInt32.add_comm (32 * UInt32.ofNat i)]
            exact this
      have hfail : ∀ t : Store, From x t → Outcome (.ok (none, t) : Except Fault (Option ℕ × Store))
          (fun _ => False) fun r => From x r.2 ∧ ∀ sz', r.1 = some sz' →
            Loaded k file (phs ++ loadHeaders file (n + 1) off) sz' r.2 ∧
              ∀ i < n + 1, (readProghdr file (off + 32 * .ofNat i)).isSome :=
        fun t ht => outcome_ok ⟨ht, by simp⟩
      dsimp only
      by_cases htype : ph.type ≠ ELF_PROG_LOAD
      · rw [if_pos htype]
        refine hnext s sz hfrom ?_
        simpa [htype] using h
      rw [if_neg htype]
      by_cases hmem : ph.memsz < ph.filesz
      · rw [if_pos hmem]
        exact hfail s hfrom
      rw [if_neg hmem]
      by_cases hover : ph.vaddr + ph.memsz < ph.vaddr
      · rw [if_pos hover]
        exact hfail s hfrom
      rw [if_neg hover, toNat_stop hover]
      refine ((allocuvm_kernel h.wf).and (allocuvm_spec h.wf h.contig.below ph.stop)).bind ?_
      rintro ⟨r, s₁⟩ ⟨⟨hs₁, hker⟩, hcon, hgrown⟩
      dsimp only at hs₁ hker hcon hgrown ⊢
      have hfrom₁ : From x s₁ := by
        rcases hcon with ⟨-, -, hf⟩ | ⟨-, hf⟩
        · exact hfrom.fresh hf hgrown.pages
        · exact hfrom.fresh hf hgrown.pages
      split_ifs with hr hmod
      · exact hfail s₁ hfrom₁
      · exact hfail s₁ hfrom₁
      obtain ⟨hr', hstop, hf⟩ := hcon.resolve_right fun h => hr h.1
      obtain ⟨-, hrk, hc₁⟩ := hgrown.contig hr h.contig h.lt
      have hfile : ph.filesz.toNat ≤ ph.memsz.toNat := by
        rw [UInt32.lt_iff_toNat_lt] at hmem
        omega
      have hend : ph.vaddr.toNat + ph.filesz.toNat ≤ ph.stop := Nat.add_le_add_left hfile _
      refine (loaduvm_contents (not_not.1 hmod) (lt_of_le_of_lt hend hstop) hs₁
        fun b hb _ hlt => (hc₁ b hb (by omega)).2 (by omega)).bind ?_
      rintro ⟨ok, s₂⟩ ⟨hu, hrd, -⟩
      dsimp only at hu hrd ⊢
      have hfrom₂ := hfrom₁.userOnly hs₁ hu
      cases ok with
      | false => exact hfail s₂ hfrom₂
      | true =>
        have hacc : ph.Acceptable file := by
          refine ⟨UInt32.le_iff_toNat_le.2 hfile, hstop, not_not.1 hmod, ?_⟩
          by_cases hz : ph.filesz = 0
          · exact .inl hz
          · refine .inr ((hrd rfl).1 (pos_of_ne_zero fun h0 => hz ?_))
            exact UInt32.toNat_inj.1 h0
        refine hnext s₂ r hfrom₂ ?_
        rw [filter_singleton, decide_eq_true (not_not.1 htype)]
        exact h.concat hacc hr' (hfrom₂.wf hx hn) (by rw [hu.pgdir]; exact h.kernel.congr hker)
          (by rw [hu.pgdir]; exact hc₁) hs₁ hu.pgdir (by rw [hr']; exact h.grow hstop hf) (hrd rfl)

/-- With so many free pages the segments can be loaded. -/
def loadNeed (phs : List Segment) : ℕ := (phs.map fun ph => growNeed 0 ph.stop).sum

/-- The loop over the headers does not fail if the segments are acceptable and there is enough
memory. -/
theorem loadSegs_some : ∀ (n : ℕ) (off : UInt32) (sz : ℕ) (s : Store), s.Wf k → sz < KERNBASE →
    s.pgdir.Contig sz → (∀ i < n, (readProghdr file (off + 32 * .ofNat i)).isSome) →
    (∀ ph ∈ loadHeaders file n off, ph.Acceptable file ∧ 0 < ph.stop) →
    loadNeed (loadHeaders file n off) ≤ s.kmem.length →
    ∃ sz' t, loadSegs k file n off sz s = .ok (some sz', t) ∧
      s.kmem.length ≤ t.kmem.length + loadNeed (loadHeaders file n off)
  | 0, off, sz, s, _, _, _, _, _, _ => ⟨sz, s, rfl, Nat.le_add_right _ _⟩
  | n + 1, off, sz, s, hs, hsz, hc, hread, hacc, hroom => by
    have hnext : ∀ i < n, (readProghdr file (off + 32 + 32 * .ofNat i)).isSome := fun i hi => by
      have := hread (i + 1) (by omega)
      rwa [UInt32.ofNat_add, UInt32.mul_add, UInt32.add_comm (32 * UInt32.ofNat i),
        ← UInt32.add_assoc] at this
    obtain ⟨ph, hph⟩ : ∃ ph, readProghdr file off = some ph := by
      have := hread 0 (Nat.succ_pos n)
      rw [show off + 32 * UInt32.ofNat 0 = off from UInt32.add_zero _] at this
      exact isSome_iff_exists.1 this
    rw [loadSegs, hph]
    dsimp only
    rw [loadHeaders_succ hph] at hacc hroom ⊢
    by_cases htype : ph.type ≠ ELF_PROG_LOAD
    · rw [if_neg htype] at hacc hroom ⊢
      rw [if_pos htype]
      exact loadSegs_some n (off + 32) sz s hs hsz hc hnext hacc hroom
    rw [if_pos (not_not.1 htype)] at hacc hroom ⊢
    obtain ⟨⟨hph', hpos⟩, hacc⟩ := forall_mem_cons.1 hacc
    simp only [loadNeed, map_cons, sum_cons] at hroom ⊢
    have hstop := hph'.stop_lt
    have hfile := UInt32.le_iff_toNat_le.1 hph'.memsz
    have hover : ¬ph.vaddr + ph.memsz < ph.vaddr := by
      rw [UInt32.lt_iff_toNat_lt, UInt32.toNat_add]
      simp only [Segment.stop, KERNBASE] at hstop
      omega
    have hmem : ¬ph.memsz < ph.filesz := by
      rw [UInt32.lt_iff_toNat_lt]
      omega
    rw [if_neg htype, if_neg hmem, if_neg hover, toNat_stop hover]
    obtain ⟨⟨r, s₁⟩, halloc, ⟨hs₁, -⟩, -, hgrown⟩ :=
      ((allocuvm_kernel hs).and (allocuvm_spec hs hc.below ph.stop)).exists_ok
    have hneed : growNeed sz ph.stop ≤ growNeed 0 ph.stop := by
      simp only [growNeed]
      omega
    obtain ⟨hr, hlen⟩ := hgrown.room hstop (hneed.trans ((Nat.le_add_right _ _).trans hroom))
    dsimp only at hr hlen hs₁ hgrown
    have hr0 : r ≠ 0 := by omega
    obtain ⟨-, hrk, hc₁⟩ := hgrown.contig hr0 hc hsz
    rw [halloc, ok_bind]
    dsimp only
    rw [if_neg hr0, if_neg (not_not.2 hph'.mod)]
    have hend : ph.vaddr.toNat + ph.filesz.toNat ≤ ph.stop := Nat.add_le_add_left hfile _
    obtain ⟨⟨ok, s₂⟩, hload, hu, -, hok⟩ := (loaduvm_contents hph'.mod (lt_of_le_of_lt hend hstop)
      hs₁
      (fun b hb _ hlt => (hc₁ b hb (by omega)).2 (by omega)) :
      Outcome (s₁.loaduvm file _ ph.off _) _ _).exists_ok
    obtain rfl : ok = true := hok fun h => hph'.inside.resolve_left fun h0 => by
      rw [h0] at h
      cases h
    have hlen₂ : s₂.kmem.length = s₁.kmem.length := by
      rw [show s₂.kmem = s₁.kmem from congrArg Space.kmem hu.space]
    have hlen₁ : s.kmem.length ≤ s₁.kmem.length + growNeed sz ph.stop := hlen
    obtain ⟨sz', t, hrun, hlen'⟩ := loadSegs_some n (off + 32) r s₂ (hu.wf hs₁) hrk
      (by rw [hu.pgdir]; exact hc₁) hnext hacc (by rw [loadNeed]; omega)
    rw [loadNeed] at hlen'
    refine ⟨sz', t, ?_, by omega⟩
    rw [hload, ok_bind]
    exact hrun

/-- The address space that `exec` starts with. -/
theorem setupkvm_loaded (file : Contents) (hx : ∀ pg ∈ x.kmem, k.Valid pg) (hn : x.kmem.Nodup) :
    Outcome (setupkvm k x) (fun _ => False) fun r =>
      (r.1 = none ∧ (r.2.kmem : Multiset ℕ) = x.kmem ∧
        ∀ pg, pg % 4096 = 0 → pg ∉ x.kmem → SamePage pg x.mem r.2.mem) ∨
      ∃ d, r.1 = some d ∧ From x ⟨r.2, d⟩ ∧ Loaded k file [] 0 ⟨r.2, d⟩ := by
  obtain ⟨⟨o, y⟩, hset, hsame, ⟨ho, hk, -⟩ | ⟨d, ho, hk, hnone⟩⟩ := (setupkvm_spec hx).exists_ok
  · rw [hset]
    exact outcome_ok (.inl ⟨ho, hk, hsame⟩)
  · dsimp only at ho
    subst ho
    rw [hset]
    have hfrom : From x ⟨y, d⟩ := ⟨hk, hsame⟩
    obtain ⟨honly, hlast⟩ := setupkvm_kernel hset
    exact outcome_ok (.inr ⟨d, rfl, hfrom, hfrom.wf hx hn, ⟨honly, hlast⟩, by decide,
      fun b _ hbk => ⟨fun h => absurd h (hnone.absent hbk), fun h => by omega⟩,
      fun p hp => absurd hp not_mem_nil, rfl, fun va hva => absurd hva (Nat.not_lt_zero va)⟩)

end Store

open Store

/-- A program with acceptable segments is loaded if there is enough memory. -/
theorem load_some {x : Phys} {elf : Elf} (hx : ∀ pg ∈ x.kmem, k.Valid pg) (hn : x.kmem.Nodup)
    (helf : readElf file = some elf) (hmagic : elf.magic = ELF_MAGIC)
    (hread : ∀ i < elf.phnum.toNat, (readProghdr file (elf.phoff + 32 * .ofNat i)).isSome)
    (hacc : ∀ ph ∈ loadHeaders file elf.phnum.toNat elf.phoff, ph.Acceptable file ∧ 0 < ph.stop)
    (hroom : 514 + loadNeed (loadHeaders file elf.phnum.toNat elf.phoff) ≤ x.kmem.length) :
    ∃ sz s, load k file x = .ok (.image elf sz s) ∧ x.kmem.length ≤
      s.kmem.length + 513 + loadNeed (loadHeaders file elf.phnum.toNat elf.phoff) := by
  obtain ⟨⟨o, y⟩, hset, ⟨-, hspec⟩, hloaded⟩ :=
    ((setupkvm_spec hx).weaken.and (setupkvm_loaded file hx hn)).exists_ok
  obtain ⟨d, ho, hk, hno⟩ := hspec.resolve_left fun h => by omega
  dsimp only at ho hk hloaded
  subst ho
  obtain ⟨d', hd', -, hl⟩ := hloaded.resolve_left fun h => by cases h.1
  obtain rfl := some.inj hd'
  have hcard := congrArg Multiset.card hk
  have hd := hno.card_pages
  rw [Multiset.card_add, Multiset.coe_card, Multiset.coe_card] at hcard
  obtain ⟨sz, s, hrun, hlen⟩ := loadSegs_some _ _ 0 ⟨y, d⟩ hl.wf hl.lt hl.contig hread hacc
    (by dsimp only; omega)
  dsimp only at hlen
  refine ⟨sz, s, ?_, by omega⟩
  rw [load, helf]
  dsimp only
  rw [if_neg (not_not.2 hmagic), hset, ok_bind]
  dsimp only
  rw [hrun, ok_bind]

/-- Where the loading of the program ends. Nothing but free pages has changed. -/
theorem load_contents {x : Phys} (hx : ∀ pg ∈ x.kmem, k.Valid pg) (hn : x.kmem.Nodup)
    (file : Contents) : Outcome (load k file x) (fun _ => False) fun r =>
      match r with
      | .bad none y => (y.kmem : Multiset ℕ) = x.kmem ∧
        ∀ pg, pg % 4096 = 0 → pg ∉ x.kmem → SamePage pg x.mem y.mem
      | .bad (some d) y => From x ⟨y, d⟩
      | .image elf sz s => From x s ∧ readElf file = some elf ∧ elf.magic = ELF_MAGIC ∧
        Loaded k file (loadHeaders file elf.phnum.toNat elf.phoff) sz s ∧
        ∀ i < elf.phnum.toNat, (readProghdr file (elf.phoff + 32 * .ofNat i)).isSome := by
  unfold load
  cases helf : readElf file with
  | none => exact outcome_ok ⟨rfl, fun pg _ _ => .refl pg _⟩
  | some elf =>
    dsimp only
    split_ifs with hmagic
    · exact outcome_ok ⟨rfl, fun pg _ _ => .refl pg _⟩
    refine (setupkvm_loaded file hx hn).bind ?_
    rintro ⟨o, y⟩ (⟨rfl, hk, hsame⟩ | ⟨d, rfl, hfrom, hl⟩)
    · exact outcome_ok ⟨hk, hsame⟩
    · refine (loadSegs_contents hx hn _ _ 0 _ [] hfrom hl).bind ?_
      rintro ⟨r, s⟩ ⟨hs, hr⟩
      cases r with
      | none => exact outcome_ok hs
      | some sz =>
        obtain ⟨hl', hall⟩ := hr sz rfl
        exact outcome_ok ⟨hs, rfl, not_not.1 hmagic, hl', hall⟩

end Xv6.Vm
