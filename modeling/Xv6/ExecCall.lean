import Xv6.ExecArgs

/-!
# exec as a whole

`exec` loads what its file describes or leaves the process as it was (`exec_loads`), and a program
finds its arguments on its stack (`exec_arguments`).
-/

namespace Xv6.Vm

open Function Ram Store List

variable {k : Kernel} {x y : Phys} {d : Pgdir} {proc : Process}

/-- The same pages are free as before, and no other page has changed. -/
structure Restored (x y : Phys) : Prop where
  kmem : (y.kmem : Multiset ℕ) = x.kmem
  same : ∀ pg, pg % 4096 = 0 → pg ∉ x.kmem → SamePage pg x.mem y.mem

theorem freevm_restored (hx : ∀ pg ∈ x.kmem, k.Valid pg) (h : From x ⟨y, d⟩) :
    Outcome (Store.freevm k ⟨y, d⟩) (fun _ => False) (Restored x) := by
  have hgood : (space ⟨y, d⟩).Good k := fun pg hpg => hx pg (h.mem hpg)
  refine (freevm_spec hgood).imp ?_
  rintro z ⟨hsame, hkmem⟩
  refine ⟨hkmem.trans h.pages, fun pg hpg hnot => (h.same pg hpg hnot).trans (hsame pg hpg ?_)⟩
  rw [h.pages]
  exact hnot

/-- The result of an `exec` that fails. -/
structure Failed (x : Phys) (proc : Process) (calls : List FsCall) (r : Executed) : Prop where
  ok : r.ok = false
  proc : r.proc = proc
  phys : Restored x r.phys
  calls : r.calls = calls

theorem bad_spec (hx : ∀ pg ∈ x.kmem, k.Valid pg) (h : From x ⟨y, d⟩) (ip : Bool)
    (calls : List FsCall) :
    Outcome (bad k (some d) ip proc y calls) (fun _ => False)
      (Failed x proc (if ip then calls ++ [.iunlockput, .endOp] else calls)) := by
  unfold bad
  exact (freevm_restored hx h).bind fun z hz => outcome_ok ⟨rfl, rfl, hz, rfl⟩

/-- The result of an `exec` that succeeds. -/
structure Succeeded (k : Kernel) (x : Phys) (d : Pgdir) (file : Contents) (path : CString)
    (argv : List CString) (elf : Elf) (sz : ℕ) (s : Store) (ptrs : List UInt32) (r : Executed) :
    Prop where
  ok : r.ok = true
  load : load k file x = .ok (.image elf sz s)
  name : r.proc.name = lastElem path.chars
  eip : r.proc.eip = elf.entry
  built : StackBuilt k s ⟨r.phys, r.proc.pgdir⟩ sz r.proc.sz r.proc.esp argv ptrs
  pages : (space ⟨r.phys, r.proc.pgdir⟩).pages = (x.kmem : Multiset ℕ) + d.pages

/-- The old address space is freed. -/
theorem freevm_old {s : Store} (hs : Wf k ⟨x, d⟩) (h : From x s) :
    Outcome (Store.freevm k ⟨s.toPhys, d⟩) (fun _ => False) fun z =>
      Wf k ⟨z, s.pgdir⟩ ∧ (∀ va, byte ⟨z, s.pgdir⟩ va = s.byte va) ∧
        (space ⟨z, s.pgdir⟩).pages = (x.kmem : Multiset ℕ) + d.pages := by
  have hall : s.space.pages + d.pages = (space ⟨x, d⟩).pages := by
    rw [h.pages]
    rfl
  have hpages : (space ⟨s.toPhys, d⟩).pages + s.pgdir.pages = (space ⟨x, d⟩).pages := by
    rw [← hall, Store.space, Space.pages, Store.space, Space.pages]
    exact add_right_comm _ _ _
  have hgood : (space ⟨s.toPhys, d⟩).Good k := fun pg hpg => hs.good pg (by
    rw [← hpages]
    exact Multiset.mem_add.2 (.inl hpg))
  have hnodup := hs.nodup
  rw [← hpages] at hnodup
  have hwf : s.Wf k := by
    refine ⟨fun pg hpg => hs.good pg ?_, ?_⟩
    · rw [← hall]
      exact Multiset.mem_add.2 (.inl hpg)
    · have hnodup' := hs.nodup
      rw [← hall] at hnodup'
      exact (Multiset.nodup_add.1 hnodup').1
  refine (freevm_spec hgood).imp ?_
  rintro z ⟨hsame, hkmem⟩
  have hnew : (space ⟨z, s.pgdir⟩).pages = (space ⟨x, d⟩).pages := by
    rw [← hpages, ← hkmem]
    rfl
  refine ⟨hs.congr hnew, fun va => ?_, hnew⟩
  by_cases hva : va < KERNBASE
  · have hk := lt_of_le_of_lt (pgrounddown_le va) hva
    refine byte_congr rfl fun e he => hsame e.pa (hwf.entry_mod he hk) fun hmem => ?_
    exact Multiset.disjoint_left.1 (Multiset.nodup_add.1 hnodup).2.2 hmem
      (entry_mem_pages he hk)
  · rw [byte_of_not_lt hva, byte_of_not_lt hva]

/-- What `exec` calls between `namei` and the end. -/
def fsCalls (file : Option Contents) : List FsCall :=
  if file.isSome then [.beginOp, .ilock, .iunlockput, .endOp] else [.beginOp, .endOp]

/-- `exec` fails and leaves everything as it was, or the process gets a new address space. It can
only follow a null pointer for a string that is not shorter than this. -/
theorem exec_spec (hs : Wf k ⟨x, proc.pgdir⟩) (null : Pte) (file : Option Contents)
    (path : CString) (argv : List CString) :
    Outcome (proc.exec k null file path argv x)
      (fun f => f = .null ∧ ∃ data elf sz s, file = some data ∧
        load k data x = .ok (.image elf sz s) ∧
        ∃ arg ∈ argv, PGROUNDUP sz + 2 * PGSIZE ≤ arg.chars.length) fun r =>
      Failed x proc (fsCalls file) r ∨ (r.calls = fsCalls file ∧
        ∃ data elf sz s ptrs, file = some data ∧
          Succeeded k x proc.pgdir data path argv elf sz s ptrs r) := by
  have hx : ∀ pg ∈ x.kmem, k.Valid pg := fun pg hpg => hs.good pg (Multiset.mem_add.2 (.inl hpg))
  have hn : x.kmem.Nodup := (Multiset.nodup_add.1 hs.nodup).1
  unfold Process.exec
  cases file with
  | none => exact outcome_ok (.inl ⟨rfl, rfl, ⟨rfl, fun pg _ _ => .refl pg _⟩, rfl⟩)
  | some data =>
    obtain ⟨l, hload, hl⟩ := (load_contents hx hn data).exists_ok
    dsimp only
    rw [hload, ok_bind]
    cases l with
    | bad o y =>
      cases o with
      | none => exact outcome_ok (.inl ⟨rfl, rfl, ⟨hl.1, hl.2⟩, rfl⟩)
      | some d =>
        exact (bad_spec hx hl true [.beginOp, .ilock]).weaken.imp fun r hr => .inl hr
    | image elf sz s =>
      obtain ⟨hfrom, -, -, hloaded, -⟩ := hl
      refine ((buildStack_spec null argv hx hn hfrom hloaded).mono ?_ fun _ h => h).bind ?_
      · rintro f ⟨hf, harg⟩
        exact ⟨hf, data, elf, sz, s, rfl, hload, harg⟩
      rintro ⟨o, t⟩ ⟨hfrom', hbuilt, -⟩
      dsimp only at hfrom' hbuilt
      cases o with
      | none => exact (bad_spec hx hfrom' false _).weaken.imp fun r hr => .inl hr
      | some q =>
        obtain ⟨ptrs, hq⟩ := hbuilt q rfl
        refine (freevm_old hs hfrom').weaken.bind fun z hz => outcome_ok (.inr ⟨rfl, ?_⟩)
        exact ⟨data, elf, sz, s, ptrs, rfl, rfl, hload, rfl, rfl, hq.congr hz.1 rfl hz.2.1, hz.2.2⟩

/-- `exec` succeeds if the file can be loaded, there is enough memory and the arguments fit. -/
theorem exec_some {data : Contents} {elf : Elf} {sz : ℕ} {s : Store} (proc : Process)
    (argv : List CString) (hs : Wf k ⟨x, proc.pgdir⟩)
    (hload : load k data x = .ok (.image elf sz s)) (hsz : PGROUNDUP sz + 2 * PGSIZE < KERNBASE)
    (hroom : 6 ≤ s.kmem.length) (hfits : stackSize argv ≤ PGSIZE) (hargs : argv.length ≤ MAXARG)
    (null : Pte) (path : CString) :
    ∃ r, proc.exec k null (some data) path argv x = .ok r ∧ r.ok = true := by
  have hx : ∀ pg ∈ x.kmem, k.Valid pg := fun pg hpg => hs.good pg (Multiset.mem_add.2 (.inl hpg))
  have hn : x.kmem.Nodup := (Multiset.nodup_add.1 hs.nodup).1
  obtain ⟨hfrom, -, -, hloaded, -⟩ := (load_contents hx hn data).of_ok hload
  have hshort : ∀ arg ∈ argv, arg.chars.length < PGROUNDUP sz + 2 * PGSIZE := fun arg harg => by
    have := single_le_sum (fun _ _ => Nat.zero_le _) _
      (mem_map_of_mem (f := CString.room) harg)
    have := length_le_room arg
    simp only [stackSize, length_append, length_singleton] at *
    omega
  obtain ⟨⟨o, t⟩, hbuild, hfrom', -, hsome⟩ := ((buildStack_spec null argv hx hn hfrom hloaded).mono
    (fun f hf => by
      obtain ⟨-, arg, harg, hlong⟩ := hf
      exact absurd (hshort arg harg) (not_lt.2 hlong)) fun _ h => h).exists_ok
  obtain ⟨q, rfl⟩ := Option.isSome_iff_exists.1 (hsome hsz hroom hfits hargs)
  obtain ⟨z, hz, -⟩ := (freevm_old hs hfrom').exists_ok
  refine ⟨⟨true, ⟨t.pgdir, q.1, lastElem path.chars, elf.entry, q.2⟩, z,
    [.beginOp, .ilock, .iunlockput, .endOp]⟩, ?_, rfl⟩
  simp only [Process.exec, hload, ok_bind, hbuild, hz]

/-- `exec` does not panic before it pushes the arguments. A program that is loaded is described by
acceptable headers, its size is the largest end of a segment, and every byte is that of the last
segment that covers it, or 0. If `exec` fails the process and its memory are as before. The calls
of `begin_op` and `end_op`, and of `ilock` and `iunlockput`, are always matched. -/
theorem exec_loads (proc : Process) (hs : Wf k ⟨x, proc.pgdir⟩) (null : Pte)
    (file : Option Contents)
    (path : CString) (argv : List CString) :
    (∀ data, file = some data → ∃ l, load k data x = .ok l ∧ ∀ elf sz s, l = .image elf sz s →
      (∀ i < elf.phnum.toNat, (readProghdr data (elf.phoff + 32 * .ofNat i)).isSome) ∧
      (∀ ph ∈ loadHeaders data elf.phnum.toNat elf.phoff, ph.Acceptable data) ∧
      sz = imageSize (loadHeaders data elf.phnum.toNat elf.phoff) ∧
      (∀ va < PGROUNDUP sz,
        s.byte va = some (imageByte data (loadHeaders data elf.phnum.toNat elf.phoff) va)) ∧
      ∃ r, s.allocStack k sz = .ok r) ∧
    (∀ r, proc.exec k null file path argv x = .ok r →
      (r.ok = false → r.proc = proc ∧
        ∀ va, byte ⟨r.phys, proc.pgdir⟩ va = byte ⟨x, proc.pgdir⟩ va) ∧
      r.calls = fsCalls file) ∧
    ∀ f, proc.exec k null file path argv x = .error f → f = .null := by
  have hx : ∀ pg ∈ x.kmem, k.Valid pg := fun pg hpg => hs.good pg (Multiset.mem_add.2 (.inl hpg))
  have hn : x.kmem.Nodup := (Multiset.nodup_add.1 hs.nodup).1
  have hspec := exec_spec hs null file path argv
  refine ⟨fun data _ => ?_, fun r hr => ?_, fun f hf => ?_⟩
  · obtain ⟨l, hload, hl⟩ := (load_contents hx hn data).exists_ok
    refine ⟨l, hload, ?_⟩
    rintro elf sz s rfl
    obtain ⟨hfrom, -, -, hloaded, hall⟩ := hl
    obtain ⟨r, hr, -⟩ := (allocStack_spec hx hn hfrom hloaded).exists_ok
    exact ⟨hall, hloaded.acceptable, hloaded.size, hloaded.byte, r, hr⟩
  · rcases hspec.of_ok hr with hfail | ⟨hcalls, data, elf, sz, s, ptrs, -, hok⟩
    · exact ⟨fun _ => ⟨hfail.proc, byte_of_same hs hfail.phys.same⟩, hfail.calls⟩
    · refine ⟨fun h => ?_, hcalls⟩
      rw [hok.ok] at h
      cases h
  · rw [hf, outcome_error_iff] at hspec
    exact hspec.1

/-- A program with one segment, of which 7 of 16 bytes are in the file. -/
def tinyProgram : Contents where
  bytes := leWords [ELF_MAGIC.toNat, 0, 0, 0, 0x00030002, 1, 0, 52, 0, 0, 0x00200034, 1, 0] ++
    leWords [1, 84, 0, 0, 7, 16, 7, 4096] ++ [1, 2, 3, 4, 5, 6, 7]
  lt := by decide

def tinyElf : Elf := ⟨ELF_MAGIC, 0, 52, 1⟩

def tinySegment : Segment := ⟨1, 84, 0, 7, 16⟩

theorem loadHeaders_tiny : loadHeaders tinyProgram 1 52 = [tinySegment] := by
  rfl

theorem load_tiny (hx : ∀ pg ∈ x.kmem, k.Valid pg) (hn : x.kmem.Nodup)
    (hroom : 516 ≤ x.kmem.length) : ∃ s, load k tinyProgram x = .ok (.image tinyElf 16 s) ∧
      x.kmem.length ≤ s.kmem.length + 515 := by
  have hhead : loadHeaders tinyProgram tinyElf.phnum.toNat tinyElf.phoff = [tinySegment] :=
    loadHeaders_tiny
  have helf : readElf tinyProgram = some tinyElf := rfl
  obtain ⟨sz, s, hload, hlen⟩ := load_some hx hn helf rfl (fun i hi => by
    obtain rfl : i = 0 := Nat.lt_one_iff.1 hi
    rfl) (fun ph hph => by
    rw [hhead, mem_singleton] at hph
    subst hph
    exact ⟨⟨by decide, by decide, by decide, .inr (by decide)⟩, by decide⟩) (by
    rw [hhead]
    exact hroom)
  obtain ⟨-, -, -, hloaded, -⟩ := (load_contents hx hn tinyProgram).of_ok hload
  have hsz : sz = 16 := hloaded.size
  exact ⟨s, hsz ▸ hload, hlen⟩

/-- The first process executes a program. The pages that are free hold other bytes before. -/
theorem exec_loads_init : ∃ s c t, Sys.usualMain = .ok s ∧
    s.proc Ptable.initproc = some c ∧
    load Sys.usualKernel tinyProgram ⟨s.kmem, fun _ => 9⟩ = .ok (.image tinyElf 16 t) ∧
    t.byte 0 = some 1 ∧ t.byte 6 = some 7 ∧ t.byte 7 = some 0 ∧ t.byte 4095 = some 0 := by
  obtain ⟨s, c, h, hinv, -, hp, -, -, hlen, -⟩ := Sys.exists_main
  have hs := hinv.wf hp fun _ => 9
  obtain ⟨hall, -, -⟩ := exec_loads ⟨c.pgdir, c.sz, [], 0, 0⟩ hs .zero (some tinyProgram)
    ⟨[], not_mem_nil, by decide⟩ []
  obtain ⟨t, hload, -⟩ := load_tiny (x := ⟨s.kmem, fun _ => 9⟩)
    (fun pg hpg => hs.good pg (Multiset.mem_add.2 (.inl hpg)))
    (Multiset.nodup_add.1 hs.nodup).1 (by dsimp only; omega)
  obtain ⟨l, hl, himage⟩ := hall _ rfl
  obtain rfl := Except.ok.inj (hload.symm.trans hl)
  obtain ⟨-, -, -, hbyte, -⟩ := himage _ _ _ rfl
  exact ⟨s, c, t, h, hp, hload, hbyte 0 (by decide), hbyte 6 (by decide),
    hbyte 7 (by decide), hbyte 4095 (by decide)⟩

/-- If `exec` succeeds, the arguments are on the stack of the new address space, in its last page,
and the page below that, which is not for the user, and the image are as they were before. If the
arguments do not fit, `exec` fails, if no string is as long as the new address space. -/
theorem exec_arguments (proc : Process) (hs : Wf k ⟨x, proc.pgdir⟩) (null : Pte)
    (file : Option Contents)
    (path : CString) (argv : List CString) :
    (∀ r, proc.exec k null file path argv x = .ok r → r.ok = true →
      ∃ data elf sz s ptrs, file = some data ∧ load k data x = .ok (.image elf sz s) ∧
        r.proc.sz = PGROUNDUP sz + 2 * PGSIZE ∧
        Arguments ⟨r.phys, r.proc.pgdir⟩ r.proc.sz r.proc.esp argv ptrs ∧
        (∃ e, r.proc.pgdir.entry (PGROUNDUP sz + PGSIZE) = some e ∧ e.u = true) ∧
        (∃ e, r.proc.pgdir.entry (PGROUNDUP sz) = some e ∧ e.u = false) ∧
        (∀ va < PGROUNDUP sz, byte ⟨r.phys, r.proc.pgdir⟩ va = s.byte va) ∧
        ∀ va, PGROUNDUP sz ≤ va → va < PGROUNDUP sz + PGSIZE →
          byte ⟨r.phys, r.proc.pgdir⟩ va = some 0) ∧
    (PGSIZE < stackSize argv →
      (∀ data elf sz s, file = some data → load k data x = .ok (.image elf sz s) →
        ∀ arg ∈ argv, arg.chars.length < PGROUNDUP sz + 2 * PGSIZE) →
      ∃ r, proc.exec k null file path argv x = .ok r ∧ r.ok = false) := by
  have hspec := exec_spec hs null file path argv
  constructor
  · intro r hr hok
    rcases hspec.of_ok hr with hfail | ⟨-, data, elf, sz, s, ptrs, hfile, h⟩
    · rw [hfail.ok] at hok
      cases hok
    have hb := h.built
    have hstack := hb.stack
    have hsize := hb.size
    have hstack' := hstack.stack
    have hguard' := hstack.guard
    simp only [PGSIZE] at hsize
    rw [show r.proc.sz - 4096 = PGROUNDUP sz + 4096 by omega] at hstack'
    rw [show r.proc.sz - 8192 = PGROUNDUP sz by omega] at hguard'
    exact ⟨data, elf, sz, s, ptrs, hfile, h.load, hb.size, hb.arguments, hstack', hguard', hb.old,
      hb.guard⟩
  · intro hbig hshort
    obtain ⟨r, hr, hq⟩ := (hspec.mono (fun f hf => by
      obtain ⟨-, data, elf, sz, s, hfile, hload, arg, harg, hlong⟩ := hf
      have := hshort data elf sz s hfile hload arg harg
      omega) fun _ h => h).exists_ok
    refine ⟨r, hr, ?_⟩
    rcases hq with hfail | ⟨-, data, elf, sz, s, ptrs, -, h⟩
    · exact hfail.ok
    · have := h.built.fits
      omega

/-- 4096 times the same byte. -/
def longString : CString where
  chars := List.replicate 4096 97
  no_nul h := absurd (eq_of_mem_replicate h) (by decide)
  lt := by
    rw [length_replicate]
    decide

/-- The string "hi". -/
def shortString : CString := ⟨[104, 105], by decide, by decide⟩

/-- The first process executes a program with an argument that fits, and with one that does not. -/
theorem exec_arguments_init : ∃ s c, Sys.usualMain = .ok s ∧
    s.proc Ptable.initproc = some c ∧
    (∃ (r : Executed) (p : UInt32), Process.exec Sys.usualKernel .zero (some tinyProgram)
      ⟨[], not_mem_nil, by decide⟩ [shortString] ⟨c.pgdir, c.sz, [], 0, 0⟩
      ⟨s.kmem, fun _ => 9⟩ = .ok r ∧ r.ok = true ∧ r.proc.sz = 12288 ∧
      8192 ≤ p.toNat ∧ p.toNat + 3 ≤ 12288 ∧
      byte ⟨r.phys, r.proc.pgdir⟩ p.toNat = some 104 ∧
      byte ⟨r.phys, r.proc.pgdir⟩ (p.toNat + 1) = some 105 ∧
      byte ⟨r.phys, r.proc.pgdir⟩ (p.toNat + 2) = some 0) ∧
    ∃ r, Process.exec Sys.usualKernel .zero (some tinyProgram)
      ⟨[], not_mem_nil, by decide⟩ [longString] ⟨c.pgdir, c.sz, [], 0, 0⟩
      ⟨s.kmem, fun _ => 9⟩ = .ok r ∧ r.ok = false := by
  obtain ⟨s, c, h, hinv, -, hp, -, -, hlen, -⟩ := Sys.exists_main
  have hs := hinv.wf hp fun _ => 9
  obtain ⟨t, hload, hroom⟩ := load_tiny (x := ⟨s.kmem, fun _ => 9⟩)
    (fun pg hpg => hs.good pg (Multiset.mem_add.2 (.inl hpg)))
    (Multiset.nodup_add.1 hs.nodup).1 (by dsimp only; omega)
  refine ⟨s, c, h, hp, ?_, ?_⟩
  · obtain ⟨r, hr, hok⟩ := exec_some ⟨c.pgdir, c.sz, [], 0, 0⟩ [shortString] hs hload
      (by decide) (by dsimp only at hroom; omega) (by decide) (by decide) .zero
      ⟨[], not_mem_nil, by decide⟩
    obtain ⟨data, elf, sz, t', ptrs, hdata, hload', hrsz, hargs, -⟩ :=
      (exec_arguments ⟨c.pgdir, c.sz, [], 0, 0⟩ hs .zero (some tinyProgram)
        ⟨[], not_mem_nil, by decide⟩ [shortString]).1 r hr hok
    obtain rfl := Option.some.inj hdata
    obtain ⟨-, hsz, -⟩ := Loading.image.inj (Except.ok.inj (hload.symm.trans hload'))
    subst hsz
    obtain ⟨p, hptrs⟩ := length_eq_one_iff.1 hargs.length
    obtain ⟨hholds, hge, hle⟩ := hargs.string 0 shortString p rfl (by rw [hptrs]; rfl)
    have hpage := hargs.le
    have hrsz : r.proc.sz = 12288 := hrsz
    rw [hrsz] at hle hpage
    simp only [PGSIZE] at hpage
    exact ⟨r, p, hr, hok, hrsz, by omega, hle, hholds 0 (by decide), hholds 1 (by decide),
      hholds 2 (by decide)⟩
  · refine (exec_arguments ⟨c.pgdir, c.sz, [], 0, 0⟩ hs .zero (some tinyProgram) _ _).2 ?_
      fun data elf sz t _ _ arg harg => ?_
    · simp only [stackSize, map_cons, map_nil, sum_cons, sum_nil,
        CString.room, longString, length_replicate, length_cons, length_nil]
      decide
    · rw [mem_singleton.1 harg, longString, length_replicate]
      simp only [PGSIZE]
      omega

end Xv6.Vm
