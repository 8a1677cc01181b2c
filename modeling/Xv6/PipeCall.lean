import Xv6.FileRefs

/-!
# The pipe call

`sys_pipe` takes two files, a page and two file descriptors, and any of the five may fail. Here
the call is written with the descriptors that it stores and with the function that closes a
file as an argument, so that it can be run with a `fileclose` that stops where `pipeclose` would
be called for a page that is no pipe (`filecloseChecked`).

`pipe_all_or_nothing` is the result : a call that returns -1 has released everything, and one
that returns 0 has made one pipe.
-/

set_option linter.unusedSectionVars false

namespace Xv6.Ftable

open Function Fs Ptable List

/-- A panic of `file.c`, or `pipeclose` for a page that is not in use for a pipe. -/
inductive Fault where
  | panic (e : Panic)
  | noPipe

namespace Sys

variable {Pg : Type} [DecidableEq Pg] {ε : Type}

/-- `fileclose`, unless it calls `pipeclose` for a page that is no pipe. -/
def filecloseChecked (s : Sys Pg) (f : FileId) : Except Fault (Sys Pg) :=
  let ff := s.file f
  if ff.ref = 1 ∧ ff.type = .pipe ∧ (ff.pipe.bind s.pipe).isNone then .error .noPipe
  else (s.fileclose f).mapError .panic

/-- A page becomes a pipe, and two files its ends. -/
def pipeEnds (s : Sys Pg) (f0 f1 : FileId) (pg : Pg) : Sys Pg :=
  let s := { s with pipe := update s.pipe pg (some ⟨true, true⟩) }
  let s := s.setFile f0
    { s.file f0 with type := .pipe, readable := true, writable := false, pipe := some pg }
  s.setFile f1
    { s.file f1 with type := .pipe, readable := false, writable := true, pipe := some pg }

/-- `pipealloc`, with a function that closes a file. -/
def pipeallocBy (close : Sys Pg → FileId → Except ε (Sys Pg)) (s : Sys Pg) :
    Except ε (Option (FileId × FileId) × Sys Pg) :=
  match s.filealloc with
  | none => .ok (none, s)
  | some (f0, s) =>
    match s.filealloc with
    | none => do
      let s ← close s f0
      .ok (none, s)
    | some (f1, s) =>
      match s.kalloc with
      | none => do
        let s ← close s f0
        let s ← close s f1
        .ok (none, s)
      | some (pg, s) => .ok (some (f0, f1), s.pipeEnds f0 f1 pg)

/-- `sys_pipe` after its argument, with `fd[0]` and `fd[1]` unless it returns -1. -/
def pipeFds (close : Sys Pg → FileId → Except ε (Sys Pg)) (s : Sys Pg) (p : ProcId) :
    Except ε (Option (Fd × Fd) × Sys Pg) := do
  let (r, s) ← s.pipeallocBy close
  match r with
  | none => .ok (none, s)
  | some (rf, wf) =>
    match s.fdalloc p rf with
    | none => do
      let s ← close s rf
      let s ← close s wf
      .ok (none, s)
    | some (fd0, s) =>
      match s.fdalloc p wf with
      | none => do
        let s := s.setFd p fd0 none
        let s ← close s rf
        let s ← close s wf
        .ok (none, s)
      | some (fd1, s) => .ok (some (fd0, fd1), s)

variable {s t : Sys Pg} {f : FileId} {p : ProcId} {pg : Pg} {mem : List Pg}

/-- The call is that of the file table. -/
theorem sysPipe_eq (s : Sys Pg) (p : ProcId) :
    s.sysPipe p true =
      (s.pipeFds fileclose p).map fun r => (if r.1.isSome then 0 else -1, r.2) := by
  have hpipe : s.pipeallocBy fileclose = s.pipealloc := rfl
  rw [sysPipe, if_pos rfl, pipeFds, hpipe]
  cases s.pipealloc with
  | error e => rfl
  | ok r =>
    obtain ⟨r, s⟩ := r
    match r with
    | none => rfl
    | some (rf, wf) =>
      have hclose : ∀ s : Sys Pg,
          (s.fileclose rf >>= fun s => s.fileclose wf >>= fun s => .ok ((-1 : ℤ), s)) =
          (s.fileclose rf >>= fun s => s.fileclose wf >>= fun s =>
            .ok ((none : Option (Fd × Fd)), s)).map
              fun r => (if r.1.isSome then 0 else -1, r.2) := by
        intro s
        cases s.fileclose rf with
        | error e => rfl
        | ok s =>
          change (s.fileclose wf >>= _) = (s.fileclose wf >>= _).map _
          cases s.fileclose wf <;> rfl
      rw [ok_bind, ok_bind]
      dsimp only
      cases s.fdalloc p rf with
      | none => exact hclose s
      | some r =>
        obtain ⟨fd0, s⟩ := r
        dsimp only
        cases s.fdalloc p wf with
        | none => exact hclose _
        | some r => rfl

/-- The entry of a file that has been closed. -/
def closed (x : File Pg) : File Pg := { x with ref := 0, type := .none }

/-- What is used of a function that closes files : it drops the last reference to a file that
is nothing yet, or to an end of a pipe that is there. -/
structure Closes (close : Sys Pg → FileId → Except ε (Sys Pg)) : Prop where
  plain : ∀ {s f}, (s.file f).ref = 1 → (s.file f).type = .none →
    close s f = .ok (s.setFile f (closed (s.file f)))
  ends : ∀ {s f pg w e}, (s.file f).ref = 1 → (s.file f).Is pg w → s.pipe pg = some e →
    close s f = .ok ((s.setFile f (closed (s.file f))).pipeclose pg w)

theorem closes_fileclose : Closes (fileclose : Sys Pg → FileId → Except Panic (Sys Pg)) where
  plain {s f} hr ht := by
    rw [fileclose]
    dsimp only
    rw [if_neg (by omega), if_neg (by omega), ht]
    rfl
  ends {s f pg w e} hr hf _ := by
    rw [fileclose]
    dsimp only
    rw [if_neg (by omega), if_neg (by omega), closed, hf.type, hf.pipe, hf.writable]

theorem closes_filecloseChecked :
    Closes (filecloseChecked : Sys Pg → FileId → Except Fault (Sys Pg)) where
  plain {s f} hr ht := by
    rw [filecloseChecked, if_neg (fun h => by rw [ht] at h; cases h.2.1),
      closes_fileclose.plain hr ht]
    rfl
  ends {s f pg w e} hr hf he := by
    rw [filecloseChecked, if_neg (fun h => ?_), closes_fileclose.ends hr hf he]
    · rfl
    · rw [hf.pipe, Option.bind_some, he] at h
      cases h.2.2

/-- Nothing has been taken but the files in `held`. -/
structure Released (s t : Sys Pg) (held : List FileId) : Prop where
  ofile : t.ofile = s.ofile
  file : ∀ f ∉ held, (t.file f).ref = (s.file f).ref ∧ (t.file f).type = (s.file f).type
  kmem : t.kmem = s.kmem
  pipe : t.pipe = s.pipe

variable {held : List FileId}

theorem Released.refl (s : Sys Pg) : Released s s [] := ⟨rfl, fun _ _ => ⟨rfl, rfl⟩, rfl, rfl⟩

/-- A file is changed. -/
theorem Released.set (h : Released s t held) (f : FileId) (x : File Pg) :
    Released s (t.setFile f x) (f :: held) := by
  refine { h with file := fun g hg => ?_ }
  rw [mem_cons, not_or] at hg
  rw [file_setFile_of_ne _ hg.1]
  exact h.file g hg.2

/-- A file that was free is closed. -/
theorem Released.close {x : File Pg} (h : Released s t held) (hf : (s.file f).ref = 0)
    (ht : (s.file f).type = .none) : Released s (t.setFile f (closed x)) (held.erase f) := by
  refine { h with file := fun g hg => ?_ }
  by_cases hgf : g = f
  · subst hgf
    rw [file_setFile, hf, ht]
    exact ⟨rfl, rfl⟩
  · rw [file_setFile_of_ne _ hgf]
    exact h.file g fun hmem => hg ((mem_erase_of_ne hgf).2 hmem)

/-- Both ends of a pipe are closed. -/
theorem Closes.both {close : Sys Pg → FileId → Except ε (Sys Pg)} (h : Closes close)
    {rf wf : FileId} (hne : rf ≠ wf) (hr : (s.file rf).ref = 1) (hw : (s.file wf).ref = 1)
    (hrf : (s.file rf).Is pg false) (hwf : (s.file wf).Is pg true)
    (hp : s.pipe pg = some ⟨true, true⟩) :
    (close s rf >>= fun s => close s wf) = .ok { s with
      file := update (update s.file rf (Sys.closed (s.file rf))) wf (Sys.closed (s.file wf))
      pipe := update s.pipe pg none
      kmem := pg :: s.kmem } := by
  obtain ⟨u, hu⟩ : ∃ u : Sys Pg, u = { s.setFile rf (Sys.closed (s.file rf)) with
      pipe := update s.pipe pg (some ⟨false, true⟩) } := ⟨_, rfl⟩
  have hfirst : close s rf = .ok u := by
    rw [h.ends hr hrf hp, pipeclose_of_some (s := s.setFile rf _) hp, if_pos ⟨true, rfl⟩, hu]
    rfl
  have hfile : u.file wf = s.file wf := by
    rw [hu]
    exact update_of_ne hne.symm ..
  have hpipe : u.pipe pg = some ⟨false, true⟩ := by
    rw [hu]
    exact update_self ..
  rw [← hfile] at hw hwf
  rw [hfirst, ok_bind, h.ends hw hwf hpipe, pipeclose_of_some (s := u.setFile wf _) hpipe,
    if_neg (by decide), hfile, hu]
  simp only [setFile, update_idem]

/-- Two files that were free have become the ends of a page that was free. -/
structure Piped (s t : Sys Pg) (rf wf : FileId) (pg : Pg) : Prop where
  unused : rf ≠ wf ∧ (s.file rf).ref = 0 ∧ (s.file wf).ref = 0
  read : (t.file rf).Is pg false ∧ (t.file rf).readable = true ∧ (t.file rf).ref = 1
  write : (t.file wf).Is pg true ∧ (t.file wf).readable = false ∧ (t.file wf).ref = 1
  others : ∀ f, f ≠ rf → f ≠ wf → t.file f = s.file f
  ofile : t.ofile = s.ofile
  kmem : s.kmem = pg :: t.kmem
  pipe : t.pipe = update s.pipe pg (some ⟨true, true⟩)

theorem filealloc_eq_some (h : s.filealloc = some (f, t)) :
    (s.file f).ref = 0 ∧ t = s.setFile f { s.file f with ref := 1 } := by
  simp only [filealloc, Option.map_eq_some_iff, Prod.mk.injEq] at h
  obtain ⟨f, hf, rfl, rfl⟩ := h
  exact ⟨by simpa using List.find?_some hf, rfl⟩

/-- `pipealloc`, for every function that closes files. -/
theorem pipeallocBy_spec (hnone : ∀ f, (s.file f).ref = 0 → (s.file f).type = .none) :
    ∃ r t, (∀ (ε : Type) (close : Sys Pg → FileId → Except ε (Sys Pg)), Closes close →
        s.pipeallocBy close = .ok (r, t)) ∧
      match r with
      | none => Released s t []
      | some (rf, wf) => ∃ pg, Piped s t rf wf pg := by
  cases h₀ : s.filealloc with
  | none =>
    refine ⟨none, s, fun ε close _ => ?_, Released.refl s⟩
    rw [pipeallocBy, h₀]
  | some r₀ =>
    obtain ⟨f₀, s₀⟩ := r₀
    obtain ⟨hf₀, hs₀⟩ := filealloc_eq_some h₀
    have ht₀ := hnone f₀ hf₀
    have hheld₀ : Released s s₀ [f₀] := hs₀ ▸ (Released.refl s).set f₀ _
    have hfile₀ : s₀.file f₀ = { s.file f₀ with ref := 1 } := by rw [hs₀, file_setFile]
    cases h₁ : s₀.filealloc with
    | none =>
      have hrel := hheld₀.close (x := s₀.file f₀) hf₀ ht₀
      rw [erase_cons_head] at hrel
      refine ⟨none, _, fun ε close hclose => ?_, hrel⟩
      rw [pipeallocBy, h₀]
      dsimp only
      rw [h₁, hclose.plain (by rw [hfile₀]) (by rw [hfile₀]; exact ht₀)]
      rfl
    | some r₁ =>
      obtain ⟨f₁, s₁⟩ := r₁
      obtain ⟨hf₁', hs₁⟩ := filealloc_eq_some h₁
      have hne : f₀ ≠ f₁ := by
        rintro rfl
        rw [hfile₀] at hf₁'
        cases hf₁'
      have hsame : s₀.file f₁ = s.file f₁ := by rw [hs₀, file_setFile_of_ne _ hne.symm]
      have hf₁ : (s.file f₁).ref = 0 := hsame ▸ hf₁'
      have ht₁ := hnone f₁ hf₁
      have hheld₁ : Released s s₁ [f₁, f₀] := hs₁ ▸ hheld₀.set f₁ _
      have hfile₁ : s₁.file f₁ = { s.file f₁ with ref := 1 } := by rw [hs₁, file_setFile, hsame]
      have hfile₁' : s₁.file f₀ = { s.file f₀ with ref := 1 } := by
        rw [hs₁, file_setFile_of_ne _ hne, hfile₀]
      cases hk : s₁.kmem with
      | nil =>
        have hrel := (hheld₁.close (x := s₁.file f₀) hf₀ ht₀).close (x := s₁.file f₁) hf₁ ht₁
        have herase : ([f₁, f₀].erase f₀).erase f₁ = [] := by
          rw [erase_cons_tail (by simpa using hne.symm), erase_cons_head,
            erase_cons_head]
        rw [herase] at hrel
        refine ⟨none, _, fun ε close hclose => ?_, hrel⟩
        have hfile₂ : (s₁.setFile f₀ (closed (s₁.file f₀))).file f₁ = s₁.file f₁ :=
          file_setFile_of_ne _ hne.symm _
        rw [pipeallocBy, h₀]
        dsimp only
        rw [h₁]
        dsimp only
        rw [kalloc, hk]
        dsimp only
        rw [hclose.plain (by rw [hfile₁']) (by rw [hfile₁']; exact ht₀), ok_bind,
          hclose.plain (by rw [hfile₂, hfile₁]) (by rw [hfile₂, hfile₁]; exact ht₁), hfile₂]
        rfl
      | cons pg rest =>
        refine ⟨some (f₀, f₁), pipeEnds { s₁ with kmem := rest } f₀ f₁ pg, fun ε close _ => ?_, pg,
          ?_⟩
        · rw [pipeallocBy, h₀]
          dsimp only
          rw [h₁]
          dsimp only
          rw [kalloc, hk]
        · have hold : ∀ f ∉ [f₁, f₀], s₁.file f = s.file f := fun f hf => by
            simp only [mem_cons, not_mem_nil, or_false, not_or] at hf
            rw [hs₁, file_setFile_of_ne _ hf.1, hs₀, file_setFile_of_ne _ hf.2]
          refine ⟨⟨hne, hf₀, hf₁⟩, ?_, ?_, fun f hf hf' => ?_, hheld₁.ofile, ?_, ?_⟩
          · rw [pipeEnds, file_setFile_of_ne _ hne, file_setFile]
            exact ⟨⟨rfl, rfl, rfl⟩, rfl, congrArg File.ref hfile₁'⟩
          · rw [pipeEnds, file_setFile]
            refine ⟨⟨rfl, rfl, rfl⟩, rfl, ?_⟩
            rw [file_setFile_of_ne _ hne.symm]
            exact congrArg File.ref hfile₁
          · rw [pipeEnds, file_setFile_of_ne _ hf', file_setFile_of_ne _ hf]
            exact hold f (by simp [hf, hf'])
          · rw [← hheld₁.kmem, hk]
            rfl
          · rw [← hheld₁.pipe]
            rfl

/-- The ends of a new pipe are closed. -/
theorem Piped.close {rf wf : FileId} {u : Sys Pg} (h : Piped s t rf wf pg)
    (hnone : ∀ f, (s.file f).ref = 0 → (s.file f).type = .none) (hpg : s.pipe pg = none)
    (hu : u = { t with ofile := s.ofile }) :
    ∃ v, Released s v [] ∧ ∀ (ε : Type) (close : Sys Pg → FileId → Except ε (Sys Pg)),
      Closes close → (close u rf >>= fun s => close s wf) = .ok v := by
  obtain ⟨hne, hrf, hwf⟩ := h.unused
  subst hu
  refine ⟨_, ?_, fun ε close hclose => hclose.both (s := { t with ofile := s.ofile }) hne h.read.2.2
    h.write.2.2 h.read.1 h.write.1 (by rw [h.pipe]; exact update_self ..)⟩
  refine ⟨rfl, fun f _ => ?_, h.kmem.symm, ?_⟩
  · dsimp only
    by_cases hfw : f = wf
    · subst hfw
      rw [update_self, hwf, hnone f hwf]
      exact ⟨rfl, rfl⟩
    by_cases hfr : f = rf
    · subst hfr
      rw [update_of_ne hfw, update_self, hrf, hnone f hrf]
      exact ⟨rfl, rfl⟩
    · rw [update_of_ne hfw, update_of_ne hfr, h.others f hfr hfw]
      exact ⟨rfl, rfl⟩
  · dsimp only
    rw [h.pipe, update_idem, ← hpg, update_eq_self]

/-- One pipe has been made, with the descriptors `fd0` and `fd1` of process `p` for its ends. -/
structure Made (s t : Sys Pg) (p : ProcId) (fd0 fd1 : Fd) : Prop where
  ne : fd0 ≠ fd1
  free : s.ofile (p, fd0) = none ∧ s.ofile (p, fd1) = none
  pipe : ∃ rf wf pg, t.ofile = update (update s.ofile (p, fd0) (some rf)) (p, fd1) (some wf) ∧
    (rf ≠ wf ∧ (s.file rf).ref = 0 ∧ (s.file wf).ref = 0) ∧
    ((t.file rf).Is pg false ∧ (t.file rf).readable = true ∧ (t.file rf).ref = 1) ∧
    ((t.file wf).Is pg true ∧ (t.file wf).readable = false ∧ (t.file wf).ref = 1) ∧
    s.kmem = pg :: t.kmem ∧ s.pipe pg = none ∧ t.pipe pg = some ⟨true, true⟩

/-- The call, for every function that closes files. -/
theorem pipeFds_spec (hnone : ∀ f, (s.file f).ref = 0 → (s.file f).type = .none)
    (hfree : ∀ pg ∈ s.kmem, s.pipe pg = none) (p : ProcId) :
    ∃ r t, (∀ (ε : Type) (close : Sys Pg → FileId → Except ε (Sys Pg)), Closes close →
        s.pipeFds close p = .ok (r, t)) ∧
      match r with
      | none => Released s t []
      | some (fd0, fd1) => Made s t p fd0 fd1 := by
  obtain ⟨r, t, halloc, hr⟩ := pipeallocBy_spec hnone
  match r, hr with
  | none, hrel =>
    refine ⟨none, t, fun ε close hclose => ?_, hrel⟩
    rw [pipeFds, halloc ε close hclose]
    rfl
  | some (rf, wf), ⟨pg, hpiped⟩ =>
    have hpg : s.pipe pg = none := hfree pg (by rw [hpiped.kmem]; exact mem_cons_self)
    cases hd₀ : t.fdalloc p rf with
    | none =>
      obtain ⟨v, hrel, hv⟩ := hpiped.close (u := t) hnone hpg (by rw [← hpiped.ofile])
      refine ⟨none, v, fun ε close hclose => ?_, hrel⟩
      rw [pipeFds, halloc ε close hclose, ok_bind]
      dsimp only
      rw [hd₀]
      dsimp only
      rw [← bind_assoc, hv ε close hclose]
      rfl
    | some x =>
      obtain ⟨fd₀, t₀⟩ := x
      obtain ⟨rfl, hfd₀⟩ := fdalloc_eq_some hd₀
      cases hd₁ : (t.setFd p fd₀ (some rf)).fdalloc p wf with
      | none =>
        have hofile : update (update t.ofile (p, fd₀) (some rf)) (p, fd₀) none = s.ofile := by
          rw [update_idem, ← hfd₀, update_eq_self, hpiped.ofile]
        obtain ⟨v, hrel, hv⟩ := hpiped.close (u := (t.setFd p fd₀ (some rf)).setFd p fd₀ none)
          hnone hpg (by rw [← hofile]; rfl)
        refine ⟨none, v, fun ε close hclose => ?_, hrel⟩
        rw [pipeFds, halloc ε close hclose, ok_bind]
        dsimp only
        rw [hd₀]
        dsimp only
        rw [hd₁]
        dsimp only
        rw [← bind_assoc, hv ε close hclose]
        rfl
      | some x =>
        obtain ⟨fd₁, t₁⟩ := x
        obtain ⟨rfl, hfd₁⟩ := fdalloc_eq_some hd₁
        have hfd₁' : update t.ofile (p, fd₀) (some rf) (p, fd₁) = none := hfd₁
        have hne : fd₀ ≠ fd₁ := by
          rintro rfl
          rw [update_self] at hfd₁'
          cases hfd₁'
        rw [update_of_ne (fun h => hne (Prod.mk.inj h).2.symm)] at hfd₁'
        refine ⟨some (fd₀, fd₁), (t.setFd p fd₀ (some rf)).setFd p fd₁ (some wf),
          fun ε close hclose => ?_, hne, ⟨?_, ?_⟩, rf, wf, pg, ?_, hpiped.unused, hpiped.read,
          hpiped.write, hpiped.kmem, hpg, ?_⟩
        · rw [pipeFds, halloc ε close hclose, ok_bind]
          dsimp only
          rw [hd₀]
          dsimp only
          rw [hd₁]
        · rw [← hpiped.ofile, hfd₀]
        · rw [← hpiped.ofile, hfd₁']
        · rw [← hpiped.ofile]
          rfl
        · change t.pipe pg = _
          rw [hpiped.pipe, update_self]

/-- In every state that complete calls lead to, `sys_pipe` with a good argument returns -1 and
has released everything, or it returns 0 and has made one pipe; and no file that it closes is an
end of a pipe that is not there. -/
theorem pipe_all_or_nothing {as : List (Act Pg)} (hmem : mem.Nodup)
    (he : exec step (boot mem) as = some s) (p : ProcId) :
    ∃ r t, s.pipeFds filecloseChecked p = .ok (r, t) ∧
      s.sysPipe p true = .ok (if r.isSome then 0 else -1, t) ∧
      match r with
      | none => Released s t []
      | some (fd0, fd1) => Made s t p fd0 fd1 := by
  have h := inv_run hmem he
  obtain ⟨r, t, hcall, hr⟩ := pipeFds_spec h.ends.none
    (fun pg hpg => (h.pages.free pg (mem_append_left _ hpg)).2) p
  refine ⟨r, t, hcall _ _ closes_filecloseChecked, ?_, hr⟩
  rw [sysPipe_eq, hcall _ _ closes_fileclose]
  rfl

/-- The first process, with one page and with none. -/
theorem pipe_all_or_nothing_boot :
    (∃ t, (boot [true]).sysPipe initproc true = .ok (0, t) ∧
      Made (boot [true]) t initproc ⟨0, by decide⟩ ⟨1, by decide⟩) ∧
    ∃ t, (boot ([] : List Bool)).sysPipe initproc true = .ok (-1, t) ∧ Released (boot []) t [] := by
  have hboot : ∀ mem : List Bool, exec step (boot mem) [] = some (boot mem) := fun _ => rfl
  constructor
  · obtain ⟨r, t, hcall, hsys, hr⟩ := pipe_all_or_nothing (by decide) (hboot [true]) initproc
    have hfds : ((boot [true]).pipeFds filecloseChecked initproc).toOption.map Prod.fst =
        some (some (⟨0, by decide⟩, ⟨1, by decide⟩)) := by decide +kernel
    rw [hcall] at hfds
    obtain rfl := Option.some.inj hfds
    exact ⟨t, hsys, hr⟩
  · obtain ⟨r, t, hcall, hsys, hr⟩ := pipe_all_or_nothing (by decide) (hboot []) initproc
    have hfds : ((boot ([] : List Bool)).pipeFds filecloseChecked initproc).toOption.map Prod.fst =
        some none := by decide +kernel
    rw [hcall] at hfds
    obtain rfl := Option.some.inj hfds
    exact ⟨t, hsys, hr⟩

end Sys

end Xv6.Ftable
