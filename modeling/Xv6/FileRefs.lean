import Xv6.FileTable
import Xv6.Runs
import Xv6.Outcome
import Mathlib.Data.Fintype.Prod

/-!
# References to open files

`RefInv` counts : the references of a file are the file descriptors that point to it and those
that a call in progress holds. `PipeInv` is about pipes : an end is open exactly if a file is
that end, no two files are the same end, and a page is free exactly if it is no pipe. Every
function of the file table moves one reference (`filealloc_ok`, `filedup_ok`, `fileclose_ok`,
`fdalloc_ok`), and the calls follow.

`file_table` is the result for all sequences of complete calls.
-/

set_option linter.unusedSectionVars false

namespace Xv6.Ftable

open Function Fs Ptable List Option

/-- The code does not panic, and the result is good. -/
abbrev Ok {α : Type} (m : Except Panic α) (Q : α → Prop) : Prop := Outcome m (fun _ => False) Q

/-- The end is open. -/
def Ends.isOpen (e : Ends) (writable : Bool) : Bool :=
  if writable then e.writeopen else e.readopen

/-- The end is closed. -/
def Ends.close (e : Ends) (writable : Bool) : Ends :=
  if writable then { e with writeopen := false } else { e with readopen := false }

theorem Ends.isOpen_close (e : Ends) (w w' : Bool) :
    (e.close w).isOpen w' = true ↔ w' ≠ w ∧ e.isOpen w' = true := by
  cases w <;> cases w' <;> simp [close, isOpen]

theorem Ends.isOpen_or (e : Ends) :
    (e.readopen = true ∨ e.writeopen = true) ↔ ∃ w, e.isOpen w = true := by
  simp [isOpen]

/-- The pipe after an end is closed, unless it is freed. -/
def Ends.left (e : Ends) (w : Bool) : Option Ends :=
  if ∃ w', (e.close w).isOpen w' = true then some (e.close w) else none

theorem Ends.left_eq_some {e e' : Ends} {w : Bool} (h : e.left w = some e') :
    (∃ w', e'.isOpen w' = true) ∧ e.close w = e' := by
  unfold left at h
  split_ifs at h with hw
  obtain rfl := some.inj h
  exact ⟨hw, rfl⟩

/-- The file is an end of the pipe. -/
structure File.Is {Pg : Type} (x : File Pg) (pg : Pg) (writable : Bool) : Prop where
  type : x.type = .pipe
  pipe : x.pipe = some pg
  writable : x.writable = writable

theorem File.is_of_type {Pg : Type} {x y : File Pg} (hx : x.type ≠ .pipe) (hy : y.type ≠ .pipe)
    (pg : Pg) (w : Bool) : x.Is pg w ↔ y.Is pg w :=
  ⟨fun h => absurd h.type hx, fun h => absurd h.type hy⟩

namespace Sys

variable {Pg : Type} [DecidableEq Pg] {s t : Sys Pg} {f : FileId} {p : ProcId} {fd : Fd}
  {held : List FileId} {mem : List Pg}

/-- The number of file descriptors that point to a file. -/
def slots (s : Sys Pg) (f : FileId) : ℕ := ∑ x, if s.ofile x = some f then 1 else 0

/-- References are counted. -/
structure RefInv (s : Sys Pg) (held : List FileId) : Prop where
  ref : ∀ f, (s.file f).ref = s.slots f + held.count f
  dead : ∀ x, s.live x.1 = false → s.ofile x = none

/-- Pipes and the files that are their ends agree. -/
structure EndInv (file : FileId → File Pg) (pipe : Pg → Option Ends) : Prop where
  none : ∀ f, (file f).ref = 0 → (file f).type = .none
  ends : ∀ pg e, pipe pg = some e → ∀ w, e.isOpen w = true ↔ ∃ f, (file f).Is pg w
  used : ∀ pg e, pipe pg = some e → ∃ w, e.isOpen w = true
  pipe : ∀ f, (file f).type = .pipe → ∃ pg e, (file f).pipe = some pg ∧ pipe pg = some e
  side : ∀ f, (file f).type = .pipe → (file f).readable = !(file f).writable
  one : ∀ f g pg w, (file f).Is pg w → (file g).Is pg w → f = g

/-- Every page of `mem` is a pipe or on the list `l`. -/
structure PageInv (mem : List Pg) (pipe : Pg → Option Ends) (l : List Pg) : Prop where
  nodup : l.Nodup
  used : ∀ pg e, pipe pg = some e → pg ∈ mem
  free : ∀ pg ∈ l, pg ∈ mem ∧ pipe pg = none
  kept : ∀ pg ∈ mem, pipe pg = none → pg ∈ l

/-- The invariant, while a call holds references. -/
structure Inv (mem : List Pg) (held : List FileId) (s : Sys Pg) : Prop where
  refs : s.RefInv held
  ends : EndInv s.file s.pipe
  pages : PageInv mem s.pipe (s.kmem ++ s.other)

/-! ## Counting -/

/-- A file descriptor changes its file. -/
theorem slots_setFd (s : Sys Pg) (p : ProcId) (fd : Fd) (x : Option FileId) (f : FileId) :
    (s.setFd p fd x).slots f + (if s.ofile (p, fd) = some f then 1 else 0) =
      s.slots f + if x = some f then 1 else 0 :=
  sum_update_add (fun o : Option FileId => if o = some f then 1 else 0) s.ofile (p, fd) x

/-- An open file is in some slot. -/
theorem slots_pos {x : ProcId × Fd} (h : s.ofile x = some f) : 0 < s.slots f := by
  have := weight_le_sum (fun o : Option FileId => if o = some f then 1 else 0) s.ofile x
  simp only [h, if_true] at this
  exact this

/-- A reference that a call holds becomes a file descriptor. -/
theorem RefInv.install (h : s.RefInv (f :: held)) (hp : s.live p = true)
    (hfd : s.ofile (p, fd) = none) : (s.setFd p fd (some f)).RefInv held where
  ref g := by
    have hs := slots_setFd s p fd (some f) g
    have hr := h.ref g
    rw [hfd, count_cons] at *
    by_cases hg : f = g
    · subst hg
      simp only [reduceCtorEq, if_false, if_true, beq_self_eq_true] at hs hr
      change (s.file f).ref = _
      omega
    · simp only [reduceCtorEq, some.injEq, if_false, if_neg hg, beq_iff_eq] at hs hr
      change (s.file g).ref = _
      omega
  dead x hx := by
    by_cases hxp : x = (p, fd)
    · subst hxp
      exact absurd hx (by rw [show (s.setFd p fd (some f)).live p = s.live p from rfl, hp]; decide)
    · exact (update_of_ne hxp _ _).trans (h.dead x hx)

/-- A file descriptor is cleared, and the call holds the reference. -/
theorem RefInv.clear (h : s.RefInv held) (hfd : s.ofile (p, fd) = some f) :
    (s.setFd p fd none).RefInv (f :: held) where
  ref g := by
    have hs := slots_setFd s p fd none g
    have hr := h.ref g
    rw [hfd] at hs
    rw [count_cons]
    change (s.file g).ref = _
    by_cases hg : f = g
    · subst hg
      simp only [reduceCtorEq, if_false, if_true, beq_self_eq_true] at hs ⊢
      omega
    · simp only [reduceCtorEq, some.injEq, if_false, if_neg hg, beq_iff_eq] at hs ⊢
      omega
  dead x hx := by
    by_cases hxp : x = (p, fd)
    · exact hxp ▸ update_self _ _ _
    · exact (update_of_ne hxp _ _).trans (h.dead x hx)

/-- The reference count of a file changes with the references that the call holds. -/
theorem RefInv.setFile (h : s.RefInv held) {held' : List FileId} {x : File Pg}
    (hx : x.ref = s.slots f + held'.count f) (hother : ∀ g, g ≠ f → held'.count g = held.count g) :
    (s.setFile f x).RefInv held' where
  ref g := by
    change (update s.file f x g).ref = (s.slots g + held'.count g : ℤ)
    exact update_cases g hx fun hg => by rw [h.ref g, hother g hg]
  dead := h.dead

theorem RefInv.ref_pos (h : s.RefInv (f :: held)) : 1 ≤ (s.file f).ref := by
  have := h.ref f
  rw [count_cons_self] at this
  push_cast at this
  omega

/-! ## The ends of pipes -/

variable {file : FileId → File Pg} {pipe : Pg → Option Ends} {x : File Pg} {pg : Pg} {w : Bool}

/-- A file that stays the same end, or none, is changed. -/
theorem EndInv.setFile (h : EndInv file pipe) (his : ∀ pg w, x.Is pg w ↔ (file f).Is pg w)
    (h0 : x.ref = 0 → x.type = .none)
    (hx : x.type = .pipe → (file f).type = .pipe ∧ x.pipe = (file f).pipe ∧
      x.readable = (file f).readable ∧ x.writable = (file f).writable) :
    EndInv (update file f x) pipe := by
  have his' : ∀ g pg w, (update file f x g).Is pg w ↔ (file g).Is pg w := fun g =>
    update_cases g his fun _ _ _ => Iff.rfl
  refine ⟨fun g => update_cases g h0 fun _ => h.none g, fun pg e he w => ?_, h.used,
    fun g => update_cases g (fun ht => ?_) fun _ => h.pipe g,
    fun g => update_cases g (fun ht => ?_) fun _ => h.side g,
    fun g g' pg w hg hg' => h.one g g' pg w ((his' g pg w).1 hg) ((his' g' pg w).1 hg')⟩
  · exact (h.ends pg e he w).trans (exists_congr fun g => (his' g pg w).symm)
  · obtain ⟨ht', hp, -⟩ := hx ht
    rw [hp]
    exact h.pipe f ht'
  · obtain ⟨ht', -, hr, hw⟩ := hx ht
    rw [hr, hw]
    exact h.side f ht'

/-- The ends of pipes do not depend on the counts. -/
theorem EndInv.setRef (h : EndInv file pipe) {n : ℤ} (h0 : n ≠ 0) :
    EndInv (update file f { file f with ref := n }) pipe :=
  h.setFile
    (fun _ _ => ⟨fun h => ⟨h.type, h.pipe, h.writable⟩, fun h => ⟨h.type, h.pipe, h.writable⟩⟩)
    (fun h => absurd h h0) fun ht => ⟨ht, rfl, rfl, rfl⟩

/-- A file that is no end of a pipe is changed to one that is none. -/
theorem EndInv.setPlain (h : EndInv file pipe) (hf : (file f).type ≠ .pipe)
    (hx : x.type ≠ .pipe) (h0 : x.ref = 0 → x.type = .none) : EndInv (update file f x) pipe :=
  h.setFile (File.is_of_type hx hf) h0 fun ht => absurd ht hx

theorem is_update_none (hx : x.type = .none) (g : FileId) (pg : Pg) (w : Bool) :
    (update file f x g).Is pg w ↔ g ≠ f ∧ (file g).Is pg w :=
  update_cases g
    ⟨fun h => absurd (hx.symm.trans h.type) (by decide), fun h => absurd rfl h.1⟩
    fun hg => ⟨fun h => ⟨hg, h⟩, And.right⟩

/-- The last reference to an end of a pipe is dropped : the end is closed. -/
theorem EndInv.isOpen_close (h : EndInv file pipe) {e : Ends} (hf : (file f).Is pg w)
    (he : pipe pg = some e) (hx : x.type = .none) (w' : Bool) :
    (e.close w).isOpen w' = true ↔ ∃ g, (update file f x g).Is pg w' := by
  simp only [Ends.isOpen_close, h.ends pg e he, is_update_none hx]
  constructor
  · rintro ⟨hw, g, hg⟩
    refine ⟨g, ?_, hg⟩
    rintro rfl
    exact hw (hg.writable.symm.trans hf.writable)
  · rintro ⟨g, hgf, hg⟩
    refine ⟨?_, g, hg⟩
    rintro rfl
    exact hgf (h.one g f pg _ hg hf)

/-- `pipeclose` of the last reference to an end. -/
theorem EndInv.closeEnd (h : EndInv file pipe) {e : Ends} (hf : (file f).Is pg w)
    (he : pipe pg = some e) (hx : x.type = .none) :
    EndInv (update file f x) (update pipe pg (e.left w)) := by
  have hopen := h.isOpen_close hf he hx
  have hnot : x.type ≠ .pipe := by
    rw [hx]
    decide
  refine ⟨fun g => update_cases g (fun _ => hx) fun _ => h.none g,
    fun pg' => update_cases pg' (fun e' he' w' => ?_) fun hpg e' he' w' => ?_,
    fun pg' => update_cases pg' (fun e' he' => (Ends.left_eq_some he').1) fun _ => h.used pg',
    fun g => update_cases g (fun ht => absurd ht hnot) fun hgf hg => ?_,
    fun g => update_cases g (fun ht => absurd ht hnot) fun _ => h.side g,
    fun g g' pg' w' hg hg' => h.one g g' pg' w'
      ((is_update_none hx g pg' w').1 hg).2
      ((is_update_none hx g' pg' w').1 hg').2⟩
  · obtain ⟨-, rfl⟩ := Ends.left_eq_some he'
    exact hopen w'
  · rw [h.ends pg' e' he' w']
    refine exists_congr fun g => ?_
    rw [is_update_none hx]
    refine ⟨fun hg => ⟨?_, hg⟩, And.right⟩
    rintro rfl
    exact hpg (some.inj (hg.pipe.symm.trans hf.pipe))
  · obtain ⟨pg', e', hgp, he'⟩ := h.pipe g hg
    refine ⟨pg', ?_⟩
    by_cases hpg : pg' = pg
    · subst hpg
      -- the other end is still there, so the page is kept
      refine ⟨e.close w, hgp, ?_⟩
      rw [update_self, Ends.left, if_pos]
      refine ⟨(file g).writable, (hopen _).2 ⟨g, ?_⟩⟩
      rw [update_of_ne hgf]
      exact ⟨hg, hgp, rfl⟩
    · exact ⟨e', hgp, (update_of_ne hpg ..).trans he'⟩

/-- A file becomes the end of a pipe that the pipe did not have. -/
theorem EndInv.addEnd (h : EndInv file pipe) {e : Ends} (hf : (file f).type ≠ .pipe)
    (hx : x.Is pg w) (hside : x.readable = !x.writable) (h0 : x.ref ≠ 0)
    (hno : ∀ g, ¬(file g).Is pg w)
    (he : ∀ w', e.isOpen w' = true ↔ w' = w ∨ ∃ g, (file g).Is pg w') :
    EndInv (update file f x) (update pipe pg (some e)) := by
  have his : ∀ g pg' w', (update file f x g).Is pg' w' ↔
      g = f ∧ pg' = pg ∧ w' = w ∨ (file g).Is pg' w' := by
    refine fun g => update_cases g (fun pg' w' => ⟨fun hg => ?_, ?_⟩) fun hg pg' w' => ?_
    · exact .inl ⟨rfl, some.inj (hg.pipe.symm.trans hx.pipe), hg.writable.symm.trans hx.writable⟩
    · rintro (⟨-, rfl, rfl⟩ | hg)
      · exact hx
      · exact absurd hg.type hf
    · simp only [hg, false_and, false_or]
  refine ⟨fun g => update_cases g (fun h => absurd h h0) fun _ => h.none g,
    fun pg' => ?_, fun pg' => ?_, fun g => ?_,
    fun g => update_cases g (fun _ => hside) fun _ => h.side g, fun g g' pg' w' hg hg' => ?_⟩
  · simp only [his, exists_or]
    refine update_cases pg' ?_ fun hpg e' he' w' => ?_
    · rintro _ ⟨⟩ w'
      simp [he w']
    · simpa [hpg] using h.ends pg' e' he' w'
  · refine update_cases pg' ?_ fun _ => h.used pg'
    rintro _ ⟨⟩
    exact ⟨w, (he w).2 (.inl rfl)⟩
  · refine update_cases g (fun _ => ⟨pg, e, hx.pipe, update_self ..⟩) fun _ ht => ?_
    obtain ⟨pg', e', hp, he'⟩ := h.pipe g ht
    by_cases hpg : pg' = pg
    · exact ⟨pg, e, hpg ▸ hp, update_self ..⟩
    · exact ⟨pg', e', hp, (update_of_ne hpg ..).trans he'⟩
  · rcases (his g pg' w').1 hg with ⟨hgf, hpg, hw⟩ | hg <;>
      rcases (his g' pg' w').1 hg' with ⟨hgf', hpg', hw'⟩ | hg'
    · rw [hgf, hgf']
    · exact absurd (hpg ▸ hw ▸ hg') (hno g')
    · exact absurd (hpg' ▸ hw' ▸ hg) (hno g)
    · exact h.one g g' pg' w' hg hg'

/-- Two files become the ends of a new pipe. -/
theorem EndInv.newPipe (h : EndInv file pipe) {f₀ f₁ : FileId} {x₀ x₁ : File Pg} (hne : f₀ ≠ f₁)
    (h₀ : (file f₀).type ≠ .pipe) (h₁ : (file f₁).type ≠ .pipe) (hpg : pipe pg = Option.none)
    (hx₀ : x₀.Is pg false) (hx₁ : x₁.Is pg true) (hr₀ : x₀.readable = true)
    (hr₁ : x₁.readable = false) (hn₀ : x₀.ref ≠ 0) (hn₁ : x₁.ref ≠ 0) :
    EndInv (update (update file f₀ x₀) f₁ x₁) (update pipe pg (some ⟨true, true⟩)) := by
  have hno : ∀ g w, ¬(file g).Is pg w := by
    intro g w hg
    obtain ⟨pg', e, hp, he⟩ := h.pipe g hg.type
    obtain rfl := some.inj (hp.symm.trans hg.pipe)
    exact absurd (hpg.symm.trans he) (by simp)
  have hone := h.addEnd (e := ⟨true, false⟩) h₀ hx₀ (by rw [hr₀, hx₀.writable]; rfl) hn₀
    (fun g => hno g false) fun w => by simp [hno, Ends.isOpen]
  have his : ∀ w, (∃ g, (update file f₀ x₀ g).Is pg w) ↔ w = false := by
    intro w
    constructor
    · rintro ⟨g, hg⟩
      by_cases hgf : g = f₀
      · rw [hgf, update_self] at hg
        exact hg.writable.symm.trans hx₀.writable
      · rw [update_of_ne hgf] at hg
        exact absurd hg (hno g w)
    · rintro rfl
      exact ⟨f₀, by rwa [update_self]⟩
  have htwo := hone.addEnd (f := f₁) (e := ⟨true, true⟩) (by rwa [update_of_ne hne.symm]) hx₁
    (by rw [hr₁, hx₁.writable]; rfl) hn₁ (fun g hg => by cases (his true).1 ⟨g, hg⟩)
    fun w => by cases w <;> simp [his, Ends.isOpen]
  rwa [update_idem] at htwo

/-! ## Pages -/

variable {l : List Pg} {e : Ends}

/-- A pipe changes. -/
theorem PageInv.setPipe (h : PageInv mem pipe l) (he : pipe pg = some e) (e' : Ends) :
    PageInv mem (update pipe pg (some e')) l := by
  have hnone : ∀ pg', update pipe pg (some e') pg' = none ↔ pipe pg' = none := fun pg' =>
    update_cases pg' (by simp [he]) fun _ => Iff.rfl
  refine ⟨h.nodup, fun pg' => update_cases pg' (fun _ _ => h.used pg e he) fun _ => h.used pg',
    fun pg' hpg => ?_, fun pg' hm hn => ?_⟩
  · exact ⟨(h.free pg' hpg).1, (hnone pg').2 (h.free pg' hpg).2⟩
  · exact h.kept pg' hm ((hnone pg').1 hn)

/-- The page of a pipe is freed. -/
theorem PageInv.kfree (h : PageInv mem pipe l) (he : pipe pg = some e) :
    PageInv mem (update pipe pg none) (pg :: l) := by
  have hpg : pg ∉ l := fun hm => by
    have := (h.free pg hm).2
    rw [he] at this
    exact absurd this (by simp)
  refine ⟨nodup_cons.2 ⟨hpg, h.nodup⟩,
    fun pg' => update_cases pg' (fun _ _ => h.used pg e he) fun _ => h.used pg',
    fun pg' hm => ?_, fun pg' => update_cases pg' (fun _ _ => mem_cons_self) fun _ hm hn =>
      mem_cons_of_mem _ (h.kept pg' hm hn)⟩
  · rcases mem_cons.1 hm with rfl | hm
    · exact ⟨h.used pg' e he, update_self ..⟩
    · have hne : pg' ≠ pg := fun hne => hpg (hne ▸ hm)
      exact ⟨(h.free pg' hm).1, (update_of_ne hne ..).trans (h.free pg' hm).2⟩

/-- A page is allocated for a pipe. -/
theorem PageInv.newPipe (h : PageInv mem pipe (pg :: l)) (e : Ends) :
    PageInv mem (update pipe pg (some e)) l := by
  obtain ⟨hpg, hnd⟩ := nodup_cons.1 h.nodup
  refine ⟨hnd, fun pg' => update_cases pg' (fun _ _ => (h.free pg (mem_cons_self ..)).1) fun _ =>
    h.used pg', fun pg' hm => ?_, fun pg' => update_cases pg' (fun _ hn => absurd hn (by simp))
      fun hne hm hn => (mem_cons.1 (h.kept pg' hm hn)).resolve_left hne⟩
  · have hne : pg' ≠ pg := fun hne => hpg (hne ▸ hm)
    obtain ⟨hm', hn⟩ := h.free pg' (mem_cons_of_mem _ hm)
    exact ⟨hm', (update_of_ne hne ..).trans hn⟩

theorem PageInv.perm (h : PageInv mem pipe l) {l' : List Pg} (hp : l'.Perm l) :
    PageInv mem pipe l' where
  nodup := hp.nodup_iff.2 h.nodup
  used := h.used
  free pg hm := h.free pg (hp.mem_iff.1 hm)
  kept pg hm hn := hp.mem_iff.2 (h.kept pg hm hn)

/-! ## The functions of the file table -/

theorem RefInv.perm (h : s.RefInv held) {held' : List FileId} (hp : held.Perm held') :
    s.RefInv held' where
  ref f := by rw [h.ref, hp.count_eq]
  dead := h.dead

/-- The file descriptors are as before. -/
structure SameFds (s t : Sys Pg) : Prop where
  ofile : t.ofile = s.ofile
  live : t.live = s.live

theorem SameFds.rfl : SameFds s s := ⟨Eq.refl _, Eq.refl _⟩

theorem SameFds.trans {u : Sys Pg} (h : SameFds s t) (h' : SameFds t u) : SameFds s u :=
  ⟨h'.ofile.trans h.ofile, h'.live.trans h.live⟩

/-- `filealloc` takes an entry that nobody uses. -/
theorem filealloc_inv (h : s.Inv mem held) (he : s.filealloc = some (f, t)) :
    t.Inv mem (f :: held) ∧ SameFds s t ∧ (s.file f).ref = 0 ∧
      t = s.setFile f { s.file f with ref := 1 } := by
  simp only [filealloc, map_eq_some_iff, Prod.mk.injEq] at he
  obtain ⟨f, hf, rfl, rfl⟩ := he
  have hf : (s.file f).ref = 0 := by simpa using List.find?_some hf
  have hr := h.refs.ref f
  refine ⟨⟨h.refs.setFile ?_ ?_, h.ends.setRef (by decide), h.pages⟩, ⟨rfl, rfl⟩, hf, rfl⟩
  · rw [count_cons_self]
    dsimp only
    omega
  · exact fun g hg => count_cons_of_ne hg.symm

/-- `filedup` counts one more reference. -/
theorem filedup_ok (h : s.Inv mem held) (hf : 1 ≤ (s.file f).ref) :
    Ok (s.filedup f) fun t => t.Inv mem (f :: held) ∧ SameFds s t := by
  rw [filedup, if_neg (by omega)]
  have hr := h.refs.ref f
  refine outcome_ok ⟨⟨h.refs.setFile ?_ ?_, h.ends.setRef (by omega), h.pages⟩, ⟨rfl, rfl⟩⟩
  · rw [count_cons_self]
    dsimp only
    omega
  · exact fun g hg => count_cons_of_ne hg.symm

theorem pipeclose_of_some (he : s.pipe pg = some e) (w : Bool) :
    s.pipeclose pg w =
      if ∃ w', (e.close w).isOpen w' = true then { s with pipe := update s.pipe pg (e.close w) }
      else { s with pipe := update s.pipe pg none, kmem := pg :: s.kmem } := by
  have hc : (if w = true then { e with writeopen := false } else { e with readopen := false }) =
      e.close w := rfl
  simp only [pipeclose, he, hc]
  by_cases hw : ∃ w', (e.close w).isOpen w' = true
  · rw [if_pos hw, if_neg]
    rintro ⟨hr, hw'⟩
    rw [← Ends.isOpen_or, hr, hw'] at hw
    simp at hw
  · rw [if_neg hw, if_pos]
    rw [← Ends.isOpen_or] at hw
    simpa using hw

/-- The last reference to an end of a pipe is dropped. -/
theorem Inv.pipeclose (h : s.Inv mem (f :: held)) (hx : x.type = .none)
    (hr : (s.setFile f x).RefInv held) (hf : (s.file f).Is pg w) :
    ((s.setFile f x).pipeclose pg w).Inv mem held ∧ SameFds s ((s.setFile f x).pipeclose pg w) := by
  obtain ⟨pg', e, hpg, he⟩ := h.ends.pipe f hf.type
  obtain rfl := some.inj (hf.pipe.symm.trans hpg)
  have hends := h.ends.closeEnd hf he hx
  rw [Ends.left] at hends
  rw [pipeclose_of_some (s := s.setFile f x) he]
  split_ifs at hends ⊢
  · exact ⟨⟨⟨hr.ref, hr.dead⟩, hends, h.pages.setPipe he _⟩, rfl, rfl⟩
  · exact ⟨⟨⟨hr.ref, hr.dead⟩, hends, h.pages.kfree he⟩, rfl, rfl⟩

/-- The last reference to a file is dropped. -/
theorem Inv.last (h : s.Inv mem (f :: held)) (hx : x.type = .none)
    (hr : (s.setFile f x).RefInv held) :
    Ok (match (s.file f).type, (s.file f).pipe with
      | .pipe, some pg => .ok ((s.setFile f x).pipeclose pg (s.file f).writable)
      | _, _ => .ok (s.setFile f x)) fun t => t.Inv mem held ∧ SameFds s t := by
  have hplain : (s.file f).type ≠ .pipe → (s.setFile f x).Inv mem held := fun ht =>
    ⟨hr, h.ends.setPlain ht (by rw [hx]; decide) fun _ => hx, h.pages⟩
  match ht : (s.file f).type, hp : (s.file f).pipe with
  | .pipe, some pg => exact outcome_ok (h.pipeclose hx hr ⟨ht, hp, rfl⟩)
  | .pipe, none =>
    obtain ⟨pg, e, hpg, -⟩ := h.ends.pipe f ht
    exact absurd (hp.symm.trans hpg) (by simp)
  | .none, _ => exact outcome_ok ⟨hplain (by rw [ht]; decide), rfl, rfl⟩
  | .inode, _ => exact outcome_ok ⟨hplain (by rw [ht]; decide), rfl, rfl⟩

/-- `fileclose` gives up one reference. -/
theorem fileclose_ok (h : s.Inv mem (f :: held)) :
    Ok (s.fileclose f) fun t => t.Inv mem held ∧ SameFds s t := by
  have hpos := h.refs.ref_pos
  have hr := h.refs.ref f
  rw [count_cons_self] at hr
  have hother : ∀ g, g ≠ f → held.count g = (f :: held).count g :=
    fun g hg => (count_cons_of_ne hg.symm).symm
  rw [fileclose, if_neg (by omega)]
  by_cases hlast : 0 < (s.file f).ref - 1
  · rw [if_pos hlast]
    refine outcome_ok ⟨⟨h.refs.setFile ?_ hother, h.ends.setRef (by omega), h.pages⟩, rfl, rfl⟩
    dsimp only
    omega
  · rw [if_neg hlast]
    refine h.last rfl (h.refs.setFile ?_ hother)
    dsimp only
    omega

/-- `fdalloc` stores a reference, -/
theorem Inv.install (h : s.Inv mem (f :: held)) (hp : s.live p = true)
    (hfd : s.ofile (p, fd) = none) : (s.setFd p fd (some f)).Inv mem held :=
  ⟨h.refs.install hp hfd, h.ends, h.pages⟩

/-- and closing a descriptor takes it out. -/
theorem Inv.clear (h : s.Inv mem held) (hfd : s.ofile (p, fd) = some f) :
    (s.setFd p fd none).Inv mem (f :: held) :=
  ⟨h.refs.clear hfd, h.ends, h.pages⟩

theorem Inv.swap {g : FileId} (h : s.Inv mem (f :: g :: held)) : s.Inv mem (g :: f :: held) :=
  ⟨h.refs.perm (List.Perm.swap g f held), h.ends, h.pages⟩

/-- Where `fdalloc` puts the file. -/
theorem fdalloc_eq_some (he : s.fdalloc p f = some (fd, t)) :
    t = s.setFd p fd (some f) ∧ s.ofile (p, fd) = none := by
  simp only [fdalloc, map_eq_some_iff, Prod.mk.injEq] at he
  obtain ⟨fd, hfd, rfl, rfl⟩ := he
  exact ⟨rfl, by simpa using List.find?_some hfd⟩

theorem filedup_setFd (s : Sys Pg) (o : Option FileId) :
    (s.setFd p fd o).filedup f = (s.filedup f).map fun t => t.setFd p fd o := by
  unfold filedup
  by_cases h : (s.file f).ref < 1
  · exact (if_pos h).trans (by rw [if_pos h]; rfl)
  · exact (if_neg h).trans (by rw [if_neg h]; rfl)

theorem pipeclose_setFd (s : Sys Pg) (o : Option FileId) :
    (s.setFd p fd o).pipeclose pg w = (s.pipeclose pg w).setFd p fd o := by
  unfold pipeclose
  rw [show (s.setFd p fd o).pipe = s.pipe from rfl]
  cases s.pipe pg with
  | none => rfl
  | some e =>
    dsimp only
    split_ifs <;> rfl

theorem fileclose_setFd (s : Sys Pg) (o : Option FileId) :
    (s.setFd p fd o).fileclose f = (s.fileclose f).map fun t => t.setFd p fd o := by
  unfold fileclose
  rw [show (s.setFd p fd o).file = s.file from rfl]
  dsimp only
  split_ifs
  · rfl
  · rfl
  · match (s.file f).type, (s.file f).pipe with
    | .pipe, some pg => exact congrArg Except.ok (pipeclose_setFd (s.setFile f _) o)
    | .pipe, none => rfl
    | .none, _ => rfl
    | .inode, _ => rfl

theorem file_setFile (s : Sys Pg) (f : FileId) (x : File Pg) : (s.setFile f x).file f = x :=
  update_self ..

theorem file_setFile_of_ne (s : Sys Pg) {g : FileId} (h : g ≠ f) (x : File Pg) :
    (s.setFile f x).file g = s.file g :=
  update_of_ne h ..

/-- A page becomes a pipe, and two files that are nothing yet its ends. -/
theorem Inv.newPipe {f₀ f₁ : FileId} {rest : List Pg} {x₀ x₁ : File Pg}
    (h : s.Inv mem (f₁ :: f₀ :: held)) (hne : f₀ ≠ f₁) (h₀ : (s.file f₀).type ≠ .pipe)
    (h₁ : (s.file f₁).type ≠ .pipe) (hk : s.kmem = pg :: rest) (hx₀ : x₀.Is pg false)
    (hx₁ : x₁.Is pg true) (hr₀ : x₀.readable = true) (hr₁ : x₁.readable = false)
    (hn₀ : x₀.ref = (s.file f₀).ref) (hn₁ : x₁.ref = (s.file f₁).ref) :
    Inv mem (f₀ :: f₁ :: held) ((setFile { s with
      kmem := rest
      pipe := update s.pipe pg (some ⟨true, true⟩) } f₀ x₀).setFile f₁ x₁) := by
  have hpages := h.pages
  rw [hk] at hpages
  have hpos₀ := h.swap.refs.ref_pos
  have hpos₁ := h.refs.ref_pos
  refine ⟨?_, ?_, hpages.newPipe _⟩
  · have hs : RefInv { s with kmem := rest, pipe := update s.pipe pg (some ⟨true, true⟩) }
        (f₀ :: f₁ :: held) := ⟨h.swap.refs.ref, h.refs.dead⟩
    refine (hs.setFile (hn₀.trans (hs.ref f₀)) fun _ _ => rfl).setFile (hn₁.trans (hs.ref f₁))
      fun _ _ => rfl
  · exact h.ends.newPipe hne h₀ h₁ (hpages.free pg (mem_cons_self ..)).2 hx₀ hx₁ hr₀ hr₁
      (by omega) (by omega)

/-- `pipealloc` returns both ends or gives everything back. -/
theorem pipealloc_ok (h : s.Inv mem held) :
    Ok s.pipealloc fun r => SameFds s r.2 ∧
      match r.1 with
      | none => r.2.Inv mem held
      | some (rf, wf) => r.2.Inv mem (rf :: wf :: held) := by
  unfold pipealloc
  cases h₀ : s.filealloc with
  | none => exact outcome_ok ⟨.rfl, h⟩
  | some r₀ =>
    obtain ⟨f₀, s₀⟩ := r₀
    obtain ⟨hi₀, hs₀, hr₀, rfl⟩ := filealloc_inv h h₀
    dsimp only
    cases h₁ : (s.setFile f₀ { s.file f₀ with ref := 1 }).filealloc with
    | none => exact (fileclose_ok hi₀).bind fun t ht => outcome_ok ⟨hs₀.trans ht.2, ht.1⟩
    | some r₁ =>
      obtain ⟨f₁, s₁⟩ := r₁
      obtain ⟨hi₁, hs₁, hr₁, hs₁'⟩ := filealloc_inv hi₀ h₁
      dsimp only
      cases hk : s₁.kmem with
      | nil =>
        rw [kalloc, hk]
        refine (fileclose_ok hi₁.swap).bind fun t ht => ?_
        refine (fileclose_ok ht.1).bind fun t' ht' => ?_
        exact outcome_ok ⟨(hs₀.trans hs₁).trans (ht.2.trans ht'.2), ht'.1⟩
      | cons pg rest =>
        rw [kalloc, hk]
        have hne : f₀ ≠ f₁ := by
          rintro rfl
          rw [file_setFile] at hr₁
          exact absurd hr₁ one_ne_zero
        have ht₀ : (s₁.file f₀).type = .none := by
          rw [hs₁', file_setFile_of_ne _ hne, file_setFile]
          exact h.ends.none f₀ hr₀
        have ht₁ : (s₁.file f₁).type = .none := by
          rw [hs₁', file_setFile]
          exact hi₀.ends.none f₁ hr₁
        refine outcome_ok ⟨⟨hs₁.ofile.trans hs₀.ofile, hs₁.live.trans hs₀.live⟩,
          hi₁.newPipe hne (ht₀ ▸ by decide) (ht₁ ▸ by decide) hk ⟨rfl, rfl, rfl⟩ ⟨rfl, rfl, rfl⟩
            rfl rfl rfl ?_⟩
        dsimp only
        rw [file_setFile_of_ne _ hne.symm]

/-! ## Calls -/

theorem argfd_eq_some {n : ℤ} (h : s.argfd p n = some (fd, f)) : s.ofile (p, fd) = some f := by
  unfold argfd at h
  split_ifs at h
  obtain ⟨f', hf, he⟩ := map_eq_some_iff.1 h
  obtain ⟨rfl, rfl⟩ := Prod.mk.inj he
  exact hf

/-- The file of a descriptor is in use. -/
theorem Inv.ref_pos (h : s.Inv mem held) {i : ProcId × Fd} (hf : s.ofile i = some f) :
    1 ≤ (s.file f).ref := by
  have := slots_pos hf
  have := h.refs.ref f
  omega

theorem sysOpen_ok (h : s.Inv mem []) (hp : s.live p = true) (ip : Option ℕ) (omode : UInt32) :
    Ok (s.sysOpen p ip omode) fun r => r.2.Inv mem [] := by
  unfold sysOpen
  cases ip with
  | none => exact outcome_ok h
  | some ip =>
    dsimp only
    cases ha : s.filealloc with
    | none => exact outcome_ok h
    | some r =>
      obtain ⟨f, s₁⟩ := r
      obtain ⟨h₁, hs₁, hr, rfl⟩ := filealloc_inv h ha
      dsimp only
      cases hd : (s.setFile f { s.file f with ref := 1 }).fdalloc p f with
      | none => exact (fileclose_ok h₁).bind fun t ht => outcome_ok ht.1
      | some r =>
        obtain ⟨fd, s₂⟩ := r
        obtain ⟨rfl, hfd⟩ := fdalloc_eq_some hd
        have h₂ := h₁.install (p := p) (hs₁.live ▸ hp) hfd
        have ht : (s.file f).type = .none := h.ends.none f hr
        refine outcome_ok ⟨h₂.refs.setFile (h₂.refs.ref f) fun _ _ => rfl,
          h₂.ends.setPlain ?_ ?_ fun h0 => absurd h0 ?_, h₂.pages⟩
        · change ((s.setFile f { s.file f with ref := 1 }).file f).type ≠ .pipe
          rw [file_setFile]
          exact ht ▸ by decide
        · exact fun h => by cases h
        · change ((s.setFile f { s.file f with ref := 1 }).file f).ref ≠ 0
          rw [file_setFile]
          exact one_ne_zero

theorem sysDup_ok (h : s.Inv mem []) (hp : s.live p = true) (n : ℤ) :
    Ok (s.sysDup p n) fun r => r.2.Inv mem [] := by
  unfold sysDup
  cases ha : s.argfd p n with
  | none => exact outcome_ok h
  | some r =>
    obtain ⟨fd₀, f⟩ := r
    dsimp only
    cases hd : s.fdalloc p f with
    | none => exact outcome_ok h
    | some r =>
      obtain ⟨fd, s₁⟩ := r
      obtain ⟨rfl, hfd⟩ := fdalloc_eq_some hd
      obtain ⟨t, ht, hi, hs⟩ := (filedup_ok h (h.ref_pos (argfd_eq_some ha))).exists_ok
      dsimp only
      rw [filedup_setFd, ht]
      exact outcome_ok (hi.install (hs.live ▸ hp) (hs.ofile ▸ hfd))

theorem sysClose_ok (h : s.Inv mem []) (n : ℤ) :
    Ok (s.sysClose p n) fun r => r.2.Inv mem [] := by
  unfold sysClose
  cases ha : s.argfd p n with
  | none => exact outcome_ok h
  | some r =>
    obtain ⟨fd, f⟩ := r
    exact (fileclose_ok (h.clear (argfd_eq_some ha))).bind fun t ht => outcome_ok ht.1

theorem sysPipe_ok (h : s.Inv mem []) (hp : s.live p = true) (ok : Bool) :
    Ok (s.sysPipe p ok) fun r => r.2.Inv mem [] := by
  unfold sysPipe
  cases ok with
  | false => exact outcome_ok h
  | true =>
    rw [if_pos rfl]
    refine (pipealloc_ok h).bind ?_
    rintro ⟨r, s₁⟩ ⟨hs₁, h₁⟩
    match r, h₁ with
    | none, h₁ => exact outcome_ok h₁
    | some (rf, wf), h₁ =>
      dsimp only at h₁ hs₁ ⊢
      cases hd : s₁.fdalloc p rf with
      | none =>
        refine (fileclose_ok h₁).bind fun t ht => ?_
        exact (fileclose_ok ht.1).bind fun t ht => outcome_ok ht.1
      | some r =>
        obtain ⟨fd₀, s₂⟩ := r
        obtain ⟨rfl, hfd⟩ := fdalloc_eq_some hd
        have hp₁ : s₁.live p = true := hs₁.live ▸ hp
        have h₂ := h₁.install hp₁ hfd
        dsimp only
        cases hd₁ : (s₁.setFd p fd₀ (some rf)).fdalloc p wf with
        | none =>
          refine (fileclose_ok (h₂.clear (update_self ..))).bind fun t ht => ?_
          exact (fileclose_ok ht.1).bind fun t ht => outcome_ok ht.1
        | some r =>
          obtain ⟨fd₁, s₃⟩ := r
          obtain ⟨rfl, hfd₁⟩ := fdalloc_eq_some hd₁
          exact outcome_ok (h₂.install hp₁ hfd₁)

theorem fork_ok {np : ProcId} (h : s.Inv mem []) (hp : s.live p = true) (hnp : s.live np = false)
    (ok : Bool) : Ok (s.fork p np ok) fun t => t.Inv mem [] := by
  unfold fork
  cases ok with
  | false => exact outcome_ok h
  | true =>
    rw [if_pos rfl]
    have hne : p ≠ np := by
      rintro rfl
      exact absurd (hp.symm.trans hnp) (by decide)
    -- the file descriptors of the child that the loop has not reached are empty
    refine (Outcome.foldlM (fun rest s => Inv mem [] s ∧ s.live np = true ∧ rest.Nodup ∧
      ∀ fd ∈ rest, s.ofile (np, fd) = none) ?_ _ { s with live := update s.live np true }
        ⟨⟨⟨h.refs.ref, ?_⟩, h.ends, h.pages⟩, update_self .., nodup_finRange _, ?_⟩).imp
          fun t ht => ht.1
    · rintro fd rest s ⟨h, hl, hnd, hfd⟩
      obtain ⟨hnot, hnd⟩ := nodup_cons.1 hnd
      have hrest : ∀ fd ∈ rest, s.ofile (np, fd) = none :=
        fun fd' h' => hfd fd' (mem_cons_of_mem _ h')
      unfold forkFd
      cases hf : s.ofile (p, fd) with
      | none => exact outcome_ok ⟨h, hl, hnd, hrest⟩
      | some f =>
        refine (filedup_ok h (h.ref_pos hf)).bind fun t ht => ?_
        have hl' : t.live np = true := ht.2.live ▸ hl
        have hfd' : t.ofile (np, fd) = none := ht.2.ofile ▸ hfd fd (mem_cons_self ..)
        refine outcome_ok ⟨ht.1.install hl' hfd', hl', hnd, fun fd₁ h₁ => ?_⟩
        have hne : fd₁ ≠ fd := fun he => hnot (he ▸ h₁)
        refine (update_of_ne (fun he => hne (Prod.mk.inj he).2) _ _).trans ?_
        rw [ht.2.ofile]
        exact hrest fd₁ h₁
    · intro x hx
      refine h.refs.dead x ?_
      by_cases hxp : x.1 = np
      · rw [hxp]
        exact hnp
      · exact (update_of_ne hxp _ _).symm.trans hx
    · exact fun fd _ => h.refs.dead (np, fd) hnp

theorem exit_ok (h : s.Inv mem []) : Ok (s.exit p) fun t => t.Inv mem [] := by
  unfold exit
  -- the file descriptors that the loop has passed are empty
  refine (Outcome.foldlM (fun rest s => Inv mem [] s ∧ ∀ fd, fd ∉ rest → s.ofile (p, fd) = none)
    ?_ _ _ ⟨h, fun fd hfd => absurd (mem_finRange fd) hfd⟩).bind ?_
  · rintro fd rest s ⟨h, hdone⟩
    have hpass : ∀ {o : Fd → Option FileId}, o fd = none → (∀ fd' ≠ fd, o fd' = s.ofile (p, fd')) →
        ∀ fd', fd' ∉ rest → o fd' = none := by
      intro o ho hsame fd' hfd'
      by_cases he : fd' = fd
      · rw [he, ho]
      · rw [hsame fd' he]
        exact hdone fd' fun hm => (mem_cons.1 hm).elim he hfd'
    unfold exitFd
    cases hf : s.ofile (p, fd) with
    | none => exact outcome_ok ⟨h, hpass hf fun _ _ => rfl⟩
    | some f =>
      obtain ⟨t, ht, hi, hs⟩ := (fileclose_ok (h.clear hf)).exists_ok
      rw [fileclose_setFd] at ht
      dsimp only
      cases hc : s.fileclose f with
      | error e => rw [hc] at ht; cases ht
      | ok t₁ =>
        rw [hc] at ht
        obtain rfl := Except.ok.inj ht
        refine outcome_ok ⟨hi, hpass (update_self ..) fun fd' he => ?_⟩
        have hof := congrFun hs.ofile (p, fd')
        exact hof.trans (update_of_ne (fun he' => he (Prod.mk.inj he').2) _ _)
  · rintro t ⟨h, hdone⟩
    refine outcome_ok ⟨⟨h.refs.ref, fun x hx => ?_⟩, h.ends, h.pages⟩
    by_cases hxp : x.1 = p
    · obtain ⟨q, fd⟩ := x
      obtain rfl : q = p := hxp
      exact hdone fd (by simp)
    · exact h.refs.dead x ((update_of_ne hxp _ _).symm.trans hx)

/-- No call panics, and every call keeps the invariant. -/
theorem call_ok (h : s.Inv mem []) {a : Act Pg} (ha : a.enabled s = true) :
    Ok (s.call a) fun t => t.Inv mem [] := by
  cases a with
  | «open» p ip omode => exact (sysOpen_ok h ha ip omode).map
  | dup p fd => exact (sysDup_ok h ha fd).map
  | close p fd => exact (sysClose_ok h fd).map
  | pipe p ok => exact (sysPipe_ok h ha ok).map
  | fork p np ok =>
    simp only [Act.enabled, Bool.and_eq_true, Bool.not_eq_true'] at ha
    exact fork_ok h ha.1 ha.2 ok
  | exit p => exact exit_ok h
  | exec p => exact outcome_ok h
  | take =>
    cases hk : s.kmem with
    | nil => simpa only [call, kalloc, hk] using outcome_ok h
    | cons pg rest =>
      simp only [call, kalloc, hk]
      refine outcome_ok ⟨⟨h.refs.ref, h.refs.dead⟩, h.ends, h.pages.perm ?_⟩
      rw [hk]
      exact perm_middle
  | give pg =>
    have hpg : pg ∈ s.other := by simpa [Act.enabled] using ha
    refine outcome_ok ⟨⟨h.refs.ref, h.refs.dead⟩, h.ends, h.pages.perm ?_⟩
    exact perm_middle.symm.trans ((perm_cons_erase hpg).symm.append_left _)

/-- Nothing is open at first. -/
theorem inv_boot (hk : mem.Nodup) : (boot mem).Inv mem [] where
  refs := ⟨fun f => by simp [boot, slots], fun _ _ => rfl⟩
  ends := by
    refine ⟨fun f _ => rfl, fun pg e he => ?_, fun pg e he => ?_, fun f hf => ?_, fun f hf => ?_,
      fun f g pg w hf => ?_⟩
    · cases he
    · cases he
    · cases hf
    · cases hf
    · cases hf.type
  pages := by
    refine ⟨by simpa [boot] using hk, fun pg e he => ?_,
      fun pg hpg => ⟨by simpa [boot] using hpg, rfl⟩, fun pg hpg _ => by simpa [boot] using hpg⟩
    cases he

/-- The counts are right in every run. -/
theorem inv_run {as : List (Act Pg)} (hk : mem.Nodup) (he : exec step (boot mem) as = some s) :
    s.Inv mem [] := by
  refine exec_invariant_all (fun s => Inv mem [] s) (fun s a t hs ht => ?_) (inv_boot hk) he
  unfold step at ht
  split_ifs at ht with ha
  obtain ⟨t', ht', hi⟩ := (call_ok hs ha).exists_ok
  rw [ht'] at ht
  obtain rfl := some.inj ht
  exact hi

/-! ## The result -/

theorem slots_eq_card (h : s.RefInv held) (f : FileId) :
    s.slots f = (Finset.univ.filter fun x : ProcId × Fd =>
      s.live x.1 = true ∧ s.ofile x = some f).card := by
  rw [slots, Finset.card_filter]
  refine Finset.sum_congr rfl fun x _ => if_congr ⟨fun hx => ⟨?_, hx⟩, And.right⟩ rfl rfl
  by_contra hl
  rw [h.dead x (by simpa using hl)] at hx
  cases hx

/-- A file in use that is an end of a pipe. -/
theorem Inv.isOpen_iff (h : s.Inv mem []) (he : s.pipe pg = some e) (w : Bool) :
    e.isOpen w = true ↔ ∃ f, 0 < (s.file f).ref ∧ (s.file f).Is pg w := by
  rw [h.ends.ends pg e he w]
  refine exists_congr fun f => ⟨fun hf => ⟨?_, hf⟩, And.right⟩
  have hr := h.refs.ref f
  have hn : (s.file f).ref ≠ 0 := fun h0 => by
    have := h.ends.none f h0
    rw [hf.type] at this
    cases this
  omega

/-- The file table after any sequence of complete calls. -/
theorem file_table {as : List (Act Pg)} (hmem : mem.Nodup) (he : exec step (boot mem) as = some s) :
    (∀ f, (s.file f).ref = (Finset.univ.filter fun x : ProcId × Fd =>
      s.live x.1 = true ∧ s.ofile x = some f).card) ∧
    (∀ f, (s.file f).ref = 0 → (s.file f).type = .none) ∧
    (∀ pg e, s.pipe pg = some e →
      (e.readopen = true ↔ ∃ f, 0 < (s.file f).ref ∧ (s.file f).type = .pipe ∧
        (s.file f).readable = true ∧ (s.file f).pipe = some pg) ∧
      (e.writeopen = true ↔ ∃ f, 0 < (s.file f).ref ∧ (s.file f).type = .pipe ∧
        (s.file f).writable = true ∧ (s.file f).pipe = some pg) ∧
      (e.readopen = true ∨ e.writeopen = true) ∧
      ∀ w, pg ∈ (s.pipeclose pg w).kmem ↔
        (e.close w).readopen = false ∧ (e.close w).writeopen = false) ∧
    (s.kmem ++ s.other).Nodup ∧
    (∀ pg ∈ mem, s.pipe pg = none ↔ pg ∈ s.kmem ++ s.other) ∧
    (∀ f pg, 0 < (s.file f).ref → (s.file f).type = .pipe → (s.file f).pipe = some pg →
      ∃ e, s.pipe pg = some e) ∧
    ∀ a : Act Pg, a.enabled s = true → ∃ t, s.call a = .ok t := by
  have h := inv_run hmem he
  refine ⟨fun f => ?_, h.ends.none,
    fun pg e he => ⟨?_, ?_, (Ends.isOpen_or e).2 (h.ends.used pg e he), fun w => ?_⟩,
    h.pages.nodup, fun pg hpg => ⟨h.pages.kept pg hpg, fun hm => (h.pages.free pg hm).2⟩,
    fun f pg _ ht hp => ?_, fun a ha => ?_⟩
  · rw [h.refs.ref f, slots_eq_card h.refs, count_nil, Nat.cast_zero, add_zero]
  · refine (h.isOpen_iff he false).trans (exists_congr fun f => and_congr_right fun _ => ?_)
    constructor
    · exact fun hf => ⟨hf.type, by rw [h.ends.side f hf.type, hf.writable]; rfl, hf.pipe⟩
    · rintro ⟨ht, hr, hp⟩
      rw [h.ends.side f ht] at hr
      exact ⟨ht, hp, by simpa using hr⟩
  · refine (h.isOpen_iff he true).trans (exists_congr fun f => and_congr_right fun _ => ?_)
    exact ⟨fun hf => ⟨hf.type, hf.writable, hf.pipe⟩, fun ⟨ht, hw, hp⟩ => ⟨ht, hp, hw⟩⟩
  · have hpg : pg ∉ s.kmem := fun hm => by
      have := (h.pages.free pg (mem_append_left _ hm)).2
      rw [he] at this
      cases this
    have hc : (e.close w).readopen = false ∧ (e.close w).writeopen = false ↔
        ¬∃ w', (e.close w).isOpen w' = true := by
      rw [← Ends.isOpen_or]
      simp
    rw [pipeclose_of_some he, hc]
    split_ifs with hw
    · exact ⟨fun hm => absurd hm hpg, fun hn => absurd hw hn⟩
    · exact ⟨fun _ => hw, fun _ => mem_cons_self ..⟩
  · obtain ⟨pg', e, hp', he⟩ := h.ends.pipe f ht
    obtain rfl := some.inj (hp.symm.trans hp')
    exact ⟨e, he⟩
  · obtain ⟨t, ht, -⟩ := (call_ok h ha).exists_ok
    exact ⟨t, ht⟩

/-- A pipe whose ends a child holds too. The parent closes the writing end, and the child finds
no page for a second pipe. -/
def pipeRun : List (Act Bool) :=
  [.pipe initproc true, .fork initproc ⟨1, by decide⟩ true, .close initproc 1,
    .pipe ⟨1, by decide⟩ true]

/-- The reference counts of the first three files. -/
def refs₃ (s : Sys Bool) : List ℤ :=
  [(s.file ⟨0, by decide⟩).ref, (s.file ⟨1, by decide⟩).ref, (s.file ⟨2, by decide⟩).ref]

theorem file_table_pipe : ∃ s : Sys Bool, exec step (boot [true]) pipeRun = some s ∧
    refs₃ s = [2, 1, 0] ∧
    ∀ f, (s.file f).ref = (Finset.univ.filter fun x : ProcId × Fd =>
      s.live x.1 = true ∧ s.ofile x = some f).card := by
  have hrefs : (exec step (boot [true]) pipeRun).map refs₃ = some [2, 1, 0] := by decide +kernel
  obtain ⟨s, hs, hr⟩ := map_eq_some_iff.1 hrefs
  exact ⟨s, hs, hr, (file_table (by decide) hs).1⟩

end Sys

end Xv6.Ftable
