import Xv6.TreeEdits
import Xv6.Working

/-!
# Calls that change the tree

`create`, `sys_link` and `sys_unlink`, from a state in order to a state in order, with the changes
that they make to the inodes (`Edits`).
-/

set_option linter.unusedSectionVars false

namespace Xv6.Fs

open Prog Function

variable {P : Type} [DecidableEq P] {M : Mount} {A : Set ℕ} {p : P} {v : View P} {s t : State P}
  {k : Slot} {i j : ℕ} {x y : Extent} {X X' : ℕ → Option Extent} {ks : List (Slot × ℕ)}
  {ls : List Slot} {T : Tables P} {U N : Slot → ℕ}

variable {Q : Unit → State P → Prop}

theorem View.Frees.edits (h : v.Frees X') : Edits (fileOf v.X) (fileOf X') := by
  refine .single (.free fun i => ?_)
  unfold fileOf
  rcases h i with he | ⟨he, -, x, hx, h0⟩
  · exact Or.inl (by rw [he])
  · exact Or.inr ⟨by rw [he]; rfl, x.file, by rw [hx]; rfl, h0⟩

/-- The state after a call : the inodes were changed. -/
def Changed (M : Mount) (A : Set ℕ) (p : P) (v : View P) (t : State P) : Prop :=
  ∃ X', Edits (fileOf v.X) (fileOf X') ∧ Working M A p { v with X := X' } t

namespace Working

theorem ends_beginOp (h : Working M A p ⟨X, ks, ls, T, U, N, 0⟩ s)
    (hQ : ∀ t, Working M A p ⟨X, ks, ls, T, U, N, 1⟩ t → Q () t) : Ends beginOp s Q (Stops M) :=
  Fs.ends_beginOp (fun _ => .wait _ s) (hQ _ { h with
    coherent := h.coherent.setLog _
    outstanding := congrArg (· + 1) h.outstanding })

theorem ends_endOp (h : Working M A p ⟨X, ks, ls, T, U, N, 1⟩ s)
    (hQ : ∀ t, Working M A p ⟨X, ks, ls, T, U, N, 0⟩ t → Q () t) : Ends endOp s Q (Stops M) := by
  refine ends_atomic ?_
  simp only [h.committing, h.outstanding, sub_self, Bool.false_eq_true, if_false, if_true]
  exact hQ _ { h with
    coherent := h.coherent.setLog _
    outstanding := rfl
    committing := rfl }

/-- The last pointer of a call is given up, and the operation ends. -/
theorem ends_leave (h : Working M A p ⟨X, (k, i) :: ks, [k], T, U, N, 1⟩ s) {r : ℤ}
    {Q : ℤ → State P → Prop} (hQ : ∀ t, Changed M A p ⟨X, ks, [], T, U, N, 0⟩ t → Q r t) :
    Ends (do iunlockput M p k; endOp; return r) s Q (Stops M) :=
  ends_bind (h.ends_iunlockput_only le_rfl fun _ _ hF hw => ends_bind (hw.ends_endOp
    fun t ht => ends_pure (hQ t ⟨_, hF.edits, ht⟩)))

end Working

theorem Changed.trans (h : Changed M A p ⟨X', ks, ls, T, U, N, 0⟩ t)
    (he : Edits (fileOf X) (fileOf X')) : Changed M A p ⟨X, ks, ls, T, U, N, 0⟩ t := by
  obtain ⟨X₁, he', ht⟩ := h
  exact ⟨X₁, he.trans he', ht⟩

namespace Working

/-! ## Creating an inode -/

/-- The end of `create` : the new inode gets its fields and its name. -/
theorem ends_createEntry {dp ip : Slot} {di : ℕ} {xd : Extent} {type major minor : Int16}
    {name : List UInt8}
    (h : Working M A p ⟨update X i (some (.bare (Dinode.fresh type))), (ip, i) :: (dp, di) :: ks,
      [ip, dp], T, U, N, 1⟩ s)
    (h0 : 0 < i) (hi : X i = none) (hd : X di = some xd) (htd : xd.din.type = T_DIR)
    (hmiss : xd.file.index name = none)
    (hQ : ∀ z X' t, Edits (fileOf X) (fileOf X') → X' i = some z → z.din.type = type →
      Working M A p ⟨X', (ip, i) :: ks, [ip], T, U, N, 1⟩ t → Q () t) :
    Ends (createEntry M p dp ip name type major minor) s Q (Stops M) := by
  have hne : i ≠ di := by
    rintro rfl
    rw [hi] at hd
    cases hd
  have hslot : ip ≠ dp := by
    rintro rfl
    exact hne ((h.held ip i .top).symm.trans (h.held ip di .second))
  -- The inodes are those at the start, with `a` for the new one and `b` for the directory.
  let S : Extent → Extent → ℕ → Option Extent := fun a b =>
    update (update X i (some a)) di (some b)
  have hSi : ∀ a b, S a b i = some a := fun a b => by
    simp only [S, update_of_ne hne, update_self]
  have hSd : ∀ a b, S a b di = some b := fun a b => update_self ..
  have hSia : ∀ a b a', update (S a b) i (some a') = S a' b := fun a b a' => by
    simp only [S, update_comm hne.symm, update_idem]
  have hSdb : ∀ a b b', update (S a b) di (some b') = S a b' := fun a b b' => update_idem ..
  have hstart : update X i (some (.bare (Dinode.fresh type))) =
      S (.bare (Dinode.fresh type)) xd := by
    refine (update_eq_self_iff.2 ?_).symm
    rw [update_of_ne hne.symm, hd]
  rw [hstart] at h
  have hlt := h.lt_of_has .top
  have hlt' := h.lt_of_has .second
  -- The name in the directory, when everything else is done.
  have hname : ∀ {a b u}, Working M A p ⟨S a b, (ip, i) :: (dp, di) :: ks, [ip, dp], T, U, N, 1⟩ u →
      a.din.type = type → b.din.type = T_DIR → b.file.index name = none →
      (∀ c, DESIZE * b.file.vacancy + DESIZE ≤ MAXFILE * BSIZE →
        c.file = b.file.setEntry b.file.vacancy ⟨i, canon name⟩ →
        Edit (fileOf X) (fileOf (S a c))) →
      Ends (do
        let inum ← inumOf ip
        let r ← dirlink M p dp name inum
        if r < 0 then do
          Prog.panic "create: dirlink"
          iunlockput M p dp
        else iunlockput M p dp) u Q (Stops M) := by
    intro a b u hu ha hb hmiss' hedit
    refine ends_bind (returns_inumOf ?_)
    rw [hu.held ip i .top]
    refine ends_bind (hu.ends_dirlink .second (by simp) (hSd a b) hb le_rfl hlt
      (fun j l w hj => by rw [hmiss'] at hj; cases hj) fun c w _ hfits hc hw => ?_)
    simp only [lt_irrefl, if_false]
    rw [show (_ : View P).X = S _ _ from rfl, hSdb] at hw
    refine (hw.perm (List.Perm.swap ..)).ends_iunlockput (by simp) (fun m => ?_) le_rfl
      fun X' w' hF hw' => hQ a X' w' (.trans (.single (hedit c hfits hc)) hF.edits) ?_ ha hw'
    · by_cases hm : m = dp
      · simp [hm, hslot.symm]
      · simp [hm]
    · rw [hF.eq_of_has .top]
      exact hSi a c
  have hfile : ∀ a b, fileOf (S a b) = update (update (fileOf X) i (some a.file)) di
      (some b.file) := fun a b => by
    simp only [S, fileOf_update]
    rfl
  have hFi : fileOf X i = none := by
    unfold fileOf
    rw [hi]
    rfl
  have hlt16 : i < 2 ^ 16 := hlt.trans_le M.ninodes_le
  unfold createEntry
  refine h.ends_update .top (by simp) (hSi _ _) le_rfl rfl rfl rfl rfl fun t ht => ?_
  rw [show (_ : View P).X = S _ _ from rfl, hSia] at ht
  by_cases hdir : type = T_DIR
  · simp only [hdir, if_true]
    refine ht.ends_update .second (by simp) (hSd _ _) le_rfl rfl rfl rfl rfl
      fun t ht => ?_
    rw [show (_ : View P).X = S _ _ from rfl, hSdb] at ht
    obtain ⟨a, ha⟩ : ∃ a, a = (Extent.bare (Dinode.fresh type)).setDin
      { Dinode.fresh type with major := major, minor := minor, nlink := 1 } := ⟨_, rfl⟩
    have hat : a.file.type = T_DIR := by
      rw [ha]
      exact hdir
    obtain ⟨hv0, hi0, hv1, hi1, hdots, hsize⟩ :=
      FileData.dots_setEntry (f := a.file) (by rw [ha]; rfl) hlt16 (hlt'.trans_le M.ninodes_le) h0
    refine ends_bind (returns_inumOf ?_)
    rw [ht.held ip i .top]
    refine ends_bind (ht.ends_dirlink .top (by simp) (x := a)
      (by rw [ha]; exact hSi _ _) hat le_rfl hlt (fun j l w hj => by rw [hi0] at hj; cases hj)
      fun y w _ _ hy hw => ?_)
    rw [show (_ : View P).X = S _ _ from rfl, hSia] at hw
    rw [hv0] at hy
    simp only [lt_irrefl, if_false]
    refine ends_bind (returns_inumOf ?_)
    rw [hw.held dp di .second]
    refine ends_bind (hw.ends_dirlink .top (by simp) (hSi _ _)
      ((congrArg FileData.type hy).trans hat) le_rfl hlt' (fun j l w hj => by
        rw [hy, hi1] at hj
        cases hj) fun z w' _ _ hz hw' => ?_)
    rw [show (_ : View P).X = S _ _ from rfl, hSia] at hw'
    rw [hy, hv1] at hz
    rw [← hz] at hdots hsize
    simp only [lt_irrefl, if_false]
    refine hname hw' (((congrArg FileData.type hz).trans hat).trans hdir.symm) htd hmiss
      fun c hfits hc => ?_
    rw [hfile, hc]
    refine .mkdir (fileOf_eq_some hd) htd hmiss hfits hlt16 h0 hFi
      ((congrArg FileData.type hz).trans hat) ?_ hdots hsize
    rw [hz, ha]
    rfl
  · simp only [hdir, if_false]
    refine hname ht rfl htd hmiss fun c hfits hc => ?_
    rw [hfile, hc]
    exact .add (fileOf_eq_some hd) htd hmiss hfits hlt16 hne (fun _ => h0)
      (fun f hf => by rw [hFi] at hf; cases hf) hdir (by rw [hFi]; rfl)

theorem ends_create (h : Working M A p ⟨X, ks, [], T, U, N, 1⟩ s)
    (hv : Ready M p T U) {path : List UInt8} {type major minor : Int16} (htype : type ≠ 0)
    {Q : Option Slot → State P → Prop}
    (hnone : ∀ X' t, Edits (fileOf X) (fileOf X') →
      Working M A p ⟨X', ks, [], T, U, N, 1⟩ t → Q none t)
    (hsome : ∀ k i x X' t, Edits (fileOf X) (fileOf X') → X' i = some x → x.din.type = type →
      Working M A p ⟨X', (k, i) :: ks, [k], T, U, N, 1⟩ t → Q (some k) t) :
    Ends (create M p path type major minor) s Q (Stops M) := by
  refine ends_bind (h.ends_namex hv le_rfl path true
    (fun X' t hF ht => ends_pure (hnone X' t hF.edits ht)) fun dp name di X' t hF ht hdir => ?_)
  obtain ⟨xd, hd, htd⟩ := hdir rfl
  refine ends_bind (ht.ends_ilock .top fun x t hx _ ht => ?_)
  obtain rfl := Option.some.inj (hd.symm.trans hx)
  refine ends_bind (ht.ends_dirlookup .top (by simp) hd htd (fun hmiss => ?_)
    fun j l u hj hu => ?_)
  · -- A new inode.
    refine ends_bind (returns_devOf ?_)
    rw [ht.coherent.dev dp (ht.ref_pos .top)]
    refine ends_bind (ht.ends_ialloc le_rfl htype fun i l u h0 hi hu => ?_)
    refine ends_bind (hu.ends_ilock_new .top fun _ w _ _ hw => ?_)
    replace hw := hw.mono (B := A) (by
      rintro j ⟨hj, hji⟩
      exact hj.resolve_left hji)
    exact ends_bind (hw.ends_createEntry h0 hi hd htd hmiss fun z X'' w' hedits hz hzt hw' =>
      ends_pure (hsome l i z X'' w' (hF.edits.trans hedits) hz hzt hw'))
  · -- The name is there.
    refine ends_bind ((hu.perm (List.Perm.swap ..)).ends_iunlockput_only le_rfl
      fun X'' w hF' hw => ?_)
    refine ends_bind (hw.ends_ilock .top fun x w' hx _ hw' => ?_)
    have hedits := hF.edits.trans hF'.edits
    refine ends_bind (hw'.ends_load .top (by simp) hx ?_)
    split_ifs with hc
    · exact ends_pure (hsome l _ x X'' w' hedits hx (hc.2.trans hc.1.symm) hw')
    · exact ends_bind (hw'.ends_iunlockput_only le_rfl fun X₃ w₃ hF₃ hw₃ =>
        ends_pure (hnone X₃ w₃ (hedits.trans hF₃.edits) hw₃))

end Working

/-! ## Links -/

/-- The link count of an inode was raised, inodes were freed, and it was lowered again. -/
theorem View.Frees.lower (h : v.Frees X') (hv : v.X = update X i (some y)) (hx : X i = some x) :
    Edits (fileOf X) (fileOf (update X' i (some x))) := by
  unfold View.Frees at h
  rw [hv] at h
  refine .single (.free fun j => ?_)
  by_cases hj : j = i
  · left
    simp only [fileOf, hj, update_self, hx]
  · rcases h j with he | ⟨he, -, z, hz, h0⟩
    · left
      simp only [fileOf, update_of_ne hj, he]
    · rw [update_of_ne hj] at hz
      right
      simp only [fileOf, update_of_ne hj, he, hz]
      exact ⟨rfl, z.file, rfl, h0⟩

namespace Working

/-- The label `bad` of `sys_link`. -/
theorem ends_linkBad (h : Working M A p ⟨X, (k, i) :: ks, [], T, U, N, 1⟩ s)
    (hx : X i = some x.addLink) {Q : ℤ → State P → Prop}
    (hQ : ∀ t, Changed M A p ⟨update X i (some x), ks, [], T, U, N, 0⟩ t → Q (-1) t) :
    Ends (linkBad M p k) s Q (Stops M) := by
  refine ends_bind (h.ends_ilock .top fun _ t _ _ ht => ?_)
  have hback : ({ x.din with nlink := x.din.nlink + 1 - 1 } : Dinode) = x.din := by
    simp only [Int16.add_sub_cancel]
  have hself : x.addLink.setDin { x.din with nlink := x.din.nlink + 1 - 1 } = x := by
    rw [hback]
    rfl
  refine ht.ends_update .top (by simp) hx le_rfl rfl rfl rfl hself fun u hu => ?_
  exact hu.ends_leave hQ

theorem ends_sysLink (h : Working M A p ⟨X, ks, [], T, U, N, 0⟩ s)
    (hv : Ready M p T U) {old new : List UInt8} :
    Ends (sysLink M p old new) s (fun _ => Changed M A p ⟨X, ks, [], T, U, N, 0⟩) (Stops M) := by
  refine ends_bind (h.ends_beginOp fun t ht => ?_)
  refine ends_bind (ends_bind (ht.ends_namex hv le_rfl old false (fun X' u hF hu => ends_pure
    (ends_bind (hu.ends_endOp fun w hw => ends_pure ⟨X', hF.edits, hw⟩)))
    fun k _ i X' u hF hu _ => ends_pure ?_))
  refine ends_bind (hu.ends_ilock .top fun x w hx _ hw => ?_)
  change X' i = some x at hx
  refine ends_bind (hw.ends_load .top (by simp) hx ?_)
  by_cases htype : x.din.type = T_DIR
  · simp only [htype, if_true]
    exact hw.ends_leave fun _ ht => ht.trans hF.edits
  simp only [htype, if_false]
  refine hw.ends_update (y := x.addLink) .top (by simp) hx le_rfl rfl rfl rfl rfl
    fun w hw => ?_
  refine ends_bind (hw.ends_iunlock (by simp) [] (fun m => by simp) fun w hw => ?_)
  -- The inode keeps the link, as there is a pointer to it.
  have hkeep : ∀ {X₁ ls}, View.Frees ⟨update X' i (some x.addLink), (k, i) :: ks, ls, T,
      U, N, 1⟩ X₁ → X₁ i = some x.addLink := fun hF₁ => by
    rw [hF₁.eq_of_has .top]
    exact update_self ..
  -- The call fails afterwards.
  have hbad : ∀ {X₁ u}, View.Frees ⟨update X' i (some x.addLink), (k, i) :: ks, [], T, U, N,
        1⟩ X₁ → Working M A p ⟨X₁, (k, i) :: ks, [], T, U, N, 1⟩ u →
      Ends (linkBad M p k) u (fun _ => Changed M A p ⟨X, ks, [], T, U, N, 0⟩) (Stops M) :=
    fun hF₁ hu => hu.ends_linkBad (hkeep hF₁) fun t ht =>
      ht.trans (hF.edits.trans (hF₁.lower rfl hx))
  refine ends_bind (hw.ends_namex hv le_rfl new true (fun X₁ u hF₁ hu => hbad hF₁ hu)
    fun dp name di X₁ u hF₁ hu hdir => ?_)
  obtain ⟨xd, hd, htd⟩ := hdir rfl
  have hne : i ≠ di := by
    rintro rfl
    obtain rfl := Option.some.inj ((hkeep hF₁).symm.trans hd)
    exact htype htd
  refine ends_bind (hu.ends_ilock .top fun _ w _ _ hw => ?_)
  refine ends_bind (ends_bind (returns_devOf ?_))
  refine ends_bind (returns_devOf ?_)
  rw [hw.coherent.dev dp (hw.ref_pos .top), hw.coherent.dev k (hw.ref_pos .second)]
  simp only [ne_eq, not_true_eq_false, if_false]
  refine ends_bind (returns_inumOf ?_)
  rw [hw.held k i .second]
  have hlt := hw.lt_of_has .second
  refine hw.ends_dirlink .top (by simp) hd htd le_rfl hlt
    (fun j l w' _ hw' => ?_) fun y w' hmiss hfits hy hw' => ?_
  · -- The name is there.
    refine ends_bind (hw'.ends_iput le_rfl fun X₂ w₂ hF₂ hw₂ => ends_pure ?_)
    simp only [show (-1 : ℤ) < 0 by decide, if_true]
    refine ends_bind (hw₂.ends_iunlockput_only le_rfl fun X₃ w₃ hF₃ hw₃ => ?_)
    exact hbad ((hF₁.trans hF₂ fun _ => List.mem_cons_of_mem _).trans hF₃ fun _ => id) hw₃
  · -- The entry is stored.
    simp only [lt_irrefl, if_false]
    refine ends_bind (hw'.ends_iunlockput_only le_rfl fun X₂ w₂ hF₂ hw₂ => ?_)
    refine ends_bind (hw₂.ends_iput le_rfl fun X₃ w₃ hF₃ hw₃ => ?_)
    refine ends_bind (hw₃.ends_endOp fun t ht => ends_pure ⟨X₃, ?_, ht⟩)
    refine (((hF.edits.trans (hF₁.lower rfl hx)).tail ?_).trans hF₂.edits).trans hF₃.edits
    have hFi : fileOf (update X₁ i (some x)) i = some x.file := fileOf_eq_some (update_self ..)
    have hsame : fileOf (update X₁ di (some y)) = update (update (fileOf (update X₁ i (some x))) i
        (some x.addLink.file)) di (some y.file) := by
      rw [fileOf_update, fileOf_update, update_idem, ← fileOf_eq_some (hkeep hF₁), update_eq_self]
      rfl
    change Edit _ (fileOf (update X₁ di (some y)))
    rw [hsame, hy]
    refine .add (fileOf_eq_some ((update_of_ne hne.symm ..).trans hd)) htd hmiss hfits
      (hlt.trans_le M.ninodes_le) hne (fun hn => absurd (hFi.symm.trans hn) (by simp))
      (fun f hf => ?_) htype (by rw [hFi]; rfl)
    obtain rfl := Option.some.inj (hFi.symm.trans hf)
    exact htype

/-! ## Removing a name -/

theorem ends_isdirempty (h : Working M A p v s) (hk : v.Has k i) (hl : k ∈ v.ls)
    (hx : v.X i = some x) (ht : x.din.type = T_DIR) {Q : Bool → State P → Prop}
    (hQ : ∀ b, (b = true → x.file.Empty) → Q b s) : Ends (isdirempty M p k) s Q (Stops M) := by
  have hdir := (h.ownsDir hk hl hx ht).cachedDir
  refine ends_bind (h.ends_load hk hl hx ?_)
  dsimp only
  refine ends_bind (ends_search (fun j t => t = s ∧ ∀ l, 2 ≤ l → l < j → (x.file.entry l).inum = 0)
    (fun j t hj hlt hI => ?_) (fun t hI => ?_) ⟨rfl, fun l _ _ => by omega⟩)
  · obtain ⟨rfl, hl⟩ := hI
    have hc := hdir.whole.complete (show j < numEntries x.din.size by omega)
    refine ends_bind (returns_readEntry hdir.toCached ht hdir.size_le hc
      (hdir.blocks hc) ?_)
    by_cases h0 : (x.file.entry j).inum = 0
    · rw [if_neg (not_not.2 h0)]
      refine ends_pure ⟨rfl, fun l h2 hlt => ?_⟩
      rcases Nat.lt_succ_iff_lt_or_eq.1 hlt with hlt | rfl
      · exact hl l h2 hlt
      · exact h0
    · rw [if_pos h0]
      exact ends_pure (ends_pure (hQ _ fun hb => by cases hb))
  · obtain ⟨rfl, hl⟩ := hI
    refine ends_pure (hQ _ fun _ l h2 hc => hl l h2 ?_)
    have : l < numEntries x.din.size := hc.lt
    omega

/-- The end of `sys_unlink` : the name is removed. -/
theorem ends_unlinkEntry {dp ip : Slot} {di : ℕ} {xd : Extent} {name : List UInt8}
    (h : Working M A p ⟨X, (ip, i) :: (dp, di) :: ks, [ip, dp], T, U, N, 1⟩ s)
    (hd : X di = some xd) (htd : xd.din.type = T_DIR) (hj : xd.file.index name = some j)
    (hi : (xd.file.entry j).inum = i) (hdot : namecmp name dotName ≠ 0)
    (hdotdot : namecmp name dotdotName ≠ 0) (hslot : ip ≠ dp) (hx : X i = some x)
    (hlink : ¬ x.din.nlink < 1) (hempty : x.din.type = T_DIR → x.file.Empty)
    {Q : ℤ → State P → Prop} (hQ : ∀ t, Changed M A p ⟨X, ks, [], T, U, N, 0⟩ t → Q 0 t) :
    Ends (unlinkEntry M p dp ip (DESIZE * j)) s Q (Stops M) := by
  have hne : i ≠ di := by
    rintro rfl
    exact hslot (h.eq_of_has .top .second)
  have hsane := h.sane di xd hd
  have hle : DESIZE * j + DESIZE ≤ xd.din.size.toNat := ((hsane.whole htd).finds hj).complete
  have hmax := size_le_of_holeFree hsane.holeFree (by rw [htd]; exact T_DIR_ne_T_DEV)
  -- The directory is done, and the inode loses the link.
  have hrest : ∀ {yd u}, Working M A p ⟨update X di (some yd), (ip, i) :: (dp, di) :: ks, [ip, dp],
        T, U, N, 1⟩ u →
      yd.file = { xd.file.setEntry j FileData.noEntry with
        nlink := if x.din.type = T_DIR then xd.din.nlink - 1 else xd.din.nlink } →
      Ends (do
        iunlockput M p dp
        store ip fun d => { d with nlink := d.nlink - 1 }
        iupdate M ip
        iunlockput M p ip
        endOp
        return 0) u Q (Stops M) := by
    intro yd u hu hyd
    refine ends_bind ((hu.perm (List.Perm.swap ..)).ends_iunlockput (by simp)
      (fun m => show m ∈ [ip] ↔ _ from ?_) le_rfl fun X₁ w₁ hF₁ hw₁ => ?_)
    · by_cases hm : m = dp
      · simp [hm, hslot.symm]
      · simp [hm]
    have hx₁ : X₁ i = some x := by
      rw [hF₁.eq_of_has .top]
      exact (update_of_ne hne ..).trans hx
    refine hw₁.ends_update .top (by simp) hx₁ le_rfl rfl rfl rfl rfl fun t ht => ?_
    refine ht.ends_leave fun t ht => hQ t (ht.trans ?_)
    have hback : update X di (some yd) = update (update (update X di (some yd)) i
        (some (x.setDin { x.din with nlink := x.din.nlink - 1 }))) i (some x) := by
      rw [update_idem, eq_comm, update_eq_self_iff, update_of_ne hne, hx]
    refine (Relation.ReflTransGen.single ?_).trans (hF₁.lower hback (update_self ..))
    rw [fileOf_update, fileOf_update]
    change Edit _ (update (update _ _ (some yd.file)) i (some { x.file with
      nlink := x.file.nlink - 1 }))
    rw [hyd]
    exact .remove (fileOf_eq_some hd) htd hj hi (hle.trans hmax) hdot hdotdot hne
      (fileOf_eq_some hx) hlink hempty
  refine ends_bind (h.ends_writeEntry .second (by simp) hd htd le_rfl
    (show FileData.noEntry.inum < _ from (Nat.zero_le i).trans_lt (h.lt_of_has .top)) (by decide)
    (by omega) (fun hfull => by omega) fun yd t hfits hyd ht => ?_)
  refine ends_bind (ht.ends_load .top (by simp) ((update_of_ne hne ..).trans hx) ?_)
  by_cases hdir : x.din.type = T_DIR
  · simp only [hdir, if_true] at hrest ⊢
    refine ht.ends_update .second (by simp) (update_self ..) le_rfl rfl rfl rfl rfl
      fun u hu => ?_
    rw [show (_ : View P).X = update X di (some yd) from rfl, update_idem] at hu
    refine hrest hu ?_
    change { yd.file with nlink := yd.file.nlink - 1 } = _
    rw [hyd]
    rfl
  · simp only [hdir, if_false] at hrest ⊢
    refine hrest ht ?_
    rw [hyd]
    rfl

theorem ends_sysUnlink (h : Working M A p ⟨X, ks, [], T, U, N, 0⟩ s)
    (hv : Ready M p T U) {path : List UInt8} :
    Ends (sysUnlink M p path) s (fun _ => Changed M A p ⟨X, ks, [], T, U, N, 0⟩) (Stops M) := by
  refine ends_bind (h.ends_beginOp fun t ht => ?_)
  refine ends_bind (ht.ends_namex hv le_rfl path true (fun X' u hF hu => ends_bind
    (hu.ends_endOp fun t ht => ends_pure ⟨X', hF.edits, ht⟩)) fun dp name di X' u hF hu hdir => ?_)
  obtain ⟨xd, hd, htd⟩ := hdir rfl
  refine ends_bind (hu.ends_ilock .top fun x w hx _ hw => ?_)
  obtain rfl := Option.some.inj (hd.symm.trans hx)
  by_cases hdots : namecmp name dotName = 0 ∨ namecmp name dotdotName = 0
  · simp only [hdots, if_true]
    exact hw.ends_leave fun _ ht => ht.trans hF.edits
  simp only [hdots, if_false]
  obtain ⟨hdot, hdotdot⟩ := not_or.1 hdots
  refine ends_bind (hw.ends_dirlookup .top (by simp) hd htd
    (fun _ => hw.ends_leave fun _ ht => ht.trans hF.edits) fun j ip w₁ hj hw₁ => ?_)
  refine ends_bind (hw₁.ends_ilock .top fun x w₂ hx hnot hw₂ => ?_)
  have hslot : ip ≠ dp := fun he => hnot (he ▸ List.mem_cons_self)
  refine ends_bind (hw₂.ends_load .top (by simp) hx ?_)
  by_cases hlink : x.din.nlink < 1
  · simp only [hlink, if_true]
    exact ends_panic (.panic (by simp) _)
  simp only [hlink, if_false]
  have hdone : (x.din.type = T_DIR → x.file.Empty) →
      Ends (unlinkEntry M p dp ip (DESIZE * j)) w₂
        (fun _ => Changed M A p ⟨X, ks, [], T, U, N, 0⟩) (Stops M) := fun hempty =>
    hw₂.ends_unlinkEntry hd htd hj rfl hdot hdotdot hslot hx hlink hempty fun _ ht =>
      ht.trans hF.edits
  by_cases hdir : x.din.type = T_DIR
  · simp only [hdir, if_true, bind_assoc, pure_bind]
    refine ends_bind (hw₂.ends_isdirempty .top (by simp) hx hdir fun b hb => ?_)
    cases b with
    | true => exact hdone fun _ => hb rfl
    | false =>
      refine ends_bind (hw₂.ends_iunlockput (by simp) (fun m => ?_) le_rfl fun X₁ w₃ hF₁ hw₃ =>
        hw₃.ends_leave fun _ ht => ht.trans (hF.edits.trans hF₁.edits))
      by_cases hm : m = ip
      · simp [hm, hslot]
      · simp [hm]
  · simp only [hdir, if_false, pure_bind]
    exact hdone fun hc => absurd hc hdir

end Working

end Xv6.Fs
