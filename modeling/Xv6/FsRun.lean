import Xv6.FsProc
/-!
# FsRun — runs of file-system calls

From a consistent image every state of a run is sane (`Sane`): between two calls the accounting holds, and a call that panics
does not
do so in `bfree`. What the runs keep follows: each block is owned once, the references are balanced, and each transaction fits
in
the log.
-/
namespace Xv6.Fs

open Function List Wp
variable {s s' : FsState} {im : Image} {p : Slot} {x : Proc} {v : Vol} {a : Slot × Call}

/-! ## The start -/

theorem fileIps_free : fileIps (fun _ => freeFile) = 0 := Sum.sum_map_zero (fun _ _ => rfl)

theorem cwds_firstProc (v : Vol) (panic : Option Panic) : cwds (firstProc v panic) = {0} := by
  obtain ⟨s0, hs0⟩ : ∃ s0 : FsState, s0 = { firstProc v panic with proc := fun _ => none } := ⟨_, rfl⟩
  have hzero : cwds s0 = 0 := by
    rw [hs0]
    exact Sum.sum_map_zero (fun _ _ => rfl)
  have hp : (firstProc v panic).proc = update s0.proc initSlot (some ⟨0, fun _ => none⟩) := by
    rw [hs0]
    rfl
  have h := cwds_update hp
  rw [hzero, hs0, zero_add] at h
  exact (add_zero _).symm.trans h

theorem uses_firstProc (v : Vol) (panic : Option Panic) : uses (firstProc v panic) = 0 := by
  apply Sum.sum_map_zero
  intro p _
  unfold firstProc
  dsimp only
  by_cases e : p = initSlot
  · rw [e, update_self]
    exact ofiles_none (fun _ => rfl)
  · rw [update_of_ne e]
    rfl

/-- **What `fsinit` leaves** of a consistent image. -/
structure Booted (im : Image) (v : Vol) : Prop where
  mid : Mid v {0} []
  idle : Idle v
  did : Did {0} (mount im) v
  shrinks : Shrinks (tree (mount im)) (tree v)
  good : Good v {0}

theorem ireclaim_booted (hc : Consistent im) : ∃ v, ireclaim.run (mount im) = .ok ((), v) ∧ Booted im v := by
  have h := ireclaim_spec (mount_mid hc) ⟨rfl, rfl, fun _ => rfl⟩ ⟨1, by decide⟩
  unfold wp at h
  cases hr : ireclaim.run (mount im) with
  | error e =>
    rw [hr] at h
    exact absurd h id
  | ok r =>
    rw [hr] at h
    obtain ⟨hm, hi, hd, hs, hg⟩ := h
    exact ⟨r.2, rfl, hm, hi, hd, hs, hg⟩

theorem Booted.inv (h : Booted im v) (hroot : (v.dinode rootino).type ≠ .none) : Inv (firstProc v none) := by
  apply inv_of_res _ (cwds_firstProc v none) (uses_firstProc v none)
  have hips : ({0} : Multiset Ip) + fileIps (firstProc v none).ftable = {0} := by
    rw [show fileIps (firstProc v none).ftable = 0 from fileIps_free, add_zero]
  have hinum : (v.inode 0).inum = rootino := h.did.inum 0 (Multiset.mem_singleton_self 0)
  have hbase : Base v {0} := by
    refine ⟨h.good, fun a ha => ?_⟩
    rw [Multiset.mem_singleton.1 ha, hinum]
    exact tree_ne_none (by decide) hroot
  constructor
  · rw [hips]
    exact h.mid
  · rw [hips]
    exact hbase
  · exact h.idle
  · intro f
    rfl
  · intro f
    exact ⟨fun _ => rfl, fun _ => rfl⟩
  · rintro f (ht | ht)
    · cases ht
    · cases ht
  · refine ⟨fun f hf => (by cases hf), fun f _ _ _ hf => (by cases hf.1), fun i hi => ?_, fun i hi => ?_⟩
    · exact absurd hi (Nat.not_lt_zero i)
    · exact absurd hi (Nat.not_lt_zero i)

/-! ## Steps -/

/-- **A state of a run**: what holds between two calls, unless one has panicked. -/
structure Sane (s : FsState) : Prop where
  inv : s.panic = none → Inv s
  mid : ∃ R, Mid s.vol R []
  panic : s.panic ≠ some .freeingFreeBlock

theorem start_eq (h : ireclaim.run (mount im) = .ok ((), v)) :
    start im = firstProc v
      (v.blk.halted.map .logWrite <|> if (v.dinode rootino).type = .none then some .ilockNoType else none) := by
  unfold start
  rw [h]

theorem start_sane (hc : Consistent im) : Sane (start im) := by
  obtain ⟨v, hr, hv⟩ := ireclaim_booted hc
  rw [start_eq hr]
  cases v.blk.halted with
  | some e => exact ⟨fun e => (by cases e), ⟨_, hv.mid⟩, fun e => by cases e⟩
  | none =>
    by_cases hroot : (v.dinode rootino).type = .none
    · rw [if_pos hroot]
      exact ⟨fun e => (by cases e), ⟨_, hv.mid⟩, fun e => by cases e⟩
    · rw [if_neg hroot]
      exact ⟨fun _ => hv.inv hroot, ⟨_, hv.mid⟩, fun e => by cases e⟩

theorem start_sb (hc : Consistent im) : (start im).vol.blk.sb = im.sb := by
  obtain ⟨v, hr, hv⟩ := ireclaim_booted hc
  rw [start_eq hr]
  exact hv.did.sb

theorem start_proc (hc : Consistent im) : (start im).proc initSlot = some ⟨0, fun _ => none⟩ := by
  obtain ⟨v, hr, -⟩ := ireclaim_booted hc
  rw [start_eq hr]
  rfl

def Mild (e : Panic) : Prop := e ≠ .freeingFreeBlock

theorem excused_mild (t : Tree) : Excused Mild t :=
  ⟨fun _ h _ _ => h, Or.inl (fun e => by cases e), Or.inl (fun e he e0 => by subst e0; revert he; decide)⟩

/-- The call stops in a panic of its own, or in one of `log_write`. -/
def Stops (m : SM Int) (s : FsState) (e : Panic) : Prop := m.run s = .error e ∨ ∃ l, e = .logWrite l

theorem Stops.excused {F : Panic → Prop} {Q : Int → FsState → Prop} {m : SM Int} {e : Panic} (h : Stops m s e)
    (hw : wp m Q F s) (hF : ∀ l, F (.logWrite l)) : F e := by
  rcases h with h | ⟨l, rfl⟩
  · exact wp_of_error hw h
  · exact hF l

theorem fsStep_cases (h : fsStep s a = some s') :
    s.panic = none ∧ ∃ x, s.proc a.1 = some x ∧ ((∃ r, (program a.1 x a.2).run s = .ok (r, s')) ∨
      ∃ e, Stops (program a.1 x a.2) s e ∧ s' = { s with panic := some e }) := by
  unfold fsStep at h
  split at h
  · cases h
  rename_i hp
  refine ⟨not_not.1 hp, ?_⟩
  split at h
  · cases h
  rename_i x hx
  refine ⟨x, hx, ?_⟩
  split at h
  · rename_i r s1 hr
    split at h
    · cases h
      exact .inl ⟨r, hr⟩
    · cases h
      exact .inr ⟨_, .inr ⟨_, rfl⟩, rfl⟩
  · rename_i e hr
    cases h
    exact .inr ⟨e, .inl hr, rfl⟩

theorem Ret.sane (h : Ret s s') (hp : s.panic = none) : Sane s' :=
  ⟨fun _ => h.inv, ⟨_, h.inv.mid⟩, fun e => by rw [h.panic, hp] at e; cases e⟩

theorem fsStep_sane (h : Sane s) (hs : fsStep s a = some s') : Sane s' := by
  obtain ⟨hp, x, hx, ⟨r, hr⟩ | ⟨e, hr, rfl⟩⟩ := fsStep_cases hs
  · have hw := wp_of_ok (program_spec a.2 (h.inv hp) hx (excused_mild _)) hr
    exact hw.1.sane hp
  · have hw := hr.excused (program_spec a.2 (h.inv hp) hx (excused_mild _)) (fun _ e => by cases e)
    exact ⟨fun e => (by cases e), h.mid, fun e => hw (Option.some.inj e)⟩

theorem run_sane (hc : Consistent im) (calls : List (Slot × Call)) : Run.allStates fsStep Sane (start im) calls :=
  Run.allStates_of_allSteps (fun _ _ _ h _ => fsStep_sane h) calls (start im) (start_sane hc)
    (Run.allSteps_true calls (start im))

theorem reached_inv (hc : Consistent im) {calls : List (Slot × Call)}
    (hs : Run.run fsStep (start im) calls = some s) (hp : s.panic = none) : Inv s :=
  (Run.allStates_last calls (start im) s (run_sane hc calls) hs).inv hp

/-! ## An image -/

/-- A disk of 56 blocks with an empty root directory, in the first data block. -/
def rootImage : Image where
  sb := ⟨56, 20, 16, 33, 35, by decide, by decide, by decide⟩
  dinode := fun i => if i = rootino then ⟨.dir, 0, 0, 1, 32, fun k => if k = 0 then 36 else 0⟩ else freshDinode .none
  bit := fun b => decide (b < 37)
  data := fun b j => if b = 36 then (dots rootino rootino).getD j 0 else 0
  nlink_short := fun i => by
    split
    · decide
    · decide
  outside := fun i hi => by
    have hne : i ≠ rootino := by
      rintro rfl
      revert hi
      decide
    rw [if_neg hne]
    rfl

theorem owned_rootImage : owned (mount rootImage) = {36} := by
  have hroot : blocksAt rootImage.data (rootImage.dinode rootino) = {36} := by
    have hdir : directBlocks ⟨.dir, 0, 0, 1, 32, fun k => if k = 0 then 36 else 0⟩ = {36} := by
      unfold directBlocks
      decide
    exact (congrArg (· + (0 : Multiset Nat)) hdir).trans (add_zero _)
  have hrest : others (mount rootImage) rootino = 0 := by
    apply Sum.sum_map_zero
    intro i _
    by_cases e : i = rootino
    · rw [if_pos e]
    · rw [if_neg e]
      change blocksAt rootImage.data (if i = rootino then _ else freshDinode .none) = 0
      rw [if_neg e]
      rfl
  rw [owned_split (show rootino < 65536 by decide), hrest, zero_add]
  exact hroot

theorem rootImage_consistent : Consistent rootImage := by
  refine ⟨⟨?_, ?_, ?_⟩, fun i hi ht bn hbn => ?_⟩
  · rw [owned_rootImage]
    exact Multiset.nodup_singleton _
  · intro b hb
    rw [owned_rootImage, Multiset.mem_singleton] at hb
    rw [hb]
    decide
  · intro b hb
    rw [owned_rootImage, Multiset.mem_singleton]
    change decide (b < 37) = true ↔ b < 36 ∨ b = 36
    rw [decide_eq_true_eq]
    omega
  · by_cases e : i = rootino
    · subst e
      have h0 : bn = 0 := by
        have hlt : bn * 1024 < 32 := hbn
        omega
      subst h0
      decide
    · have hd : rootImage.dinode i = freshDinode .none := if_neg e
      rw [hd] at ht
      exact absurd rfl ht

def someCalls : List (Slot × Call) := [(initSlot, .mkdir (some [47, 97])), (initSlot, .open (some [97, 47, 98]) 0x202)]

/-! ## Block ownership -/

/-- **Every block is owned once**: the bitmap marks the metadata and the blocks of the inodes, no block below the size of an
inode is missing, and neither has `bfree` panicked nor `readi` allocated. -/
structure BlocksOwned (s : FsState) : Prop where
  marks : Marks s.vol.blk (owned s.vol)
  full : ∀ i < 65536, (s.vol.dinode i).type ≠ .none → Full s.vol.blk.data (s.vol.dinode i)
  panic : s.panic ≠ some .freeingFreeBlock
  reads : s.vol.blk.readAllocs = 0

theorem Sane.blocksOwned (h : Sane s) : BlocksOwned s :=
  let ⟨_, hm⟩ := h.mid
  ⟨hm.marks, hm.full, h.panic, hm.reads⟩

/-- **From a consistent image, every block is owned once in every state of every run.** -/
theorem run_blocksOwned {im : Image} (hc : Consistent im) (calls : List (Slot × Call)) :
    Run.allStates fsStep BlocksOwned (start im) calls :=
  Run.allStates_mono (fun _ h => h.blocksOwned) calls (start im) (run_sane hc calls)

theorem run_blocksOwned_root : (Run.run fsStep (start rootImage) someCalls).map FsState.panic = some none ∧
    Run.allStates fsStep BlocksOwned (start rootImage) someCalls :=
  ⟨by decide +kernel, run_blocksOwned rootImage_consistent someCalls⟩

/-! ## References -/

def ofileSlots (s : FsState) : List (Option Fp) :=
  procs.flatMap (fun p => fds.map (fun i => (s.proc p).bind (fun x => x.ofile i)))

def openInodes (s : FsState) : List Ip :=
  (files.filter (fun f => decide ((s.ftable f).ref ≠ 0 ∧ ((s.ftable f).type = .inode ∨ (s.ftable f).type = .device)))).map
    (fun f => (s.ftable f).ip)

def workDirs (s : FsState) : List Ip := procs.filterMap (fun p => (s.proc p).map (fun x => x.cwd))

/-- **Nothing is held too long or given up too early**: no inode is locked, a file has as many references as there are
descriptors for it, an inode as many as there are open files and working directories for it, and the page of a pipe is there
exactly as long as one of its files is. -/
structure Balanced (s : FsState) : Prop where
  locks : s.vol.locks = []
  files : ∀ f, (s.ftable f).ref = (ofileSlots s).count (some f)
  inodes : ∀ a, (s.vol.inode a).ref = (openInodes s).count a + (workDirs s).count a
  pipes : ∀ i < s.npipe, (s.pipe i).page = false ↔ ∀ f, (s.ftable f).type = .pipe → (s.ftable f).pipe = i →
    (s.ftable f).ref = 0

theorem count_ofiles (y : Option Proc) (f : Fp) :
    (ofiles y).count f = (fds.map (fun i => y.bind (fun x => x.ofile i))).count (some f) := by
  cases y with
  | none =>
    have hne : ∀ i ∈ fds, (none : Option Fp) ≠ some f := fun i _ e => by cases e
    change 0 = (fds.map (fun _ => (none : Option Fp))).count (some f)
    rw [eq_comm, count_eq_zero]
    intro hm
    obtain ⟨i, hi, e⟩ := mem_map.1 hm
    exact hne i hi e
  | some x =>
    unfold ofiles
    rw [Sum.count_sum_map]
    induction fds with
    | nil => rfl
    | cons i l ih =>
      rw [map_cons, sum_cons, ih, map_cons, count_cons, add_comm, Option.bind_some]
      congr 1
      cases hf : x.ofile i with
      | none => rfl
      | some g =>
        by_cases e : g = f
        · rw [e]
          simp [fdRef]
        · simp [fdRef, e, Ne.symm e]

theorem count_uses (s : FsState) (f : Fp) : (uses s).count f = (ofileSlots s).count (some f) := by
  unfold uses ofileSlots
  rw [Sum.count_sum_map, count_flatMap]
  apply Sum.sum_map_congr
  intro p _
  exact count_ofiles _ f

theorem fileIps_eq (h : ∀ f, (s.ftable f).type = .none ↔ (s.ftable f).ref = 0) :
    fileIps s.ftable = (openInodes s : Multiset Ip) := by
  unfold fileIps openInodes
  induction files with
  | nil => rfl
  | cons f l ih =>
    rw [map_cons, sum_cons, ih, filter_cons]
    unfold fileRef
    cases ht : (s.ftable f).type with
    | none => simp
    | pipe => simp
    | inode =>
      have hne : (s.ftable f).ref ≠ 0 := fun e => by rw [(h f).2 e] at ht; cases ht
      simp [hne]
    | device =>
      have hne : (s.ftable f).ref ≠ 0 := fun e => by rw [(h f).2 e] at ht; cases ht
      simp [hne]

theorem cwds_eq (s : FsState) : cwds s = (workDirs s : Multiset Ip) := by
  unfold cwds workDirs
  induction procs with
  | nil => rfl
  | cons p l ih =>
    rw [map_cons, sum_cons, ih, filterMap_cons]
    cases s.proc p with
    | none => exact zero_add _
    | some x => rfl

theorem Inv.balanced (h : Inv s) : Balanced s := by
  refine ⟨h.mid.locks, fun f => ?_, fun a => ?_, fun i hi => ?_⟩
  · rw [h.files f]
    exact count_uses s f
  · rw [h.mid.refs a, cwds_eq, fileIps_eq h.typed, Multiset.count_add, Multiset.coe_count, Multiset.coe_count, add_comm]
    push_cast
    rfl
  have hopen : ∀ w, (s.pipe i).isOpen w = true ↔ ∃ f, IsEnd (s.ftable f) i w := h.pipes.ends i hi
  have hpage : (s.pipe i).page = ((s.pipe i).isOpen false || (s.pipe i).isOpen true) := h.pipes.page i hi
  constructor
  · intro hp f ht hf
    rw [hpage, Bool.or_eq_false_iff] at hp
    have hend : (s.pipe i).isOpen (s.ftable f).writable = true := (hopen _).2 ⟨f, ht, hf, rfl⟩
    cases hw : (s.ftable f).writable with
    | false =>
      rw [hw, hp.1] at hend
      cases hend
    | true =>
      rw [hw, hp.2] at hend
      cases hend
  · intro hall
    have hclosed : ∀ w, (s.pipe i).isOpen w = false := fun w => by
      rw [Bool.eq_false_iff]
      intro hw
      obtain ⟨f, ht, hf, -⟩ := (hopen w).1 hw
      have h0 := (h.typed f).2 (hall f ht hf)
      rw [ht] at h0
      cases h0
    rw [hpage, hclosed false, hclosed true]
    rfl

/-- **Resource balance**: a call that returns leaves everything balanced, and as many operations in progress as there were.
The states between the calls of a run from a consistent image are such states. -/
theorem calls_balanced {im : Image} (hc : Consistent im) :
    (∀ calls s, Run.run fsStep (start im) calls = some s → s.panic = none → Inv s) ∧
    ∀ s, Inv s → ∀ p x c r s', s.proc p = some x → (program p x c).run s = .ok (r, s') →
      Balanced s' ∧ s'.vol.outstanding = s.vol.outstanding ∧ Inv s' := by
  constructor
  · intro calls s hs hp
    exact reached_inv hc hs hp
  · intro s h p x c r s' hx hr
    have hret := (wp_of_ok (program_spec c h hx (excused_mild _)) hr).1
    exact ⟨hret.inv.balanced, hret.inv.idle.outstanding.trans h.idle.outstanding.symm, hret.inv⟩

theorem calls_balanced_root : (Run.run fsStep (start rootImage) someCalls).map FsState.panic = some none ∧
    ∀ s, Run.run fsStep (start rootImage) someCalls = some s → Balanced s := by
  refine ⟨by decide +kernel, fun s hs => ?_⟩
  have hp : s.panic = none := by
    have h : (Run.run fsStep (start rootImage) someCalls).map FsState.panic = some none := by decide +kernel
    rw [hs] at h
    exact Option.some.inj h
  exact ((calls_balanced rootImage_consistent).1 someCalls s hs hp).balanced

/-- **An inode without links lives as long as somebody holds it**: after any calls, an inode in use whose link count is zero
is that of an open file or of a working directory; and all of those are in use, whatever has been unlinked. -/
theorem unlinked_while_held {im : Image} (hc : Consistent im) {calls : List (Slot × Call)} {s : FsState}
    (hs : Run.run fsStep (start im) calls = some s) (hp : s.panic = none) :
    (∀ i n, tree s.vol i = some n → n.nlink = 0 → ∃ a ∈ holders s, (s.vol.inode a).inum = i) ∧
    ∀ a ∈ holders s, tree s.vol (s.vol.inode a).inum ≠ none := by
  have hb := (reached_inv hc hs hp).base
  refine ⟨fun i n hn h0 => ?_, hb.alloc⟩
  obtain ⟨a, ha, hi, -⟩ := hb.good i n hn h0
  exact ⟨a, ha, hi⟩

def openUnlinked : List (Slot × Call) := [(initSlot, .open (some [97]) 0x202), (initSlot, .unlink (some [97]))]

theorem unlinked_while_held_file :
    ∃ s, Run.run fsStep (start rootImage) openUnlinked = some s ∧ ∀ a ∈ holders s, tree s.vol (s.vol.inode a).inum ≠ none := by
  have hp : (Run.run fsStep (start rootImage) openUnlinked).map FsState.panic = some none := by decide +kernel
  obtain ⟨s, hs, hn⟩ := Option.map_eq_some_iff.1 hp
  exact ⟨s, hs, (unlinked_while_held rootImage_consistent hs hn).2⟩

/-! ## Transactions -/

theorem Chain.length_le {sb : Sb} (hsize : sb.size ≤ bsize * 8) : ∀ {trs : List Trans} {disk : Nat → Content},
    Chain sb disk trs → ∀ tr ∈ trs, tr.length ≤ maxOpBlocks
  | [], _, _, tr, hm => by cases hm
  | _ :: _, _, h, tr, hm => by
    rcases mem_cons.1 hm with rfl | hm
    · exact h.1 hsize
    · exact h.2.2.length_le hsize tr hm

theorem Did.fits {R : Multiset Ip} {v' : Vol} (h : Did R v v') (hsize : v.blk.sb.size ≤ bsize * 8) :
    ∃ new, v'.trans = v.trans ++ new ∧ ∀ tr ∈ new, tr.length ≤ maxOpBlocks := by
  obtain ⟨new, ht, -, hc⟩ := h.log
  exact ⟨new, ht, hc.length_le hsize⟩

/-- **Each transaction fits in what an operation reserves**: on a disk with one bitmap block, the transactions of `ireclaim`,
and those of a call in any state that is consistent; `log_write` never panics. -/
theorem transactions_fit {im : Image} (hc : Consistent im) (hsize : im.sb.size ≤ bsize * 8) :
    (∃ v, ireclaim.run (mount im) = .ok ((), v) ∧ (∀ tr ∈ v.trans, tr.length ≤ maxOpBlocks) ∧ v.blk.halted = none) ∧
    ∀ s, Inv s → s.vol.blk.sb = im.sb → ∀ p x c r s', s.proc p = some x → (program p x c).run s = .ok (r, s') →
      (∃ new, s'.vol.trans = s.vol.trans ++ new ∧ ∀ tr ∈ new, tr.length ≤ maxOpBlocks) ∧ s'.vol.blk.halted = none := by
  constructor
  · obtain ⟨v, hr, hv⟩ := ireclaim_booted hc
    obtain ⟨new, ht, hfit⟩ := hv.did.fits hsize
    refine ⟨v, hr, fun tr hm => hfit tr ?_, hv.idle.halted (by rw [hv.did.sb]; exact hsize)⟩
    rwa [ht] at hm
  · intro s h hsb p x c r s' hx hr
    rw [← hsb] at hsize
    have hret := (wp_of_ok (program_spec c h hx (excused_mild _)) hr).1
    exact ⟨hret.did.fits hsize, hret.inv.idle.halted (by rw [hret.did.sb]; exact hsize)⟩

theorem transactions_fit_root : ∃ r s',
    (program initSlot ⟨0, fun _ => none⟩ (.mkdir (some [47, 97]))).run (start rootImage) = .ok (r, s') ∧ r = 0 ∧
      (∃ new, s'.vol.trans = (start rootImage).vol.trans ++ new ∧ ∀ tr ∈ new, tr.length ≤ maxOpBlocks) ∧
      s'.vol.blk.halted = none := by
  have hp : (start rootImage).panic = none := by decide +kernel
  have hrun : ((program initSlot ⟨0, fun _ => none⟩ (.mkdir (some [47, 97]))).run (start rootImage)).toOption.map Prod.fst =
      some 0 := by decide +kernel
  cases hr : (program initSlot ⟨0, fun _ => none⟩ (.mkdir (some [47, 97]))).run (start rootImage) with
  | error e =>
    rw [hr] at hrun
    cases hrun
  | ok q =>
    rw [hr] at hrun
    exact ⟨q.1, q.2, rfl, Option.some.inj hrun, (transactions_fit rootImage_consistent (by decide)).2 _
      ((start_sane rootImage_consistent).inv hp) (start_sb rootImage_consistent) _ _ _ _ _
      (start_proc rootImage_consistent) hr⟩

end Xv6.Fs
