import Xv6.LogCrash
import Xv6.FsFollow
/-!
# FsCrash — a crash, recovery of the log, and `ireclaim`

The transactions of the calls are the groups of the log (`Carries`): whenever the machine stops, `recover_from_log` leaves
at the home locations what the first of them have written (`Log.crash_atomicity`), and each of them leaves a consistent
image (`Chain.sound`). `ireclaim` then frees the inodes without links and keeps the others (`ireclaim_reclaims`).

`ireclaim` frees an inode in one operation. On a disk with one bitmap block that fits in the log; on a larger one the blocks of
an inode can lie in more bitmap blocks than `LOGBLOCKS`, and `log_write` panics.
-/
namespace Xv6.Fs

open Function List Wp
variable {im : Image} {s : FsState} {b : Nat}

/-! ## Every prefix of the transactions is sound -/

theorem Chain.sound {sb : Sb} : ∀ {trs : List Trans} {disk : Nat → Content}, Chain sb disk trs → Sound sb disk → ∀ m,
    Sound sb ((trs.take m).foldl installTrans disk)
  | _, _, _, h0, 0 => h0
  | [], _, _, h0, _ + 1 => h0
  | _ :: _, _, h, _, m + 1 => h.2.2.sound h.2.1 m

theorem run_did (him : Consistent im) {calls : List (Slot × Call)} (hs : Run.run fsStep (start im) calls = some s) :
    Did 0 (mount im) s.vol := by
  have hstart : Sane (start im) ∧ Did 0 (mount im) (start im).vol := by
    refine ⟨start_sane him, ?_⟩
    obtain ⟨v, hr, hv⟩ := ireclaim_booted him
    rw [start_eq hr]
    exact hv.did.mono (Multiset.zero_le _)
  have hall : Run.allStates fsStep (fun s => Sane s ∧ Did 0 (mount im) s.vol) (start im) calls := by
    refine Run.allStates_of_allSteps (fun u a u' hu _ hstep => ⟨fsStep_sane hu.1 hstep, ?_⟩) calls (start im) hstart
      (Run.allSteps_true calls (start im))
    obtain ⟨hp, x, hx, ⟨r, hr⟩ | ⟨e, hr, rfl⟩⟩ := fsStep_cases hstep
    · exact hu.2.trans (wp_of_ok (program_spec a.2 (hu.1.inv hp) hx (excused_mild _)) hr).1.did
    · exact hu.2
  exact (Run.allStates_last calls (start im) s hall hs).2

/-! ## The log carries the transactions -/

/-- **The writes of the group `g` are those of the transaction**, in the words that `enc` makes of a block. -/
def Carries (enc : Content → Log.Block) (hist : List Log.Write) (g : List Nat) (tr : Trans) : Prop :=
  ∀ (st : Nat → Log.Block) (disk : Nat → Content) (b : Nat), st b = enc (disk b) →
    Log.applyWrites st (Log.groupWrites hist g) b = enc (installTrans disk tr b)

theorem replay_carries {enc : Content → Log.Block} {hist : List Log.Write} :
    ∀ {gs : List (List Nat)} {trs : List Trans} {st : Nat → Log.Block} {disk : Nat → Content},
      List.Forall₂ (Carries enc hist) gs trs → st b = enc (disk b) →
      Log.replayGroups st hist gs b = enc (trs.foldl installTrans disk b)
  | [], [], _, _, _, h => h
  | _ :: _, _ :: _, st, disk, .cons hc hrest, h => by
    have ih := replay_carries hrest (hc st disk b h)
    exact ih

/-! ## `ireclaim` after recovery -/

/-- **What `ireclaim` does to an image**: it returns, each operation of it fits in what it reserves; no inode is left without
links, an inode with links is as it was, and the bitmap marks the metadata and the blocks of the inodes, each owned once. -/
structure Reclaims (im : Image) (v : Vol) : Prop where
  returns : ireclaim.run (mount im) = .ok ((), v) ∧ v.blk.halted = none
  fits : ∀ tr ∈ v.trans, tr.length ≤ maxOpBlocks
  linked : ∀ i n, tree v i = some n → n.nlink ≠ 0
  keeps : ∀ i n, tree (mount im) i = some n → n.nlink ≠ 0 → tree v i = some n
  marks : Marks v.blk (owned v)

theorem ireclaim_reclaims (him : Consistent im) (hsize : im.sb.size ≤ bsize * 8)
    (hroot : ∀ n, tree (mount im) rootino = some n → n.nlink ≠ 0) : ∃ v, Reclaims im v := by
  obtain ⟨v, hr, hv⟩ := ireclaim_booted him
  obtain ⟨new, ht, hfit⟩ := hv.did.fits hsize
  refine ⟨v, ⟨hr, hv.idle.halted (by rw [hv.did.sb]; exact hsize)⟩, fun tr hm => hfit tr (by rwa [ht] at hm),
    fun i n hn h0 => ?_, fun i n hn h0 => hv.shrinks.keeps hn h0, hv.mid.marks⟩
  -- only the root is referenced, and it is not without links
  obtain ⟨ip, hip, hi, -⟩ := hv.good i n hn h0
  have hinum := hv.did.inum ip hip
  rw [Multiset.mem_singleton.1 hip] at hi hinum
  have hz : i = rootino := by
    rw [← hi, hinum]
    rfl
  subst hz
  rcases hv.shrinks rootino with e | ⟨e, -⟩
  · exact hroot n (e ▸ hn) h0
  · rw [e] at hn
    cases hn

/-- **A crash at any point, recovery and `ireclaim`.**  The calls of any run make their transactions; a machine runs the log
with them and stops anywhere, in a commit or in a recovery, as often as it likes. What `recover_from_log` then leaves is what
the first of the transactions have written, a consistent image, and `ireclaim` reclaims what has no links in it, on a disk
with one bitmap block whose root directory has a link. -/
theorem recovery_reclaims {im : Image} (him : Consistent im) (hsize : im.sb.size ≤ bsize * 8) {calls : List (Slot × Call)}
    {s : FsState} (hs : Run.run fsStep (start im) calls = some s) {enc : Content → Log.Block} {start : Nat}
    {d : Nat → Log.Block} {acts : List Log.Act} {l : Log.St} (hw : Log.WfHead start d) (hout : ∀ a ∈ acts, a.outside start)
    (hl : Run.run (Log.step start) (Log.boot d) acts = some l)
    (hdisk : ∀ b, ¬ Log.logArea start b → Log.home start d b = enc ((mount im).disk b))
    (hcarry : List.Forall₂ (Carries enc l.hist) l.groups (s.vol.trans.take l.groups.length)) (cuts : List Nat) :
    ∃ (m : Nat) (im' : Image), m ≤ l.groups.length ∧
      (∀ b, ¬ Log.logArea start b → Log.recoverFromLog start (cuts.foldl (Log.recoverCut start) l.disk) b =
        enc ((s.vol.trans.take m).foldl installTrans (mount im).disk b)) ∧
      im'.sb = im.sb ∧ OnDisk ((s.vol.trans.take m).foldl installTrans (mount im).disk) im' ∧ Consistent im' ∧
      ((∀ n, tree (mount im') rootino = some n → n.nlink ≠ 0) → ∃ v, Reclaims im' v) := by
  obtain ⟨hpre, -, hrec⟩ := Log.crash_atomicity start d acts l cuts hw hout hl
  obtain ⟨trs, htrans, -, hchain⟩ := (run_did him hs).log
  have htrs : s.vol.trans = trs := by
    rw [htrans]
    rfl
  obtain ⟨im', hsb, hon, hcon⟩ := hchain.sound ((mount_mid him).sound rfl) l.committed.length
  have hle := hpre.length_le
  refine ⟨l.committed.length, im', hle, fun b hb => ?_, hsb, htrs ▸ hon, hcon, fun hroot => ?_⟩
  · rw [hrec b hb]
    have hcom := forall₂_take l.committed.length hcarry
    rw [← prefix_iff_eq_take.1 hpre, take_take, min_eq_left hle] at hcom
    exact replay_carries hcom (hdisk b hb)
  · apply ireclaim_reclaims hcon _ hroot
    rw [hsb]
    exact hsize

/-! ## A run of the log with a transaction -/

def words (c : Content) : Log.Block := fun w => (c.bytes w).toNat

def logActs (tr : Trans) : List Log.Act := tr.map (fun w => .logWrite 0 w.1 (words w.2))

theorem absorb_le (lh : Log.LogHeader) (b : Nat) : (Log.absorb lh b).n ≤ lh.n + 1 := by
  unfold Log.absorb
  split
  · exact le_refl _
  · exact Nat.le_succ _

structure Logging (l : Log.St) (hist : List Log.Write) : Prop where
  panic : l.panic = none
  op : Log.opOf l 0 = some 0
  outstanding : l.outstanding = 1
  committing : l.committing = false
  cur : l.cur = [0]
  groups : l.groups = []
  hist : l.hist = hist

theorem run_logActs {start : Nat} : ∀ (tr : Trans) {l : Log.St} {hist : List Log.Write}, Logging l hist →
    l.lh.n + tr.length ≤ logBlocks → ∃ l', Run.run (Log.step start) l (logActs tr) = some l' ∧
      Logging l' (hist ++ tr.map (fun w => ⟨0, w.1, words w.2⟩))
  | [], l, hist, h, _ => ⟨l, rfl, by rw [map_nil, append_nil]; exact h⟩
  | w :: tr, l, hist, h, hn => by
    rw [length_cons] at hn
    obtain ⟨l1, hl1⟩ : ∃ l1 : Log.St, l1 = { l with
        cache := update l.cache w.1 (some (words w.2)), hist := l.hist ++ [⟨0, w.1, words w.2⟩],
        lh := Log.absorb l.lh w.1,
        pins := if Log.findBlock l.lh w.1 = l.lh.n then update l.pins w.1 (l.pins w.1 + 1) else l.pins } := ⟨_, rfl⟩
    have hstep : Log.step start l (.logWrite 0 w.1 (words w.2)) = some l1 := by
      have hfull : ¬ l.lh.n ≥ logBlocks := by omega
      have hout : ¬ l.outstanding < 1 := by
        rw [h.outstanding]
        decide
      unfold Log.step
      dsimp only
      rw [h.panic, hl1]
      unfold Log.logWrite
      rw [h.op]
      exact (if_neg hfull).trans (if_neg hout)
    have h1 : Logging l1 (hist ++ [⟨0, w.1, words w.2⟩]) := by
      rw [hl1]
      exact ⟨h.panic, h.op, h.outstanding, h.committing, h.cur, h.groups, by rw [h.hist]⟩
    have hle : l1.lh.n ≤ l.lh.n + 1 := by
      rw [hl1]
      exact absorb_le l.lh w.1
    obtain ⟨l', hrun, h'⟩ := run_logActs tr h1 (by omega)
    refine ⟨l', ?_, ?_⟩
    · unfold logActs
      rw [map_cons, Run.run_cons, hstep]
      exact hrun
    · rwa [append_assoc, singleton_append] at h'

theorem carries_words (tr : Trans) : Carries words (tr.map (fun w => ⟨0, w.1, words w.2⟩)) [0] tr := by
  have hall : Log.groupWrites (tr.map (fun w => ⟨0, w.1, words w.2⟩)) [0] = tr.map (fun w => ⟨0, w.1, words w.2⟩) := by
    unfold Log.groupWrites
    rw [filter_eq_self]
    intro x hx
    obtain ⟨w, -, rfl⟩ := mem_map.1 hx
    exact decide_eq_true mem_cons_self
  intro st disk b hb
  rw [hall]
  unfold Log.applyWrites installTrans
  rw [foldl_map]
  clear hall
  induction tr generalizing st disk with
  | nil => exact hb
  | cons w tr ih =>
    rw [foldl_cons, foldl_cons]
    apply ih
    by_cases e : b = w.1
    · subst e
      rw [update_self, update_self]
    · rw [update_of_ne e, update_of_ne e, hb]

def rootDisk (b : Nat) : Log.Block := if b = 2 then fun _ => 0 else words ((mount rootImage).disk b)

theorem begun :
    ∃ l, Run.run (Log.step 2) (Log.boot rootDisk) [.advance, .advance, .advance, .beginOp 0] = some l ∧
    Logging l [] ∧ l.lh.n = 0 := ⟨_, rfl, ⟨rfl, rfl, rfl, rfl, rfl, rfl, rfl⟩, rfl⟩

/-- `mkdir("a")` is logged and ended, and the machine stops before the commit. -/
theorem recovery_reclaims_mkdir : ∃ (s : FsState) (l : Log.St),
    Run.run fsStep (start rootImage) [(initSlot, .mkdir (some [97]))] = some s ∧
    l.groups = [[0]] ∧ List.Forall₂ (Carries words l.hist) l.groups (s.vol.trans.take l.groups.length) ∧
    ∃ (m : Nat) (im' : Image), m ≤ l.groups.length ∧
      (∀ b, ¬ Log.logArea 2 b → Log.recoverFromLog 2 ([].foldl (Log.recoverCut 2) l.disk) b =
        words ((s.vol.trans.take m).foldl installTrans (mount rootImage).disk b)) ∧
      im'.sb = rootImage.sb ∧ OnDisk ((s.vol.trans.take m).foldl installTrans (mount rootImage).disk) im' ∧ Consistent im' ∧
      ((∀ n, tree (mount im') rootino = some n → n.nlink ≠ 0) → ∃ v, Reclaims im' v) := by
  obtain ⟨s, -, hs, -, hlen, hblk⟩ := holds_of_eval rootImage [(initSlot, .mkdir (some [97]))] initSlot (fun s _ =>
    s.vol.trans.map (fun tr => decide (tr.length ≤ 10)) = [true] ∧
    s.vol.trans.all (fun tr => tr.all (fun w => decide (33 ≤ w.1))) = true) (by decide +kernel)
  obtain ⟨tr, htr⟩ : ∃ tr, s.vol.trans = [tr] := by
    have := congrArg length hlen
    rw [length_map] at this
    exact length_eq_one_iff.1 this
  rw [htr] at hlen hblk
  have hfit : tr.length ≤ 10 := of_decide_eq_true (cons.inj hlen).1
  have hhome : ∀ w ∈ tr, 33 ≤ w.1 := fun w hw => by
    rw [all_cons, all_nil, Bool.and_true, all_eq_true] at hblk
    exact of_decide_eq_true (hblk w hw)
  obtain ⟨l0, hl0, hlog0, hn0⟩ := begun
  obtain ⟨l1, hl1, hlog1⟩ : ∃ l', Run.run (Log.step 2) l0 (logActs tr) = some l' ∧
      Logging l' ([] ++ tr.map (fun w => ⟨0, w.1, words w.2⟩)) :=
    run_logActs tr hlog0 (by rw [hn0]; unfold logBlocks maxOpBlocks; omega)
  obtain ⟨l, hl, hgroups, hhist⟩ : ∃ l, Log.step 2 l1 (.endOp 0) = some l ∧ l.groups = [[0]] ∧ l.hist = l1.hist := by
    unfold Log.step
    dsimp only
    rw [hlog1.panic]
    unfold Log.endOp
    rw [hlog1.op]
    have hc : ¬ l1.committing = true := by
      rw [hlog1.committing]
      decide
    have hz : l1.outstanding - 1 = 0 := by
      rw [hlog1.outstanding]
      rfl
    refine ⟨_, (if_neg hc).trans (if_pos hz), ?_, rfl⟩
    rw [hlog1.groups, hlog1.cur]
    rfl
  have hrun : Run.run (Log.step 2) (Log.boot rootDisk)
      ([.advance, .advance, .advance, .beginOp 0] ++ (logActs tr ++ [.endOp 0])) = some l := by
    rw [Run.run_append hl0, Run.run_append hl1, Run.run_cons, hl]
    rfl
  have hcarry : List.Forall₂ (Carries words l.hist) l.groups (s.vol.trans.take l.groups.length) := by
    rw [hgroups, htr, hhist, hlog1.hist]
    exact .cons (carries_words tr) .nil
  refine ⟨s, l, hs, hgroups, hcarry, recovery_reclaims rootImage_consistent (by decide) hs ?_ ?_ hrun ?_ hcarry []⟩
  · exact ⟨Nat.zero_le _, fun i hi => absurd hi (Nat.not_lt_zero i), fun i hi => absurd hi (Nat.not_lt_zero i)⟩
  · have hlogged : ∀ a ∈ logActs tr, a.outside 2 := by
      intro a ha
      obtain ⟨w, hw, rfl⟩ := mem_map.1 ha
      have := hhome w hw
      rintro ⟨-, hle⟩
      unfold logBlocks maxOpBlocks at hle
      omega
    simpa [or_imp, forall_and, Log.Act.outside] using hlogged
  · intro b hb
    have hne : b ≠ 2 := fun e => hb (e ▸ ⟨le_refl _, Nat.le_add_right _ _⟩)
    exact if_neg hne

/-! ## A disk with many bitmap blocks -/

def bigRoot : Bytes := dots rootino rootino ++ direntBytes ⟨2, [102]⟩

def bigWord (j : Nat) : Nat := if j < 21 then 8192 * (j + 13) else 0

def bigFile : Dinode :=
  ⟨.file, 0, 0, 1, 33792, fun k => if k < 12 then 8192 * (k + 1) else if k = 12 then 71 else 0⟩

/-- A disk of 34 times `BPB` blocks, with a file of 33 blocks that are `BPB` apart. -/
def bigImage : Image where
  sb := ⟨278528, 278458, 16, 33, 35, by decide, by decide, rootImage.sb.ninodes_le⟩
  dinode := fun i =>
    if i = rootino then ⟨.dir, 0, 0, 1, 48, fun k => if k = 0 then 70 else 0⟩
    else if i = 2 then bigFile
    else freshDinode .none
  bit := fun b => decide (b < 72 ∨ b % 8192 = 0)
  data := fun b j =>
    if b = 70 then bigRoot.getD j 0
    else if b = 71 then UInt8.ofNat (bigWord (j / 4) / 256 ^ (j % 4))
    else 0
  nlink_short := fun i => by
    split
    · decide
    · split
      · decide
      · decide
  outside := fun i hi => by
    have hne : i ≠ rootino := by
      rintro rfl
      revert hi
      decide
    have hne2 : i ≠ 2 := by
      rintro rfl
      revert hi
      decide
    rw [if_neg hne, if_neg hne2]
    rfl

def bigBlocks : List Nat := 70 :: 71 :: (List.range 33).map (fun k => 8192 * (k + 1))

theorem owned_bigImage : owned (mount bigImage) = bigBlocks := by
  have hroot : blocksAt bigImage.data (bigImage.dinode rootino) = {70} := by
    have hdir : directBlocks (bigImage.dinode rootino) = {70} := by
      decide +kernel
    exact (congrArg (· + (0 : Multiset Nat)) hdir).trans (add_zero _)
  have hfile : blocksAt bigImage.data (bigImage.dinode 2) = (71 :: (range 33).map (fun k => 8192 * (k + 1)) : List Nat) := by
    have hlist : directBlocks bigFile + 71 ::ₘ listed (bigImage.data 71) =
        (71 :: (range 33).map (fun k => 8192 * (k + 1)) : List Nat) := by
      unfold listed
      decide +kernel
    exact hlist
  have hrest : others (mount bigImage) rootino = blocksAt bigImage.data (bigImage.dinode 2) := by
    have h := Sum.sum_map_change
      (g := fun j => if j = rootino then 0 else blocksAt (mount bigImage).blk.data ((mount bigImage).dinode j)) nodup_inums
      (mem_inums.2 (show 2 < 65536 by decide)) (fun j _ hj => by
        by_cases e : j = rootino
        · rw [if_pos e]
        · rw [if_neg e]
          have hd : (mount bigImage).dinode j = freshDinode .none := (if_neg e).trans (if_neg hj)
          rw [hd]
          rfl)
    rw [Sum.sum_map_zero (fun _ _ => rfl), add_zero, zero_add, if_neg (by decide)] at h
    exact h
  have hall : owned (mount bigImage) = others (mount bigImage) rootino + blocksAt bigImage.data (bigImage.dinode rootino) :=
    owned_split (show rootino < 65536 by decide)
  rw [hall, hrest, hroot, hfile, add_comm, Multiset.singleton_add]
  rfl

theorem mem_bigBlocks (hb : b < 278528) : b ∈ (bigBlocks : Multiset Nat) ↔ b = 70 ∨ b = 71 ∨ 0 < b ∧ b % 8192 = 0 := by
  unfold bigBlocks
  rw [Multiset.mem_coe, mem_cons, mem_cons, mem_map]
  constructor
  · rintro (h | h | ⟨k, -, rfl⟩)
    · exact .inl h
    · exact .inr (.inl h)
    · exact .inr (.inr ⟨by omega, by omega⟩)
  · rintro (h | h | ⟨h0, h⟩)
    · exact .inl h
    · exact .inr (.inl h)
    · exact .inr (.inr ⟨b / 8192 - 1, mem_range.2 (by omega), by omega⟩)

theorem bigImage_consistent : Consistent bigImage := by
  refine ⟨⟨?_, ?_, ?_⟩, fun i hi ht bn hbn => ?_⟩
  · rw [owned_bigImage]
    exact Multiset.coe_nodup.2 (by decide +kernel)
  · rw [owned_bigImage]
    have hall : ∀ b ∈ bigBlocks, 70 ≤ b ∧ b < 278528 := by decide +kernel
    exact fun b hb => hall b (Multiset.mem_coe.1 hb)
  · intro b hb
    have hb' : b < 278528 := hb
    rw [owned_bigImage, mem_bigBlocks hb']
    change decide (b < 72 ∨ b % 8192 = 0) = true ↔ b < 70 ∨ _
    rw [decide_eq_true_eq]
    omega
  by_cases e : i = rootino
  · subst e
    have h0 : bn = 0 := by
      have hlt : bn * 1024 < 48 := hbn
      omega
    subst h0
    decide
  by_cases e2 : i = 2
  · subst e2
    have hlt : bn < 33 := by
      have hlt : bn * 1024 < 33792 := hbn
      omega
    have hall : ∀ bn < 33, bn < maxfile ∧ slotAddr bigImage.data bigFile bn ≠ 0 := by decide +kernel
    exact hall bn hlt
  · have hd : bigImage.dinode i = freshDinode .none := (if_neg e).trans (if_neg e2)
    rw [hd] at ht
    exact absurd rfl ht

section

local instance fifty : NeZero 50 := ⟨by decide⟩

def remount (v : Vol) : Vol where
  blk := ⟨v.blk.sb, v.blk.bit, fun b => (v.disk b).bytes, 0, [], none, 0, 0⟩
  dinode := v.dinode
  inode := update (fun _ => freeInode) 0 { freeInode with inum := rootino, ref := 1 }
  locks := []
  disk := blockContent v.blk.sb v.dinode v.blk.bit (fun b => (v.disk b).bytes)
  trans := []
  peak := 0

end

theorem Inv.remount (h : Inv s) : ∃ im, im.sb = s.vol.blk.sb ∧ OnDisk s.vol.disk im ∧ mount im = Fs.remount s.vol := by
  have hnl : ∀ b, b ∉ s.vol.blk.logged := fun b hb => by
    rw [h.idle.logged] at hb
    cases hb
  exact ⟨⟨s.vol.blk.sb, s.vol.dinode, s.vol.blk.bit, fun b => (s.vol.disk b).bytes, h.mid.nlink, h.mid.outside⟩, rfl,
    ⟨fun i => h.mid.synced.dinode i (hnl _), fun b => h.mid.synced.bit b (hnl _), fun _ => rfl⟩, rfl⟩

def openUnlink : List (Slot × Call) := [(initSlot, .open (some [102]) 0), (initSlot, .unlink (some [102]))]

/-- **After a crash the file is an orphan, and the machine does not boot**: the operation that reclaims it frees blocks under
34 blocks of the bitmap, more than the log has room for. -/
theorem reclaim_too_big : Consistent bigImage ∧
    ∃ s im', Run.run fsStep (start bigImage) openUnlink = some s ∧ s.panic = none ∧ im'.sb = bigImage.sb ∧
      OnDisk s.vol.disk im' ∧ (tree (mount im') 2).map Node.nlink = some 0 ∧
      (start im').panic = some (.logWrite .tooBig) := by
  obtain ⟨s, -, hs, -, hp, hlinks, hhalt⟩ := holds_of_eval bigImage openUnlink initSlot (fun s _ => s.panic = none ∧
    (tree (remount s.vol) 2).map Node.nlink = some 0 ∧
    ((ireclaim.run (remount s.vol)).toOption.map fun r => r.2.blk.halted) = some (some .tooBig)) (by decide +kernel)
  obtain ⟨im', hsb', hon, hmount⟩ := (reached_inv bigImage_consistent hs hp).remount
  refine ⟨bigImage_consistent, s, im', hs, hp, ?_, hon, by rw [hmount]; exact hlinks, ?_⟩
  · rw [hsb', (run_did bigImage_consistent hs).sb]
    rfl
  rw [← hmount] at hhalt
  cases hr : ireclaim.run (mount im') with
  | error e =>
    rw [hr] at hhalt
    cases hhalt
  | ok q =>
    rw [hr] at hhalt
    rw [start_eq hr, show q.2.blk.halted = some .tooBig from Option.some.inj hhalt]
    rfl

end Xv6.Fs
