import Xv6.FsOpen
/-!
# FsOp — transactions

Between calls no block is logged and no operation is in progress (`Idle`). A call makes transactions: each writes the blocks
the
operation has logged to their home locations, which hold a consistent image after it (`Chain`).
-/
namespace Xv6.Fs

open Function List Wp
variable {v : Vol} {R R' : Multiset Ip} {L : List Ip} {F : Panic → Prop}

/-! ## Images -/

/-- **A consistent image**: the bitmap marks the metadata blocks and the blocks of the inodes, each owned once, and every inode
has its blocks below its size. -/
structure Consistent (im : Image) : Prop where
  marks : Marks (mount im).blk (owned (mount im))
  full : ∀ i < 65536, (im.dinode i).type ≠ .none → Full im.data (im.dinode i)

structure OnDisk (disk : Nat → Content) (im : Image) : Prop where
  dinode : ∀ i, (disk (iblock im.sb i)).dinode (i % 16) = im.dinode i
  bit : ∀ b, (disk (bblock im.sb b)).bit (b % (bsize * 8)) = im.bit b
  data : ∀ b, (disk b).bytes = im.data b

def Sound (sb : Sb) (disk : Nat → Content) : Prop := ∃ im : Image, im.sb = sb ∧ OnDisk disk im ∧ Consistent im

theorem Mid.sound (h : Mid v R L) (hl : v.blk.logged = []) : Sound v.blk.sb v.disk := by
  have hnl : ∀ b, b ∉ v.blk.logged := fun b hb => by
    rw [hl] at hb
    cases hb
  have hind : ∀ i < 65536, (v.dinode i).type ≠ .none → (v.dinode i).addrs ndirect ≠ 0 →
      (v.disk ((v.dinode i).addrs ndirect)).bytes = v.blk.data ((v.dinode i).addrs ndirect) :=
    fun i hi ht hne => h.synced.ind i hi ht hne (hnl _)
  obtain ⟨im, him⟩ : ∃ im : Image, im =
    ⟨v.blk.sb, v.dinode, v.blk.bit, fun b => (v.disk b).bytes, h.nlink, h.outside⟩ := ⟨_, rfl⟩
  have howned : owned (mount im) = owned v := by
    apply Sum.sum_map_congr
    intro i hi
    rw [him]
    change blocksAt (fun b => (v.disk b).bytes) (v.dinode i) = blocksAt v.blk.data (v.dinode i)
    unfold blocksAt
    by_cases ht : (v.dinode i).type = .none
    · rw [if_pos ht, if_pos ht]
    · rw [if_neg ht, if_neg ht]
      exact blocksOf_congr (hind i (mem_inums.1 hi) ht)
  refine ⟨im, by rw [him], ⟨fun i => ?_, fun b => ?_, fun b => by rw [him]⟩, ⟨?_, fun i hi ht => ?_⟩⟩
  · rw [him]
    exact h.synced.dinode i (hnl _)
  · rw [him]
    exact h.synced.bit b (hnl _)
  · rw [howned]
    exact h.marks.congr (by rw [him]; rfl) (by rw [him]; rfl)
  rw [him] at ht ⊢
  intro bn hbn
  have hs := h.full i hi ht bn hbn
  have he : slotAddr (fun b => (v.disk b).bytes) (v.dinode i) bn = slotAddr v.blk.data (v.dinode i) bn :=
    slotAddr_congr (hind i hi ht) bn
  rwa [he]

/-! ## Transactions -/

/-- **Each transaction fits in the log**, if the bitmap is one block, and leaves a consistent image. -/
def Chain (sb : Sb) : (Nat → Content) → List Trans → Prop
  | _, [] => True
  | disk, tr :: rest =>
    (sb.size ≤ bsize * 8 → tr.length ≤ maxOpBlocks) ∧ Sound sb (installTrans disk tr) ∧ Chain sb (installTrans disk tr) rest

theorem Chain.append {sb : Sb} : ∀ {new new' : List Trans} {disk : Nat → Content}, Chain sb disk new →
    Chain sb (new.foldl installTrans disk) new' → Chain sb disk (new ++ new')
  | [], _, _, _, h' => h'
  | _ :: _, _, _, h, h' => ⟨h.1, h.2.1, h.2.2.append h'⟩

structure Idle (v : Vol) : Prop where
  logged : v.blk.logged = []
  outstanding : v.outstanding = 0
  /-- On a disk with one bitmap block no call has filled the log. -/
  halted : v.blk.sb.size ≤ bsize * 8 → v.blk.halted = none

/-- **What a call leaves**: the slots referenced by `R` have their inodes, and the transactions it has made are sound. -/
structure Did (R : Multiset Ip) (v v' : Vol) : Prop where
  inum : ∀ a ∈ R, (v'.inode a).inum = (v.inode a).inum
  valid : ∀ a ∈ R, (v.inode a).valid = true →
    (v'.inode a).valid = true ∧ (v'.inode a).din.type = (v.inode a).din.type
  sb : v'.blk.sb = v.blk.sb
  log : ∃ new, v'.trans = v.trans ++ new ∧ v'.disk = new.foldl installTrans v.disk ∧ Chain v.blk.sb v.disk new

variable {v' v'' : Vol} {i n k : Nat} {I : Finset Nat} {a : Ip}

theorem Idle.quiet (h : Idle v) (hq : Quiet v v') : Idle v' := by
  obtain ⟨hblk, -⟩ := hq
  exact ⟨by rw [hblk]; exact h.logged, by rw [Vol.outstanding, hblk]; exact h.outstanding, by rw [hblk]; exact h.halted⟩

theorem Stays.did (h : Stays R n v v') : Did R v v' := by
  obtain ⟨hsb, -, hdisk, htrans⟩ := h.log
  exact ⟨h.inum, h.valid, hsb, [], by rw [htrans, append_nil], hdisk, trivial⟩

theorem Did.refl (R : Multiset Ip) (v : Vol) : Did R v v := (Stays.refl R 0 v).did

theorem Did.trans (h : Did R v v') (h' : Did R v' v'') : Did R v v'' := by
  obtain ⟨new, ht, hd, hc⟩ := h.log
  obtain ⟨new', ht', hd', hc'⟩ := h'.log
  rw [h.sb, hd] at hc'
  refine ⟨fun a ha => (h'.inum a ha).trans (h.inum a ha), fun a ha hv => ?_, h'.sb.trans h.sb, new ++ new', ?_,
    ?_, hc.append hc'⟩
  · obtain ⟨h1, h2⟩ := h.valid a ha hv
    obtain ⟨h3, h4⟩ := h'.valid a ha h1
    exact ⟨h3, h4.trans h2⟩
  · rw [ht', ht, append_assoc]
  · rw [hd', hd, foldl_append]

theorem Did.mono (h : Did R v v') (hle : R' ≤ R) : Did R' v v' :=
  ⟨fun a ha => h.inum a (Multiset.mem_of_le hle ha), fun a ha => h.valid a (Multiset.mem_of_le hle ha), h.sb, h.log⟩

theorem Logs.length_le (h : Logs I k v v') (hsize : v.blk.sb.size ≤ bsize * 8) :
    v'.blk.logged.dedup.length ≤ v.blk.logged.dedup.length + I.card + k + 1 := by
  obtain ⟨S, hS, hlog⟩ := h
  have hsub : v'.blk.logged.toFinset ⊆
      v.blk.logged.toFinset ∪ insert v.blk.sb.bmapstart (S ∪ I.image (iblock v.blk.sb)) := by
    intro b hb
    rw [mem_toFinset] at hb
    rcases hlog b hb with hm | ⟨c, hc, rfl⟩ | hm
    · exact Finset.mem_union_left _ (mem_toFinset.2 hm)
    · have hc0 : c / (bsize * 8) = 0 := Nat.div_eq_of_lt (lt_of_lt_of_le hc hsize)
      unfold bblock
      rw [hc0, zero_add]
      exact Finset.mem_union_right _ (Finset.mem_insert_self _ _)
    · exact Finset.mem_union_right _ (Finset.mem_insert_of_mem hm)
  have h0 := Finset.card_union_le v.blk.logged.toFinset (insert v.blk.sb.bmapstart (S ∪ I.image (iblock v.blk.sb)))
  have hcard := Finset.card_le_card hsub
  have h1 := Finset.card_insert_le v.blk.sb.bmapstart (S ∪ I.image (iblock v.blk.sb))
  have h2 := Finset.card_union_le S (I.image (iblock v.blk.sb))
  have h3 : (I.image (iblock v.blk.sb)).card ≤ I.card := Finset.card_image_le
  rw [← card_toFinset, ← card_toFinset]
  omega

def began (v : Vol) : Vol := { v with blk := { v.blk with outstanding := v.outstanding + 1 } }

theorem began_mid (h : Mid v R L) : Mid (began v) R L := (wp_of_ok (beginOp_spec (F := fun _ => True) h) rfl).1

theorem began_base (h : Base v R) : Base (began v) R := ⟨h.good, h.alloc⟩

theorem endOp_idle (h : Mid v' R' L) (hi : Idle v) (hran : Ran R n I k (began v) v') (hfit : I.card + k < maxOpBlocks) :
    wp endOp (fun _ v'' => Mid v'' R' L ∧ Idle v'' ∧ Did R v v'' ∧ tree v'' = tree v' ∧ v''.inode = v'.inode) F v' := by
  apply wp_use (endOp_spec h)
  rintro _ v'' ⟨h'', rfl⟩
  obtain ⟨hsb, hout, hdisk, htrans⟩ := hran.stays.log
  have hsb' : v'.blk.sb = v.blk.sb := hsb
  have hsound := h''.sound rfl
  have hlen : v.blk.sb.size ≤ bsize * 8 → v'.blk.logged.dedup.length ≤ I.card + k + 1 := fun hsize => by
    have := hran.logs.length_le hsize
    rw [show (began v).blk.logged = [] from hi.logged, dedup_nil, length_nil] at this
    omega
  refine ⟨h'', ⟨rfl, ?_, fun hsize => ?_⟩,
    ⟨hran.stays.inum, hran.stays.valid, hsb, [transOf v'], ?_, ?_, ?_, ?_, trivial⟩, rfl, rfl⟩
  · change v'.outstanding - 1 = 0
    rw [hout]
    unfold began
    simp [hi.outstanding]
  · have hsize' : v.blk.sb.size ≤ bsize * 8 := by
      rw [← hsb']
      exact hsize
    have hlt := hlen hsize'
    change v'.blk.halted = none
    rw [hran.stays.calm.halted (Nat.succ_pos _) (by unfold logBlocks; omega)]
    exact hi.halted hsize'
  · change v'.trans ++ [transOf v'] = _
    rw [htrans]
    rfl
  · change installTrans v'.disk (transOf v') = _
    rw [hdisk]
    rfl
  · intro hsize
    have := hlen hsize
    rw [transOf, length_map]
    omega
  · have hs : Sound v'.blk.sb (installTrans v'.disk (transOf v')) := hsound
    rw [hsb', hdisk] at hs
    exact hs

theorem wp_op {α : Type} {m : FM α} {Q : α → Vol → Prop} (hi : Idle v)
    (hm : wp m (fun r v' => ∃ R' n I k, Mid v' R' [] ∧ Ran R n I k (began v) v' ∧ I.card + k < maxOpBlocks ∧
      ∀ v'', Mid v'' R' [] → Idle v'' → Did R v v'' → tree v'' = tree v' → v''.inode = v'.inode → Q r v'') F (began v)) :
    wp beginOp (fun _ v1 => wp m (fun r v2 => wp endOp (fun _ v3 => Q r v3) F v2) F v1) F v := by
  unfold beginOp
  apply wp_use hm
  rintro r v' ⟨R', n, I, k, h', hran, hfit, hQ⟩
  exact wp_use (endOp_idle h' hi hran hfit) (fun _ v'' ⟨h'', hi'', hd, ht, hin⟩ => hQ v'' h'' hi'' hd ht hin)

theorem Good.congr (h : Good v R) (ht : tree v' = tree v) (hi : v'.inode = v.inode) : Good v' R := by
  unfold Good
  rw [ht, hi]
  exact h

theorem Base.congr (h : Base v R) (ht : tree v' = tree v) (hi : v'.inode = v.inode) : Base v' R := by
  refine ⟨h.good.congr ht hi, ?_⟩
  unfold Alloc
  rw [ht, hi]
  exact h.alloc

theorem wp_putOp {Q : Vol → Prop} (h : Mid v (a ::ₘ R) []) (hb : Base v (a ::ₘ R)) (hi : Idle v)
    (hQ : ∀ v', Mid v' R [] → Base v' R → Idle v' → Did R v v' → Shrinks (tree v) (tree v') → Q v') :
    wp beginOp (fun _ v1 => wp (iput a) (fun _ v2 => wp endOp (fun _ v3 => Q v3) F v2) F v1) F v := by
  apply wp_op hi
  apply wp_use (iput_reap (began_mid h) (began_base hb) (fun hm => by cases hm))
  rintro _ v1 ⟨h1, hb1, hran, hsh, -⟩
  refine ⟨R, _, _, _, h1, hran, by rw [Finset.card_singleton]; decide, fun v2 h2 hi2 hd ht hin => ?_⟩
  exact hQ v2 h2 (hb1.congr ht hin) hi2 hd (by rw [ht]; exact hsh)

/-! ## `ireclaim` -/

theorem mount_inode_zero (im : Image) : (mount im).inode 0 = { freeInode with inum := rootino, ref := 1 } := rfl

theorem mount_inode_ne (im : Image) (h : a ≠ 0) : (mount im).inode a = freeInode := by
  unfold mount
  dsimp only
  rw [update_of_ne h]

theorem mount_mid {im : Image} (hc : Consistent im) : Mid (mount im) {0} [] := by
  refine ⟨fun a => ?_, rfl, nodup_nil, fun _ ha => (by cases ha), fun a ha b hb _ => ?_, fun a ha hv => ?_, fun a ha => ?_,
    hc.marks, hc.full, rfl, ⟨fun i _ => content_dinode (mount im) i, fun b _ => content_bit (mount im) b,
      fun _ _ _ _ _ => rfl⟩,
    im.nlink_short, im.outside⟩
  · by_cases e : a = 0
    · rw [e, mount_inode_zero, Multiset.count_singleton_self]
      rfl
    · rw [mount_inode_ne im e, Multiset.count_eq_zero_of_notMem (by rwa [Multiset.mem_singleton])]
      rfl
  · rw [Multiset.mem_singleton.1 ha, Multiset.mem_singleton.1 hb]
  · rw [Multiset.mem_singleton.1 ha, mount_inode_zero] at hv
    cases hv
  · rw [Multiset.mem_singleton.1 ha, mount_inode_zero]
    decide

/-- The inodes without links that are not in `rest` are referenced. -/
def Cleared (v : Vol) (R : Multiset Ip) (rest : List Nat) : Prop :=
  ∀ i n, tree v i = some n → n.nlink = 0 → i ∈ rest ∨ ∃ a ∈ R, (v.inode a).inum = i ∧ (v.inode a).valid = true

theorem tree_some {n : Node} (h : tree v i = some n) :
    i < 65536 ∧ (v.dinode i).type ≠ .none ∧ n.nlink = (v.dinode i).nlink := by
  unfold tree nodeOf at h
  split at h
  · rename_i hi
    split at h
    · cases h
    · rename_i ht
      cases h
      exact ⟨hi, ht, rfl⟩
  · cases h

theorem tree_ne_none (hi : i < 65536) (ht : (v.dinode i).type ≠ .none) : tree v i ≠ none := by
  unfold tree nodeOf
  rw [if_pos hi, if_neg ht]
  exact fun e => by cases e

theorem reclaim_spec {rest : List Nat} (h : Mid v R []) (hi : Idle v) (hR : ∃ a, a ∉ R) (hlt : i < 65536)
    (hc : Cleared v R (i :: rest)) : wp (reclaim i) (fun _ v' => Mid v' R [] ∧ Idle v' ∧ Did R v v' ∧
      Shrinks (tree v) (tree v') ∧ Cleared v' R rest) (fun _ => False) v := by
  unfold reclaim
  apply wp_ite
  rotate_left
  · intro hne
    refine ⟨h, hi, Did.refl _ _, Shrinks.refl _, fun j n hn h0 => ?_⟩
    rcases hc j n hn h0 with hm | ha
    · rcases mem_cons.1 hm with rfl | hm
      · obtain ⟨-, ht, hnl⟩ := tree_some hn
        exact absurd ⟨ht, hnl ▸ h0⟩ hne
      · exact .inl hm
    · exact .inr ha
  rintro ⟨ht, h0⟩
  rw [wp_bind]
  apply wp_mono (iget_spec h hlt)
  rotate_left
  · rintro e ⟨-, -, hall⟩
    obtain ⟨a, ha⟩ := hR
    exact ha (hall a)
  rintro a v1 ⟨h1, hq1, hst1, hinum, -⟩
  have haR : a ∈ a ::ₘ R := Multiset.mem_cons_self _ _
  have hle : R ≤ a ::ₘ R := Multiset.le_cons_self _ _
  have hi1 : Idle v1 := hi.quiet hq1
  have hused : tree (began v1) ((began v1).inode a).inum ≠ none := by
    change tree v1 (v1.inode a).inum ≠ none
    rw [hq1.tree, hinum]
    exact tree_ne_none hlt ht
  apply wp_then (beginOp_spec h1)
  rintro _ _ ⟨-, rfl⟩
  apply wp_then (ilock_node (began_mid h1) haR (.inl not_mem_nil) (.inr hused))
  rintro _ v2 ⟨-, h2, hq2, hst2, -⟩
  apply wp_then (iunlock_spec h2)
  rintro _ v3 ⟨h3, hq3, hst3⟩
  have hst13 : Stays (a ::ₘ R) 1 (began v1) v3 := hst2.trans (hst3.mono le_rfl (by decide))
  have hv3 : (v3.inode a).valid = true := (hst3.valid a haR (h2.locked a mem_cons_self).2).1
  have hi3 : (v3.inode a).inum = i := (hst13.inum a haR).trans hinum
  have hd3 : v3.dinode = v.dinode := (hq2.trans hq3).2.trans hq1.2
  have hn3 : (v3.inode a).din.nlink = 0 := by
    rw [(h3.coherent a haR hv3).1, hi3, hd3]
    exact h0
  have ht3 : tree v3 = tree v := (hq2.trans hq3).tree.trans hq1.tree
  apply wp_then (iput_spec h3 (fun hm => by cases hm))
  rintro _ v4 ⟨h4, hst4, ht4⟩
  have hst14 : Stays R 1 (began v1) v4 := (hst13.mono hle le_rfl).trans hst4
  have hran : Ran R 1 {i} 0 (began v1) v4 := by
    refine ⟨hst14, ?_⟩
    rcases ht4 with ⟨-, hq4⟩ | ⟨-, hlog4, -⟩
    · exact ((hq2.trans hq3).trans hq4).logs.mono (Finset.empty_subset _) le_rfl
    · rw [hi3] at hlog4
      exact ((hq2.trans hq3).logs.trans hlog4 hst13.log.1).mono (by simp) le_rfl
  apply wp_use (endOp_idle h4 hi1 hran (by rw [Finset.card_singleton]; decide))
  rintro _ v5 ⟨h5, hi5, hdid, ht5, hin5⟩
  refine ⟨h5, hi5, hst1.did.trans hdid, ?_, fun j n hn hj0 => ?_⟩
  · rw [ht5]
    rcases ht4 with ⟨-, hq4⟩ | ⟨-, -, ht4⟩
    · rw [hq4.tree, ht3]
      exact Shrinks.refl _
    · rw [ht4, hi3, ht3]
      have hn := h3.node haR hv3
      rw [hi3, ht3] at hn
      exact Shrinks.free hn hn3
  -- what is left without links was so before, and the inode itself only if it is referenced
  have hold : tree v j = some n := by
    rw [ht5] at hn
    rcases ht4 with ⟨-, hq4⟩ | ⟨-, -, ht4⟩
    · rwa [hq4.tree, ht3] at hn
    rw [ht4, hi3, ht3] at hn
    by_cases e : j = i
    · subst e
      rw [update_self] at hn
      cases hn
    · rwa [update_of_ne e] at hn
  have hkeep : ∀ b ∈ R, (v1.inode b).inum = j ∧ (v1.inode b).valid = true →
      ∃ b ∈ R, (v5.inode b).inum = j ∧ (v5.inode b).valid = true := fun b hb hbj => by
    rw [hin5]
    exact ⟨b, hb, (hst14.inum b hb).trans hbj.1, (hst14.valid b hb hbj.2).1⟩
  rcases hc j n hold hj0 with hm | ⟨b, hb, hbi, hbv⟩
  · rcases mem_cons.1 hm with rfl | hm
    · rcases ht4 with ⟨hnf, -⟩ | ⟨-, -, ht4⟩
      · have haR' : a ∈ R := by
          by_contra hn'
          exact hnf ⟨hn', hv3, hn3⟩
        rw [hin5]
        exact .inr ⟨a, haR', (hst4.inum a haR').trans hi3, (hst4.valid a haR' hv3).1⟩
      · rw [ht5, ht4, hi3, update_self] at hn
        cases hn
    · exact .inl hm
  · exact .inr (hkeep b hb ⟨(hst1.inum b hb).trans hbi, (hst1.valid b hb hbv).1⟩)

theorem ireclaim_spec (h : Mid v R []) (hi : Idle v) (hR : ∃ a, a ∉ R) : wp ireclaim (fun _ v' => Mid v' R [] ∧ Idle v' ∧
    Did R v v' ∧ Shrinks (tree v) (tree v') ∧ Good v' R) (fun _ => False) v := by
  unfold ireclaim
  have hloop := wp_forM (F := fun _ => False) (f := reclaim)
    (I := fun rest v' => Mid v' R [] ∧ Idle v' ∧ Did R v v' ∧ Shrinks (tree v) (tree v') ∧ Cleared v' R rest ∧
      ∀ i ∈ rest, i < 65536) (fun i rest v1 ⟨h1, hi1, hd1, hs1, hc1, hr1⟩ => ?_)
    (range' 1 (v.blk.sb.ninodes - 1)) v ⟨h, hi, Did.refl _ _, Shrinks.refl _, fun i n hn _ => .inl ?_, fun i hm => ?_⟩
  · exact wp_use hloop (fun _ v' ⟨h', hi', hd', hs', hc', _⟩ => ⟨h', hi', hd', hs', fun i n hn h0 =>
      (hc' i n hn h0).resolve_left not_mem_nil⟩)
  · exact wp_use (reclaim_spec h1 hi1 hR (hr1 i mem_cons_self) hc1) (fun _ v2 ⟨h2, hi2, hd2, hs2, hc2⟩ =>
      ⟨h2, hi2, hd1.trans hd2, hs1.trans hs2, hc2, fun j hj => hr1 j (mem_cons_of_mem _ hj)⟩)
  · obtain ⟨-, ht, -⟩ := tree_some hn
    rw [mem_range'_1]
    by_contra hout
    exact ht (h.outside i (by omega))
  · rw [mem_range'_1] at hm
    have := v.blk.sb.ninodes_le
    omega

end Xv6.Fs
