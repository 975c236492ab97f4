import Xv6.FsLink
/-!
# FsCreate — `create`, `mkdir`, `mknod` and `symlink`

`create` makes an inode with its entry, and the two entries of a directory; where one of them finds no block it gives all of it
back. `symlink` writes the target to what `create` has made.
-/
namespace Xv6.Fs

open Multiset Function Option Wp
variable {v v' v'' : Vol} {R : Multiset Ip} {F : Panic → Prop} {type : IType} {name : Bytes}

/-! ## The entries of a new directory -/

theorem parseDirent_direntBytes_inum {de : Dirent} (h : de.inum < 65536) (rest : Bytes) :
    (parseDirent (direntBytes de ++ rest)).inum = de.inum := by
  unfold parseDirent direntBytes
  simp only [List.cons_append, List.getD_cons_zero, List.getD_cons_succ, UInt8.toNat_ofNat']
  omega

variable {i dp k off : Nat} {t t' : Tree} {ip cwd : Ip} {path target : Bytes} {major minor : Int}
  {n m dn : Node}

theorem dirHole_one (h0 : 0 < i) (hi : i < 65536) : dirHole (direntBytes ⟨i, name⟩) = .ok 16 := by
  have hlen := length_direntBytes ⟨i, name⟩
  have hoffs : offsets 0 (direntBytes ⟨i, name⟩).length = [0] := by
    rw [hlen]
    rfl
  have hinum : (parseDirent (direntBytes ⟨i, name⟩)).inum = i := by
    have := @parseDirent_direntBytes_inum ⟨i, name⟩ hi []
    rwa [List.append_nil] at this
  have hentry : entryAt (direntBytes ⟨i, name⟩) 0 = some (parseDirent (direntBytes ⟨i, name⟩)) := by
    unfold entryAt
    rw [if_pos (by omega), List.drop_zero, List.take_of_length_le (by omega)]
  unfold dirHole
  rw [hoffs]
  unfold scan
  rw [hentry]
  dsimp only
  rw [if_neg (by omega), hlen]
  rfl

def dots (i dp : Nat) : Bytes := direntBytes ⟨i, dot⟩ ++ direntBytes ⟨dp, dotdot⟩

def newNode (type : IType) (major minor : Int) (i dp : Nat) : Node :=
  ⟨type, major, minor, 1, if type = .dir then dots i dp else []⟩

theorem addEntry_dots (h : n.bytes = []) :
    addEntry (addEntry n 0 i dot) 16 dp dotdot = { n with bytes := dots i dp } := by
  have hlen := length_direntBytes ⟨i, dot⟩
  unfold addEntry patch dots
  simp only [h, List.take_nil, List.drop_nil, List.nil_append, List.append_nil]
  rw [List.take_of_length_le (by omega), List.drop_of_length_le (by omega), List.append_nil]

/-! ## `linkNew` -/

theorem linkDots_spec {dp : Ip} (h : Mid v R [ip, dp]) (hb : Base v R) (hd : (nodeAt v ip).type = .dir)
    (hbytes : (nodeAt v ip).bytes = []) (hi : 0 < (v.inode ip).inum) (hF : Excused F t) :
    wp (linkDots dp ip) (fun r v' => Mid v' R [ip, dp] ∧ (∀ R' ≤ R, Base v R' → Base v' R') ∧
      Ran R 3 {(v.inode ip).inum} 4 v v' ∧ ∃ bytes,
        tree v' = update (tree v) (v.inode ip).inum (some { nodeAt v ip with bytes := bytes }) ∧
        (r = true → bytes = dots (v.inode ip).inum (v.inode dp).inum)) F v := by
  have hip : ip ∈ [ip, dp] := List.mem_cons_self
  obtain ⟨hipR, hipv⟩ := h.locked ip hip
  have hself : tree v = update (tree v) (v.inode ip).inum (some { nodeAt v ip with bytes := (nodeAt v ip).bytes }) := by
    rw [← h.node hipR hipv, update_eq_self]
  unfold linkDots
  rw [wp_bind, wp_inumOf]
  refine wp_then (dirlink_base h hb.good hip hd hF (fun _ => by rw [hbytes]; rfl)) (fun r v1 ⟨h1, hbase1, hran1, hr⟩ => ?_)
  rcases hr with ⟨rfl, ht1⟩ | ⟨rfl, -, off, hhole, -, ht1⟩
  · exact ⟨h1, hbase1, hran1.mono le_rfl le_rfl subset_rfl (by decide), _, ht1.trans hself, fun hr => by cases hr⟩
  rw [hbytes] at hhole
  cases hhole
  rw [if_neg (by decide), wp_bind, wp_inumOf, wp_bind]
  have hn1 : nodeAt v1 ip = addEntry (nodeAt v ip) 0 (v.inode ip).inum dot :=
    h1.nodeAt_eq hip (by rw [ht1, hran1.stays.inum ip hipR, update_self]; rfl)
  have hd1 : (nodeAt v1 ip).type = .dir := by rw [hn1]; exact hd
  have hb1 : (nodeAt v1 ip).bytes = direntBytes ⟨(v.inode ip).inum, dot⟩ := by
    rw [hn1]
    unfold addEntry patch
    simp [hbytes, List.take_nil, List.drop_nil, List.nil_append, List.append_nil]
  refine wp_use (dirlink_base h1 (hbase1 R le_rfl hb).good hip hd1 hF (fun _ => by rw [hb1, length_direntBytes]))
    (fun r v2 ⟨h2, hbase2, hran2, hr⟩ => ?_)
  rw [hran1.stays.inum ip hipR] at hran2
  refine ⟨h2, fun R' hle hb' => hbase2 R' hle (hbase1 R' hle hb'),
    (hran1.trans hran2).mono le_rfl (by simp) (by simp) le_rfl, ?_⟩
  rcases hr with ⟨rfl, ht2⟩ | ⟨rfl, -, off, hhole, -, ht2⟩
  · exact ⟨_, ht2.trans ht1, fun hr => absurd hr (by decide)⟩
  rw [hb1, dirHole_one hi (h.inum ip hipR)] at hhole
  cases hhole
  have hdp : (v1.inode dp).inum = (v.inode dp).inum :=
    hran1.stays.inum dp (h.locked dp (List.mem_cons_of_mem _ List.mem_cons_self)).1
  rw [ht1, hn1, hran1.stays.inum ip hipR, hdp, update_idem, addEntry_dots hbytes] at ht2
  exact ⟨_, ht2, fun _ => rfl⟩

theorem linkNew_eq (dp ip : Ip) (name : Bytes) (type : IType) :
    linkNew dp ip name type = (if type = .dir then linkDots dp ip else pure true) >>= fun ok =>
      if ok = false then return false
      else do
        let r ← dirlink dp name (← inumOf ip)
        return decide (0 ≤ r) := by
  unfold linkNew
  split <;> rfl

theorem linkNew_spec {dp : Ip} (h : Mid v R [ip, dp]) (hb : Base v R)
    (hty : (nodeAt v ip).type = type) (hbytes : (nodeAt v ip).bytes = []) (hi : 0 < (v.inode ip).inum)
    (hd : (nodeAt v dp).type = .dir) (hF : Excused F t) (hw : Whole t → (nodeAt v dp).bytes.length % 16 = 0) :
    wp (linkNew dp ip name type) (fun r v' => Mid v' R [ip, dp] ∧ (∀ R' ≤ R, Base v R' → Base v' R') ∧
      Ran R 3 {(v.inode ip).inum, (v.inode dp).inum} (if type = .dir then 6 else 2) v v' ∧
      (r = false ∧ (∃ bytes, tree v' = update (tree v) (v.inode ip).inum (some { nodeAt v ip with bytes := bytes })) ∨
        r = true ∧ dirFind (nodeAt v dp).bytes name = .ok none ∧ ∃ off, dirHole (nodeAt v dp).bytes = .ok off ∧
          off ≤ (nodeAt v dp).bytes.length ∧
          tree v' = update (update (tree v) (v.inode ip).inum (some { nodeAt v ip with
            bytes := if type = .dir then dots (v.inode ip).inum (v.inode dp).inum else [] })) (v.inode dp).inum
              (some (addEntry (nodeAt v dp) off (v.inode ip).inum name)))) F v := by
  have hip : ip ∈ [ip, dp] := List.mem_cons_self
  have hdp : dp ∈ [ip, dp] := List.mem_cons_of_mem _ List.mem_cons_self
  obtain ⟨hipR, hipv⟩ := h.locked ip hip
  obtain ⟨hdpR, hdpv⟩ := h.locked dp hdp
  have hne : (v.inode dp).inum ≠ (v.inode ip).inum := fun e => by
    have hnd := h.nodup
    rw [h.uniq dp hdpR ip hipR e] at hnd
    exact (List.nodup_cons.1 hnd).1 List.mem_cons_self
  have hself : tree v = update (tree v) (v.inode ip).inum (some { nodeAt v ip with bytes := [] }) := by
    rw [← hbytes, ← h.node hipR hipv, update_eq_self]
  -- the entries of the new inode itself
  have hdots : wp (if type = .dir then linkDots dp ip else pure true) (fun r v' => Mid v' R [ip, dp] ∧
      (∀ R' ≤ R, Base v R' → Base v' R') ∧ Ran R 3 {(v.inode ip).inum} (if type = .dir then 4 else 0) v v' ∧ ∃ bytes,
        tree v' = update (tree v) (v.inode ip).inum (some { nodeAt v ip with bytes := bytes }) ∧
        (r = true → bytes = if type = .dir then dots (v.inode ip).inum (v.inode dp).inum else [])) F v := by
    by_cases htd : type = .dir
    · simp only [if_pos htd]
      exact linkDots_spec h hb (hty.trans htd) hbytes hi hF
    · simp only [if_neg htd]
      exact ⟨h, fun _ _ hb' => hb', ((Quiet.refl v).ran (Stays.refl ..)).mono le_rfl le_rfl
        (Finset.empty_subset _) le_rfl, [], hself, fun _ => rfl⟩
  rw [linkNew_eq]
  refine wp_then hdots (fun r v1 ⟨h1, hbase1, hran1, bytes, ht1, hr1⟩ => ?_)
  cases r with
  | false =>
    refine ⟨h1, hbase1, hran1.mono le_rfl le_rfl (by simp) ?_, .inl ⟨rfl, bytes, ht1⟩⟩
    split <;> omega
  | true =>
    rw [if_neg (by decide), wp_bind, wp_inumOf, wp_bind]
    have hn1 : nodeAt v1 dp = nodeAt v dp := by
      refine h1.nodeAt_eq hdp ?_
      rw [ht1, hran1.stays.inum dp hdpR, update_of_ne hne, h.node hdpR hdpv]
    refine wp_use (dirlink_base h1 (hbase1 R le_rfl hb).good hdp (by rw [hn1]; exact hd) hF (by rw [hn1]; exact hw))
      (fun r v2 ⟨h2, hbase2, hran2, hr⟩ => ?_)
    rw [hran1.stays.inum dp hdpR] at hran2
    refine ⟨h2, fun R' hle hb' => hbase2 R' hle (hbase1 R' hle hb'),
      (hran1.trans hran2).mono le_rfl (by simp) (by simp) (by split <;> omega), ?_⟩
    rw [hn1, hran1.stays.inum dp hdpR, hran1.stays.inum ip hipR] at hr
    rcases hr with ⟨rfl, ht2⟩ | ⟨rfl, hfree, off, hhole, hoff, ht2⟩
    · exact .inl ⟨rfl, bytes, ht2.trans ht1⟩
    · refine .inr ⟨rfl, hfree, off, hhole, hoff, ?_⟩
      rw [ht2, ht1, hr1 rfl]

/-! ## `create` -/

def createTree (t : Tree) (i : Nat) (n : Node) (dp : Nat) (dn : Node) (name : Bytes) (off : Nat) : Tree :=
  update (update t i (some n)) dp (some (relinkParent n.type (addEntry dn off i name) 1))

def createBlocks (type : IType) : Nat := if type = .dir then 6 else 2

theorem createIn_spec {dp : Ip} (h : Mid v (dp ::ₘ R) [dp])
    (hb : Base v R) (hd : (nodeAt v dp).type = .dir) (hty : type ≠ .none) (hF : Excused F t)
    (hw : Whole t → (nodeAt v dp).bytes.length % 16 = 0) :
    wp (createIn dp name type major minor) (fun r v' =>
      (∃ I : Finset Nat, I.card ≤ 2 ∧ (∀ ip ∈ r, (v'.inode ip).inum ∈ I) ∧ Ran R 3 I (createBlocks type) v v') ∧ match r with
      | none => Mid v' R [] ∧ Base v' R ∧ tree v' = tree v
      | some ip => Mid v' (ip ::ₘ R) [ip] ∧ Base v' (ip ::ₘ R) ∧ 0 < (v'.inode ip).inum ∧
        tree v (v'.inode ip).inum = none ∧ dirFind (nodeAt v dp).bytes name = .ok none ∧ ∃ off,
          dirHole (nodeAt v dp).bytes = .ok off ∧ off ≤ (nodeAt v dp).bytes.length ∧
          Shrinks (createTree (tree v) (v'.inode ip).inum (newNode type major minor (v'.inode ip).inum (v.inode dp).inum)
            (v.inode dp).inum (nodeAt v dp) name off) (tree v')) F v := by
  have hle : R ≤ dp ::ₘ R := le_cons_self _ _
  have hdpR : dp ∈ dp ::ₘ R := mem_cons_self _ _
  have hbd : Base v (dp ::ₘ R) := hb.cons (h.used List.mem_cons_self)
  unfold createIn
  refine wp_then (ialloc_spec h hty (hF.mild _ (by decide) (by decide) (by decide))) (fun r v1 hr => ?_)
  cases r with
  | none =>
    obtain rfl : v1 = v := hr
    refine wp_then (iunlockput_extra h hb.good) (fun _ v2 ⟨h2, hq2, hst2⟩ => ?_)
    exact ⟨⟨∅, Nat.zero_le _, fun _ he => (by cases he), (hq2.ran hst2).mono le_rfl (by simp) subset_rfl
      (Nat.zero_le _)⟩, h2, hb.quiet hq2 hst2, hq2.tree⟩
  | some ip =>
    obtain ⟨i, hi0, -, -, hnone, hinum, h1, hst1, hlog1, ht1⟩ := hr
    have hran1 : Ran _ _ _ _ v v1 := ⟨hst1, hlog1⟩
    have hipR : ip ∈ ip ::ₘ dp ::ₘ R := mem_cons_self _ _
    have hle1 : dp ::ₘ R ≤ ip ::ₘ dp ::ₘ R := le_cons_self _ _
    -- the new inode is free, so that no reference names it
    have hfresh : ip ∉ dp ::ₘ R := fun hm => hbd.alloc ip hm (by rw [← hst1.inum ip hm, hinum, hnone])
    have hne : (v.inode dp).inum ≠ i := fun e => hbd.alloc dp hdpR (by rw [e, hnone])
    rw [wp_bind]
    have hn1 : tree v1 (v1.inode ip).inum = some ⟨type, 0, 0, 0, []⟩ := by rw [ht1, hinum, update_self]
    refine wp_use (ilock_node h1 hipR (.inl (fun hm => hfresh (h.locked ip hm).1))
      (.inr (by rw [hn1]; exact fun e => by cases e))) (fun _ v2 ⟨_, h2, hq2, hst2, hnode2⟩ => ?_)
    rw [hn1] at hnode2
    have hn2 : nodeAt v2 ip = ⟨type, 0, 0, 0, []⟩ := (some.inj hnode2).symm
    have hi2 : (v2.inode ip).inum = i := (hst2.inum ip hipR).trans hinum
    have hran2 := hran1.trans (hq2.ran (hst2.mono hle1 le_rfl))
    rw [wp_bind, wp_din]
    refine wp_then (iassign_fields h2 List.mem_cons_self rfl rfl) (fun _ v3 ⟨h3, ht3, hst3, hlog3, _⟩ => ?_)
    have hran23 : Ran _ _ _ _ v2 v3 := ⟨hst3, hlog3⟩
    rw [hi2] at hran23
    rw [hi2, hn2, hq2.tree, ht1, update_idem] at ht3
    have hi3 : (v3.inode ip).inum = i := (hst3.inum ip hipR).trans hi2
    have hran3 : Ran (dp ::ₘ R) 2 {i} 0 v v3 := (hran2.trans (hran23.mono hle1 le_rfl subset_rfl le_rfl)).mono
      le_rfl (by simp) (by simp) le_rfl
    have hbd3 : Base v3 (dp ::ₘ R) := hbd.update hran3.stays ht3 (.inr (.inl (fun e => by cases e)))
    have hb3 : Base v3 (ip ::ₘ dp ::ₘ R) := hbd3.cons (h3.used List.mem_cons_self)
    have hidp3 : (v3.inode dp).inum = (v.inode dp).inum := hran3.stays.inum dp hdpR
    have hnd3 : nodeAt v3 dp = nodeAt v dp := by
      refine h3.nodeAt_eq (List.mem_cons_of_mem _ List.mem_cons_self) ?_
      rw [ht3, hidp3, update_of_ne hne, h.node_locked List.mem_cons_self]
    have hni3 : nodeAt v3 ip = ⟨type, major, minor, 1, []⟩ :=
      h3.nodeAt_eq List.mem_cons_self (by rw [ht3, hi3, update_self])
    refine wp_then (linkNew_spec h3 hb3 (by rw [hni3]) (by rw [hni3]) (by rw [hi3]; exact hi0) (by rw [hnd3]; exact hd) hF
      (by rw [hnd3]; exact hw))
      (fun r v4 ⟨h4, hbase4, hran4, hr⟩ => ?_)
    rw [hi3, hidp3] at hran4
    rw [hi3, hidp3, hnd3, hni3, ht3] at hr
    have hran34 : Ran (dp ::ₘ R) 3 {i, (v.inode dp).inum} (createBlocks type) v v4 :=
      (hran3.trans (hran4.mono hle1 le_rfl subset_rfl le_rfl)).mono le_rfl (by simp) (by simp)
        (by unfold createBlocks; omega)
    have hi4 : (v4.inode ip).inum = i := (hran4.stays.inum ip hipR).trans hi3
    rcases hr with ⟨rfl, bytes, ht4⟩ | ⟨rfl, hfree, off, hhole, hoff, ht4⟩
    · -- no entry: the inode is given back
      rw [update_idem] at ht4
      rw [if_neg (by decide), wp_bind, wp_din]
      refine wp_then (iassign_fields h4 List.mem_cons_self rfl rfl) (fun _ v5 ⟨h5, ht5, hst5, hlog5, hdin5⟩ => ?_)
      have hran5 : Ran _ _ _ _ v4 v5 := ⟨hst5, hlog5⟩
      have hi5 : (v5.inode ip).inum = i := (hst5.inum ip hipR).trans hi4
      rw [hi4] at hran5
      have hfrees : Frees v5 (dp ::ₘ R) ip := ⟨hfresh, (h5.locked ip List.mem_cons_self).2, by rw [hdin5]⟩
      refine wp_then (iunlockput_spec h5 List.mem_cons_self) (fun _ v6 ⟨h6, hst6, ht6⟩ => ?_)
      rcases ht6 with ⟨hnf, -⟩ | ⟨-, hlog6, ht6⟩
      · exact absurd hfrees hnf
      rw [hi5] at hlog6
      have hran6 : Ran _ _ _ _ v5 v6 := ⟨hst6, hlog6⟩
      have ht : tree v6 = tree v := by
        rw [ht6, ht5, hi5, hi4, update_idem, ht4, update_idem, ← hnone, update_eq_self]
      have hran46 := (hran34.trans (hran5.mono hle1 le_rfl subset_rfl le_rfl)).trans hran6
      have hb6 : Base v6 R := hb.same ht (hran46.stays.mono hle le_rfl)
      rw [List.erase_cons_head] at h6
      refine wp_then (iunlockput_extra h6 hb6.good) (fun _ v7 ⟨h7, hq7, hst7⟩ => ?_)
      refine ⟨⟨{i, (v.inode dp).inum}, Finset.card_le_two, fun _ he => (by cases he), ?_⟩, h7, hb6.quiet hq7 hst7,
        hq7.tree.trans ht⟩
      exact ((hran46.mono hle le_rfl subset_rfl le_rfl).trans (hq7.ran hst7)).mono le_rfl (by simp)
        (by simp [Finset.pair_comm]) (by simp)
    · rw [update_idem] at ht4
      rw [if_pos rfl, wp_bind]
      have hdp4 : dp ∈ [ip, dp] := List.mem_cons_of_mem _ List.mem_cons_self
      have hdpR4 : dp ∈ ip ::ₘ dp ::ₘ R := mem_cons_of_mem hdpR
      have hidp4 : (v4.inode dp).inum = (v.inode dp).inum := hran34.stays.inum dp hdpR
      have hnd4 : nodeAt v4 dp = addEntry (nodeAt v dp) off i name :=
        h4.nodeAt_eq hdp4 (by rw [ht4, hidp4, update_self])
      refine wp_use (addDotdot_spec h4 hdp4) (fun _ v5 ⟨h5, hbase5, hran5, ht5⟩ => ?_)
      rw [hidp4] at hran5
      rw [hidp4, hnd4, ht4, update_idem] at ht5
      have hb5 := hbase5 _ le_rfl hdpR4 (hbase4 _ le_rfl hb3)
      rw [cons_swap] at h5 hb5
      refine wp_then (iunlockput_reap h5 hb5 hdp4) (fun _ v6 ⟨h6, hb6, hran6, hsh, _⟩ => ?_)
      have hslot : ip ≠ dp := fun e => hfresh (e ▸ hdpR)
      have herase : [ip, dp].erase dp = [ip] := by
        rw [List.erase_cons_tail (by simpa using hslot), List.erase_cons_head]
      rw [herase] at h6
      have hidp5 : (v5.inode dp).inum = (v.inode dp).inum := (hran5.stays.inum dp hdpR4).trans hidp4
      rw [hidp5] at hran6
      have hi6 : (v6.inode ip).inum = i := (hran6.stays.inum ip (mem_cons_self _ _)).trans
        ((hran5.stays.inum ip hipR).trans hi4)
      rw [ht5] at hsh
      rw [← hi6] at hi0 hnone hsh
      refine ⟨⟨{i, (v.inode dp).inum}, Finset.card_le_two, fun a ha => ?_, ?_⟩, h6, hb6, hi0, hnone, hfree, off,
        hhole, hoff, hsh⟩
      · cases ha
        rw [hi6]
        exact Finset.mem_insert_self _ _
      have hran45 := hran34.trans (hran5.mono hle1 le_rfl subset_rfl le_rfl)
      exact ((hran45.mono hle le_rfl subset_rfl le_rfl).trans
        (hran6.mono (le_cons_self _ _) le_rfl subset_rfl le_rfl)).mono le_rfl (by simp) (by simp)
        (by simp)

/-- **What `create` does to the tree**: nothing if it fails or finds a file, or it makes an inode. -/
inductive Created (t : Tree) (cwd : Nat) (path : Bytes) (type : IType) (major minor : Int) : Option Nat → Tree → Prop
  | failed : Created t cwd path type major minor none t
  | found {dp : Nat} {dn : Node} {name : Bytes} {i : Nat} {n : Node} {off : Nat}
    (hname : HasName t cwd path dp dn name i n off)
      (hfile : type = .file) (htype : n.type = .file ∨ n.type = .device) : Created t cwd path type major minor (some i) t
  | made {i dp : Nat} {dn : Node} {name : Bytes} {off : Nat} {t' : Tree} (hpos : 0 < i) (hnone : t i = none)
      (hfree : FreeName t cwd path dp dn name off)
      (hshrinks : Shrinks (createTree t i (newNode type major minor i dp) dp dn name off) t') :
      Created t cwd path type major minor (some i) t'

theorem Created.none {cwd : Nat} (h : Created t cwd path type major minor none t') : t' = t := by
  generalize hr : (Option.none : Option Nat) = r at h
  cases h with
  | failed => rfl
  | found => cases hr
  | made => cases hr

theorem Created.made_of {cwd : Nat}
    (h : Created t cwd path type major minor (some i) t') (hfile : type ≠ .file) : ∃ dp dn name off, 0 < i ∧
    t i = Option.none ∧
      FreeName t cwd path dp dn name off ∧ Shrinks (createTree t i (newNode type major minor i dp) dp dn name off) t' := by
  generalize hr : some i = r at h
  cases h with
  | failed => cases hr
  | found _ h => exact absurd h hfile
  | made hpos hnone hfree hsh =>
    cases hr
    exact ⟨_, _, _, _, hpos, hnone, hfree, hsh⟩

def withIp (r : Option Ip) (R : Multiset Ip) : Multiset Ip :=
  match r with
  | none => R
  | some ip => ip ::ₘ R

/-- **A function returns a locked inode, or nothing.** -/
structure Yields (R : Multiset Ip) (k : Nat) (v : Vol) (r : Option Ip) (v' : Vol) : Prop where
  mid : Mid v' (withIp r R) r.toList
  base : Base v' (withIp r R)
  ran : ∃ I : Finset Nat, I.card ≤ 2 ∧ (∀ ip ∈ r, (v'.inode ip).inum ∈ I) ∧ Ran R 3 I k v v'

theorem Yields.quiet {r : Option Ip} (h' : Mid v' (withIp r R) r.toList) (hb : Base v R) (hq : Quiet v v')
    (hst : Stays R 3 v v') : Yields R k v r v' := by
  have hran : ∀ I, Ran R 3 I k v v' := fun I =>
    (hq.ran hst).mono le_rfl le_rfl (Finset.empty_subset _) (Nat.zero_le _)
  cases r with
  | none => exact ⟨h', hb.quiet hq hst, ∅, Nat.zero_le _, fun _ he => (by cases he), hran _⟩
  | some ip =>
    refine ⟨h', (hb.quiet hq hst).cons (h'.used List.mem_cons_self), {(v'.inode ip).inum}, Finset.card_singleton _ ▸ by decide,
      fun a ha => ?_, hran _⟩
    cases ha
    exact Finset.mem_singleton_self _

theorem create_spec (h : Mid v R []) (hb : Base v R) (hcwd : cwd ∈ R) (hty : type ≠ .none) (hF : Excused F (tree v)) :
    wp (create cwd path type major minor) (fun r v' => Yields R (createBlocks type) v r v' ∧
      Created (tree v) (v.inode cwd).inum path type major minor (r.map (fun ip => (v'.inode ip).inum)) (tree v')) F v := by
  refine wp_then (nameiparent_spec h hb.good hb.alloc hcwd hF) (fun r v1 ⟨hq1, hst1, hr⟩ => ?_)
  cases r with
  | none => exact ⟨Yields.quiet hr hb hq1 (hst1.mono le_rfl (by decide)), by rw [hq1.tree]; exact .failed⟩
  | some r =>
    obtain ⟨dp, name⟩ := r
    obtain ⟨h1, hlook, dn, hdn, hd⟩ := hr
    have hdpR : dp ∈ dp ::ₘ R := mem_cons_self _ _
    have hle : R ≤ dp ::ₘ R := le_cons_self _ _
    refine wp_then (ilock_node h1 hdpR (.inl List.not_mem_nil) (.inr (by rw [hq1.tree, hdn]; exact fun e => by cases e)))
      (fun _ v2 ⟨_, h2, hq2, hst2, hnode⟩ => ?_)
    rw [hq1.tree] at hnode
    rw [hnode] at hdn
    cases hdn
    have hq12 := hq1.trans hq2
    have hst12 : Stays R 3 v v2 := (hst1.mono le_rfl (by decide)).trans (hst2.mono hle (by simp))
    have hb2 := hb.quiet hq12 hst12
    have hidp : (v2.inode dp).inum = (v1.inode dp).inum := hst2.inum dp hdpR
    rw [wp_bind]
    refine wp_mono (dirlookup_spec h2 List.mem_cons_self hd) (fun r v3 ⟨hq3, hst3, hr⟩ => ?_)
      (fun e he => hF.dirlookup (fun hw => hw _ _ hnode hd) he)
    cases r with
    | none =>
      obtain ⟨rfl, -⟩ := hr
      refine wp_use (createIn_spec h2 hb2 hd hty hF (fun hw => hw _ _ hnode hd)) (fun r v4 ⟨⟨I, hI, hrI, hran4⟩, hr⟩ => ?_)
      have hran : Ran R 3 I (createBlocks type) v v4 :=
        ((hq12.ran hst12).trans hran4).mono le_rfl (by simp) (by simp) (by simp)
      cases r with
      | none =>
        obtain ⟨h4, hb4, ht4⟩ := hr
        rw [ht4, hq12.tree]
        exact ⟨⟨h4, hb4, I, hI, hrI, hran⟩, .failed⟩
      | some ip =>
        obtain ⟨h4, hb4, hpos, hnone, hfree, off, hhole, hoff, hsh⟩ := hr
        rw [hq12.tree] at hnone
        rw [hq12.tree, hidp] at hsh
        exact ⟨⟨h4, hb4, I, hI, hrI, hran⟩, .made hpos hnone ⟨hlook, hnode, hd, hfree, hhole, hoff⟩ hsh⟩
    | some r =>
      obtain ⟨ip, off⟩ := r
      obtain ⟨h3, hf⟩ := hr
      have hipR : ip ∈ ip ::ₘ R := mem_cons_self _ _
      have hleip : R ≤ ip ::ₘ R := le_cons_self _ _
      have hq13 := hq12.trans hq3
      have hst13 : Stays R 3 v v3 := hst12.trans (hst3.mono hle (by simp))
      rw [wp_bind]
      rw [cons_swap] at h3
      refine wp_use (iunlockput_extra h3 ((hb.quiet hq13 hst13).good.mono hleip))
        (fun _ v4 ⟨h4, hq4, hst4⟩ => ?_)
      have hi4 : (v4.inode ip).inum = (v3.inode ip).inum := hst4.inum ip hipR
      have hq14 := hq13.trans hq4
      have hst14 : Stays R 3 v v4 := hst13.trans (hst4.mono hleip (by simp))
      refine wp_then (ilock_node h4 hipR (.inl List.not_mem_nil) (by rw [hq14.tree, hi4]; exact hF.find hnode hd hf))
        (fun _ v5 ⟨_, h5, hq5, hst5, hnode5⟩ => ?_)
      rw [hq14.tree, hi4] at hnode5
      have hi5 : (v5.inode ip).inum = (v3.inode ip).inum := (hst5.inum ip hipR).trans hi4
      have hq15 := hq14.trans hq5
      have hst15 : Stays R 3 v v5 := hst14.trans (hst5.mono hleip (by simp))
      refine wp_ite (fun hc => ?_) (fun hc => ?_)
      · have hne : (v3.inode ip).inum ≠ (v1.inode dp).inum := fun e => by
          rw [e, hnode] at hnode5
          have hd5 : (nodeAt v5 ip).type = .dir := by rw [← some.inj hnode5, hd]
          rcases hc.2 with ht | ht
          · exact absurd (ht.symm.trans hd5) (by decide)
          · exact absurd (ht.symm.trans hd5) (by decide)
        refine ⟨Yields.quiet h5 hb hq15 hst15, ?_⟩
        rw [hq15.tree, map_some, hi5]
        exact .found ⟨hlook, hnode, hd, hf, hnode5, hne⟩ hc.1 hc.2
      · refine wp_then (iunlockput_extra h5 (hb.quiet hq15 hst15).good) (fun _ v6 ⟨h6, hq6, hst6⟩ => ?_)
        have hq16 := hq15.trans hq6
        exact ⟨Yields.quiet h6 hb hq16 (hst15.trans (hst6.mono le_rfl (by simp))), by rw [hq16.tree]; exact .failed⟩

/-! ## `mkdir`, `mknod` and `symlink` -/

theorem Yields.ends {k' n : Nat} (h : Yields R k v (some ip) v')
    (h' : Ran R n {(v'.inode ip).inum} k' v' v'') (hn : n ≤ 3) (hm : Mid v'' R []) (hb : Base v'' R) :
    Ends R (k + k') v v'' := by
  obtain ⟨I, hI, hip, hran⟩ := h.ran
  refine ⟨hm, hb, I, hI, (hran.trans h').mono le_rfl (by omega) ?_ le_rfl⟩
  exact Finset.union_subset subset_rfl (Finset.singleton_subset_iff.2 (hip ip rfl))

/-- **What `sys_mkdir` and `sys_mknod` do to the tree**. -/
def Made (t : Tree) (cwd : Nat) (path : Option Bytes) (type : IType) (major minor : Int) (r : Int) (t' : Tree) : Prop :=
  r = -1 ∧ t' = t ∨ r = 0 ∧ ∃ str i dp dn name off, argstr path = some str ∧ 0 < i ∧ t i = none ∧
    FreeName t cwd str dp dn name off ∧ Shrinks (createTree t i (newNode type major minor i dp) dp dn name off) t'

theorem makeNode_spec {path : Option Bytes} (h : Mid v R []) (hb : Base v R)
    (hcwd : cwd ∈ R) (hty : type ≠ .none) (hfile : type ≠ .file) (hF : Excused F (tree v)) :
    wp (makeNode cwd path type major minor) (fun r v' => Ends R (createBlocks type) v v' ∧
      Made (tree v) (v.inode cwd).inum path type major minor r (tree v')) F v := by
  unfold makeNode
  cases harg : argstr path with
  | none => exact ⟨Ends.quiet h hb (Quiet.refl _) (Stays.refl ..), .inl ⟨rfl, rfl⟩⟩
  | some str =>
    refine wp_then (create_spec h hb hcwd hty hF) (fun r v1 ⟨hy, hc⟩ => ?_)
    cases r with
    | none =>
      obtain ⟨h1, hb1, I, hI, -, hran⟩ := hy
      refine ⟨⟨h1, hb1, I, hI, hran⟩, .inl ⟨rfl, ?_⟩⟩
      exact hc.none
    | some ip =>
      refine wp_then (iunlockput_reap hy.mid hy.base List.mem_cons_self) (fun _ v2 ⟨h2, hb2, hran2, hsh, _⟩ => ?_)
      rw [toList_some, List.erase_cons_head] at h2
      refine ⟨hy.ends hran2 (by simp) h2 hb2, .inr ⟨rfl, ?_⟩⟩
      obtain ⟨dp, dn, name, off, hpos, hnone, hfree, hsh1⟩ := hc.made_of hfile
      exact ⟨str, _, dp, dn, name, off, harg, hpos, hnone, hfree, hsh1.trans hsh⟩

theorem createTree_update (t : Tree) (dn : Node) (name : Bytes) (off : Nat) (hne : i ≠ dp) (ht : m.type = n.type) :
    update (createTree t i n dp dn name off) i (some m) = createTree t i m dp dn name off := by
  unfold createTree
  rw [update_comm hne.symm, update_idem, ht]

theorem createTree_new (hne : i ≠ dp) (h0 : n.nlink ≠ 0)
    (hsh : Shrinks (createTree t i n dp dn name off) t') : t' i = some n := by
  refine hsh.keeps ?_ h0
  unfold createTree
  rw [update_of_ne hne, update_self]

/-- **What `sys_symlink` does to the tree**: the link may be left without all of its target, and then the call has failed. -/
def Symlinked (t : Tree) (cwd : Nat) (target path : Bytes) (r : Int) (t' : Tree) : Prop :=
  r = -1 ∧ t' = t ∨ ∃ i dp dn name off bytes, 0 < i ∧ t i = none ∧ FreeName t cwd path dp dn name off ∧
    (r = -1 ∨ r = 0 ∧ bytes = target) ∧
    Shrinks (createTree t i { newNode .symlink 0 0 i dp with bytes := bytes } dp dn name off) t'

theorem symlink_spec (h : Mid v R []) (hb : Base v R) (hcwd : cwd ∈ R)
    (hlen : target.length < maxpath) (hF : Excused F (tree v)) : wp (symlink cwd target path) (fun r v' => Ends R 4 v v' ∧
      Symlinked (tree v) (v.inode cwd).inum target path r (tree v')) F v := by
  have hlen' : target.length < 128 := hlen
  unfold symlink
  refine wp_then (create_spec h hb hcwd (by decide) hF) (fun r v1 ⟨hy, hc⟩ => ?_)
  cases r with
  | none =>
    obtain ⟨h1, hb1, I, hI, -, hran⟩ := hy
    exact ⟨⟨h1, hb1, I, hI, hran.mono le_rfl le_rfl subset_rfl (by decide)⟩, .inl ⟨rfl, hc.none⟩⟩
  | some ip =>
    rw [map_some] at hc
    obtain ⟨dp, dn, name, off, hpos, hnone, hfree, hsh1⟩ := hc.made_of (by decide)
    have hne : (v1.inode ip).inum ≠ dp := fun e => by
      rw [e, hfree.node] at hnone
      cases hnone
    have hipR : ip ∈ ip ::ₘ R := mem_cons_self _ _
    have hle : R ≤ ip ::ₘ R := le_cons_self _ _
    have hn1 : nodeAt v1 ip = newNode .symlink 0 0 (v1.inode ip).inum dp :=
      hy.mid.nodeAt_eq List.mem_cons_self (by rw [createTree_new hne Int.one_ne_zero hsh1])
    have hpieces : (pieces target.length 0 target.length).length ≤ 1 := length_pieces_le _ _ _ _ (by
      unfold bsize
      omega)
    have hmax : maxfile * bsize = 274432 := rfl
    refine wp_then (writei_spec hy.mid List.mem_cons_self (by omega)) (fun r v2 ⟨h2, hst2, hlog2, hr⟩ => ?_)
    rcases hr with ⟨-, -, hout⟩ | ⟨x, done, rfl, -, hxn, -, hall, -, ht2⟩
    · omega
    obtain ⟨rfl, -⟩ := hall le_rfl
    have hw : written (nodeAt v1 ip) target 0 x x =
        { newNode .symlink 0 0 (v1.inode ip).inum dp with bytes := target.take x } := by
      rw [hn1]
      unfold written newNode patch
      simp
    rw [hw] at ht2
    have hb2 : Base v2 (ip ::ₘ R) := hy.base.update hst2 ht2 (.inr (.inl (fun e => by cases e)))
    have hran2 : Ran _ _ _ _ v1 v2 := ⟨hst2, hlog2⟩
    refine wp_then (iunlockput_reap h2 hb2 List.mem_cons_self) (fun _ v3 ⟨h3, hb3, hran3, hsh3, _⟩ => ?_)
    rw [toList_some, List.erase_cons_head] at h3
    rw [hst2.inum ip hipR] at hran3
    have hran23 : Ran R 1 {(v1.inode ip).inum} 2 v1 v3 :=
      ((hran2.mono hle le_rfl subset_rfl le_rfl).trans hran3).mono le_rfl (by simp) (by simp) (by omega)
    refine ⟨hy.ends hran23 (by decide) h3 hb3, .inr ⟨_, dp, dn, name, off, target.take x, hpos, hnone, hfree, ?_, ?_⟩⟩
    · split
      · exact .inl rfl
      · rename_i hx
        refine .inr ⟨rfl, List.take_of_length_le ?_⟩
        omega
    · rw [ht2] at hsh3
      have htree := createTree_update (tree v) dn name off hne
        (show { newNode .symlink 0 0 (v1.inode ip).inum dp with bytes := target.take x }.type =
          (newNode .symlink 0 0 (v1.inode ip).inum dp).type from rfl)
      rw [← htree]
      exact (hsh1.update _ _).trans hsh3

end Xv6.Fs
