import Xv6.FsName
/-!
# FsLink — `link` and `unlink`

What `sys_link` and `sys_unlink` do to the tree between `begin_op` and `end_op`, on every path through them, with the
references and the locks they leave and the blocks they log.
-/
namespace Xv6.Fs

open Multiset Function Wp
variable {v v' : Vol} {R : Multiset Ip} {L : List Ip} {F : Panic → Prop} {name path new bytes old : Bytes}

/-! ## Links -/

def relink (n : Node) (x : Int) : Node := { n with nlink := short (n.nlink + x) }

theorem short_short (x : Int) : short (short x) = short x := by exact Int.bmod_bmod

theorem relink_relink {n : Node} (h : short n.nlink = n.nlink) : relink (relink n 1) (-1) = n := by
  have he : short (short (n.nlink + 1) + -1) = n.nlink := by
    refine Eq.trans ?_ h
    unfold short
    rw [Int.bmod_add_bmod, Int.add_neg_cancel_right]
  unfold relink
  rw [he]

variable {a cwd ip : Ip} {t t' : Tree} {x : Int} {i k dp off : Nat} {dn : Node}

theorem addLink_spec (h : Mid v R L) (ha : a ∈ L) :
    wp (addLink a x) (fun _ v' => Mid v' R L ∧ (∀ R' ≤ R, a ∈ R' → Base v R' → Base v' R') ∧
      Ran R 0 {(v.inode a).inum} 0 v v' ∧
      tree v' = update (tree v) (v.inode a).inum (some (relink (nodeAt v a) x))) F v := by
  unfold addLink
  rw [wp_bind, wp_din]
  refine wp_use (iassign_fields h ha rfl (short_short _)) (fun _ v' ⟨h', ht, hst, hlog, _⟩ =>
    ⟨h', fun R' hle haR' hb => hb.update (hst.mono hle le_rfl) ht (.inr (.inr ⟨a, haR', rfl, ?_⟩)), ⟨hst, hlog⟩, ht⟩)
  exact (h'.locked a ha).2

theorem ilock_node (h : Mid v R L) (ha : a ∈ R) (hL : a ∉ L ∨ F .deadlock)
    (ht : F .ilockNoType ∨ tree v (v.inode a).inum ≠ none) :
    wp (ilock a) (fun _ v' => a ∉ L ∧ Mid v' R (a :: L) ∧ Quiet v v' ∧ Stays R (L.length + 1) v v' ∧
      tree v (v.inode a).inum = some (nodeAt v' a)) F v := by
  refine wp_use (ilock_spec h ha hL ht) (fun _ v' ⟨hn, h', hq, hst⟩ => ⟨hn, h', hq, hst, ?_⟩)
  rw [← hq.tree, ← hst.inum a ha]
  exact h'.node ha (h'.locked a List.mem_cons_self).2

theorem dirlink_base (h : Mid v R L) (hg : Good v R) (ha : a ∈ L)
    (hd : (nodeAt v a).type = .dir) (hF : Excused F t) (hw : Whole t → (nodeAt v a).bytes.length % 16 = 0) :
    wp (dirlink a name i) (fun r v' => Mid v' R L ∧ (∀ R' ≤ R, Base v R' → Base v' R') ∧
      Ran R (L.length + 1) {(v.inode a).inum} 2 v v' ∧ (r = -1 ∧ tree v' = tree v ∨
        r = 0 ∧ dirFind (nodeAt v a).bytes name = .ok none ∧ ∃ off,
          dirHole (nodeAt v a).bytes = .ok off ∧ off ≤ (nodeAt v a).bytes.length ∧
          tree v' = update (tree v) (v.inode a).inum (some (addEntry (nodeAt v a) off i name)))) F v := by
  obtain ⟨haR, hav⟩ := h.locked a ha
  refine wp_use (dirlink_spec h hg ha hd (hF.mild _ (by decide) (by decide) (by decide)) (fun e he => ?_))
    (fun r v' ⟨h', hst, hlog, hr⟩ => ⟨h', fun R' hle hb => ?_, ⟨hst, hlog⟩, hr⟩)
  · rcases he with he | he
    · exact scan_panic he (by decide) hF hw
    · exact scan_panic he (by decide) hF hw
  rcases hr with ⟨-, ht⟩ | ⟨-, -, off, -, -, ht⟩
  · exact hb.same ht (hst.mono hle le_rfl)
  · exact hb.update (hst.mono hle le_rfl) ht (.inl ⟨_, h.node haR hav, rfl⟩)

/-! ## `link` -/

/-- **A part of a call between `begin_op` and `end_op` ends**: it holds no lock and the references `R`, and has logged the
blocks of two inodes and `k` others. -/
structure Ends (R : Multiset Ip) (k : Nat) (v v' : Vol) : Prop where
  mid : Mid v' R []
  base : Base v' R
  ran : ∃ I : Finset Nat, I.card ≤ 2 ∧ Ran R 3 I k v v'

theorem Ends.quiet (h' : Mid v' R []) (hb : Base v R) (hq : Quiet v v') (hst : Stays R 3 v v') : Ends R k v v' :=
  ⟨h', hb.quiet hq hst, ∅, Nat.zero_le _, (hq.ran hst).mono le_rfl le_rfl subset_rfl (Nat.zero_le _)⟩

/-- **`path` names no inode yet**, and its entry goes to `off` in the directory `dp`. -/
structure FreeName (t : Tree) (cwd : Nat) (path : Bytes) (dp : Nat) (dn : Node) (name : Bytes) (off : Nat) : Prop where
  look : look t cwd path true = .ok (some (dp, name))
  node : t dp = some dn
  dir : dn.type = .dir
  free : dirFind dn.bytes name = .ok none
  hole : dirHole dn.bytes = .ok off
  le : off ≤ dn.bytes.length

theorem FreeName.congr {cwd : Nat} (h : FreeName t cwd path dp dn name off)
    (he : ∀ i, (t' i).map (fun n => (n.type, n.bytes)) = (t i).map (fun n => (n.type, n.bytes))) (hn : t' dp = some dn) :
    FreeName t' cwd path dp dn name off := ⟨(resolve_congr he).trans h.look, hn, h.dir, h.free, h.hole, h.le⟩

theorem linkEntry_spec (h : Mid v R []) (hb : Base v R) (hcwd : cwd ∈ R) (hip : ip ∈ R) (hF : Excused F (tree v)) :
    wp (linkEntry cwd ip new) (fun r v' => Mid v' R [] ∧ Base v' R ∧ (∃ dp, Ran R 2 {dp} 2 v v') ∧
      (r = false ∧ tree v' = tree v ∨ r = true ∧ ∃ dp dn name off, FreeName (tree v) (v.inode cwd).inum new dp dn name off ∧
        tree v' = update (tree v) dp (some (addEntry dn off (v.inode ip).inum name)))) F v := by
  refine wp_then (nameiparent_spec h hb.good hb.alloc hcwd hF) (fun r v1 ⟨hq1, hst1, hr⟩ => ?_)
  cases r with
  | none =>
    exact ⟨hr, hb.quiet hq1 hst1, ⟨0, (hq1.ran hst1).mono le_rfl (by decide) (Finset.empty_subset _) (by decide)⟩,
      .inl ⟨rfl, hq1.tree⟩⟩
  | some r =>
    obtain ⟨dp, name⟩ := r
    obtain ⟨h1, hlook, n, hn, hd⟩ := hr
    have hdpR : dp ∈ dp ::ₘ R := mem_cons_self _ _
    have hle : R ≤ dp ::ₘ R := le_cons_self _ _
    refine wp_then (ilock_node h1 hdpR (.inl List.not_mem_nil) (.inr (by rw [hq1.tree, hn]; exact fun e => by cases e)))
      (fun _ v2 ⟨_, h2, hq2, hst2, hnode⟩ => ?_)
    rw [hq1.tree, hn] at hnode
    cases hnode
    have hst12 : Stays R 1 v v2 := hst1.trans (hst2.mono hle le_rfl)
    have hq12 := hq1.trans hq2
    have hb2 := hb.quiet hq12 hst12
    rw [wp_bind, wp_inumOf]
    refine wp_then (dirlink_base h2 (hb2.good.mono hle) List.mem_cons_self hd hF (fun hw => hw _ _ hn hd))
      (fun r v3 ⟨h3, hbase, hran3, hr⟩ => ?_)
    have hb3 := hbase R hle hb2
    refine wp_then (iunlockput_extra h3 hb3.good) (fun _ v4 ⟨h4, hq4, hst4⟩ => ?_)
    refine ⟨h4, hb3.quiet hq4 hst4, ⟨(v2.inode dp).inum, ?_⟩, ?_⟩
    · have hran := ((hq12.ran hst12).trans (hran3.mono hle le_rfl subset_rfl le_rfl)).trans (hq4.ran hst4)
      exact hran.mono le_rfl (by simp) (by simp) (by simp)
    rw [hq4.tree]
    rcases hr with ⟨rfl, ht⟩ | ⟨rfl, hfree, off, hhole, hoff, ht⟩
    · exact .inl ⟨rfl, ht.trans hq12.tree⟩
    · refine .inr ⟨rfl, (v1.inode dp).inum, _, name, off, ⟨hlook, hn, hd, hfree, hhole, hoff⟩, ?_⟩
      rw [ht, hq12.tree, hst2.inum dp hdpR, hst12.inum ip hip]

def linkTree (t : Tree) (i : Nat) (n : Node) (dp : Nat) (dn : Node) (name : Bytes) (off : Nat) : Tree :=
  update (update t i (some (relink n 1))) dp (some (addEntry dn off i name))

/-- **What `sys_link` does to the tree**: it adds a link and the entry for it, or fails and does nothing. -/
def Linked (t : Tree) (cwd : Nat) (old new : Bytes) (r : Int) (t' : Tree) : Prop :=
  r = -1 ∧ t' = t ∨ r = 0 ∧ ∃ i nm n dp dn name off, look t cwd old false = .ok (some (i, nm)) ∧ t i = some n ∧
    n.type ≠ .dir ∧ FreeName t cwd new dp dn name off ∧ Shrinks (linkTree t i n dp dn name off) t'

theorem link_spec (h : Mid v R []) (hb : Base v R) (hcwd : cwd ∈ R) (hF : Excused F (tree v)) :
    wp (link cwd old new) (fun r v' => Ends R 2 v v' ∧ Linked (tree v) (v.inode cwd).inum old new r (tree v')) F v := by
  refine wp_then (namei_spec h hb.good hb.alloc hcwd hF) (fun r v1 ⟨hq1, hst1, hr⟩ => ?_)
  cases r with
  | none =>
    exact ⟨Ends.quiet hr.1 hb hq1 (hst1.mono le_rfl (by decide)), .inl ⟨rfl, hq1.tree⟩⟩
  | some ip =>
    obtain ⟨h1, hal, nm, hlook⟩ := hr
    have hipR : ip ∈ ip ::ₘ R := mem_cons_self _ _
    have hle : R ≤ ip ::ₘ R := le_cons_self _ _
    refine wp_then (ilock_node h1 hipR (.inl List.not_mem_nil) (by rw [hq1.tree]; exact hal))
      (fun _ v2 ⟨_, h2, hq2, hst2, hnode⟩ => ?_)
    rw [hq1.tree, ← hst2.inum ip hipR] at hnode
    rw [← hst2.inum ip hipR] at hlook
    have hq12 := hq1.trans hq2
    have hst12 : Stays R 1 v v2 := hst1.trans (hst2.mono hle le_rfl)
    have hb2 := hb.quiet hq12 hst12
    rw [wp_bind, wp_din]
    by_cases hty : (v2.inode ip).din.type = .dir
    · rw [if_pos hty]
      refine wp_then (iunlockput_extra h2 hb2.good) (fun _ v3 ⟨h3, hq3, hst3⟩ => ?_)
      exact ⟨Ends.quiet h3 hb (hq12.trans hq3) ((hst12.trans hst3).mono le_rfl (by decide)),
        .inl ⟨rfl, (hq12.trans hq3).tree⟩⟩
    rw [if_neg hty, wp_bind]
    have hv2 : (v2.inode ip).valid = true := (h2.locked ip List.mem_cons_self).2
    have hbI2 : Base v2 (ip ::ₘ R) := hb2.cons (h2.used List.mem_cons_self)
    refine wp_use (addLink_spec h2 List.mem_cons_self) (fun _ v3 ⟨h3, hbase3, hran3, ht3⟩ => ?_)
    have hbI3 : Base v3 (ip ::ₘ R) := hbase3 _ le_rfl hipR hbI2
    refine wp_then (iunlock_spec h3) (fun _ v4 ⟨h4, hq4, hst4⟩ => ?_)
    have ht4 : tree v4 = update (tree v) (v2.inode ip).inum (some (relink (nodeAt v2 ip) 1)) := by
      rw [hq4.tree, ht3, hq12.tree]
    have hran4 : Ran R 1 {(v2.inode ip).inum} 0 v v4 :=
      (((hq12.ran hst12).trans (hran3.mono hle le_rfl subset_rfl le_rfl)).trans
        (hq4.ran (hst4.mono hle le_rfl))).mono le_rfl (by simp) (by simp) (by simp)
    have hi4 : (v4.inode ip).inum = (v2.inode ip).inum :=
      (hst4.inum ip hipR).trans (hran3.stays.inum ip hipR)
    have hF4 : Excused F (tree v4) := by
      rw [ht4]
      exact hF.congr (same_shape hnode rfl rfl)
    refine wp_then (linkEntry_spec h4 (hbI3.quiet hq4 hst4) (mem_cons_of_mem hcwd) hipR hF4)
      (fun r v5 ⟨h5, hbI5, ⟨dp', hran5⟩, hr⟩ => ?_)
    have hran45 : Ran R 2 {(v2.inode ip).inum, dp'} 2 v v5 :=
      (hran4.trans (hran5.mono hle le_rfl subset_rfl le_rfl)).mono le_rfl (by simp) (by simp) (by simp)
    have hi5 : (v5.inode ip).inum = (v2.inode ip).inum := (hran5.stays.inum ip hipR).trans hi4
    rcases hr with ⟨rfl, ht5⟩ | ⟨rfl, dp, dn, name, off, hfree, ht5⟩
    · -- no entry: the link is taken away again
      rw [if_neg (by decide)]
      refine wp_then (ilock_node h5 hipR (.inl List.not_mem_nil) (.inr (hbI5.alloc ip hipR)))
        (fun _ v6 ⟨_, h6, hq6, hst6, hnode6⟩ => ?_)
      rw [ht5, ht4, hi5, update_self] at hnode6
      refine wp_then (addLink_spec h6 List.mem_cons_self) (fun _ v7 ⟨h7, _, hran7, ht7⟩ => ?_)
      have hn6 : relink (nodeAt v6 ip) (-1) = nodeAt v2 ip := by
        rw [← Option.some.inj hnode6]
        exact relink_relink (h2.nlinkAt hipR hv2)
      have ht : tree v7 = tree v := by
        rw [ht7, hn6, hq6.tree, ht5, ht4, hst6.inum ip hipR, hi5, update_idem, ← hnode, update_eq_self]
      rw [hst6.inum ip hipR, hi5] at hran7
      have hran67 := (hran45.trans (hq6.ran (hst6.mono hle le_rfl))).trans
        (hran7.mono hle le_rfl subset_rfl le_rfl)
      have hb7 : Base v7 R := hb.same ht hran67.stays
      refine wp_then (iunlockput_extra h7 hb7.good) (fun _ v8 ⟨h8, hq8, hst8⟩ => ?_)
      exact ⟨⟨h8, hb7.quiet hq8 hst8, {(v2.inode ip).inum, dp'}, Finset.card_le_two,
        (hran67.trans (hq8.ran hst8)).mono le_rfl (by simp)
        (by simp [Finset.pair_comm]) (by simp)⟩, .inl ⟨rfl, hq8.tree.trans ht⟩⟩
    · rw [if_pos rfl]
      refine wp_then (iput_reap h5 hbI5 (fun hm => (by cases hm))) (fun _ v6 ⟨h6, hb6, hran6, hsh, _⟩ => ?_)
      refine ⟨⟨h6, hb6, {(v2.inode ip).inum, dp'}, Finset.card_le_two, ?_⟩,
        .inr ⟨rfl, (v2.inode ip).inum, nm, nodeAt v2 ip, dp, dn, name, off, hlook, hnode, hty, ?_, ?_⟩⟩
      · rw [hi5] at hran6
        exact (hran45.trans hran6).mono le_rfl (by simp) (by simp [Finset.pair_comm]) (by simp)
      · have hne : dp ≠ (v2.inode ip).inum := by
          rintro rfl
          have hdn := hfree.node
          rw [ht4, update_self] at hdn
          cases hdn
          exact hty hfree.dir
        have hi : (v4.inode cwd).inum = (v.inode cwd).inum := hran4.stays.inum cwd hcwd
        rw [ht4, hi] at hfree
        refine hfree.congr (fun j => (same_shape (m := relink (nodeAt v2 ip) 1) hnode rfl rfl j).symm) ?_
        have hdn := hfree.node
        rwa [update_of_ne hne] at hdn
      · rwa [ht5, ht4, hi4] at hsh

/-! ## `unlink` -/

/-- **`path` names the inode `i`**, by the entry at `off` of the directory `dp`. -/
structure HasName (t : Tree) (cwd : Nat) (path : Bytes) (dp : Nat) (dn : Node) (name : Bytes) (i : Nat)
    (n : Node) (off : Nat) : Prop where
  look : look t cwd path true = .ok (some (dp, name))
  parent : t dp = some dn
  dir : dn.type = .dir
  find : dirFind dn.bytes name = .ok (some (i, off))
  node : t i = some n
  ne : i ≠ dp

def clearEntry (n : Node) (off : Nat) : Node := { n with bytes := patch n.bytes off (List.replicate 16 0) }

/-- The directory `dn` has `x` more links if `type` is that of a directory: its `..`. -/
def relinkParent (type : IType) (dn : Node) (x : Int) : Node := if type = .dir then relink dn x else dn

def unlinkTree (t : Tree) (dp : Nat) (dn : Node) (i : Nat) (n : Node) (off : Nat) : Tree :=
  update (update t dp (some (relinkParent n.type (clearEntry dn off) (-1)))) i (some (relink n (-1)))

theorem addDotdot_spec {type : IType} (h : Mid v R L) (ha : a ∈ L) :
    wp (addDotdot a type x) (fun _ v' => Mid v' R L ∧ (∀ R' ≤ R, a ∈ R' → Base v R' → Base v' R') ∧
      Ran R 0 {(v.inode a).inum} 0 v v' ∧
      tree v' = update (tree v) (v.inode a).inum (some (relinkParent type (nodeAt v a) x))) F v := by
  unfold relinkParent
  refine wp_ite (fun ht => ?_) (fun ht => ?_)
  · rw [if_pos ht]
    exact addLink_spec h ha
  · obtain ⟨haR, hav⟩ := h.locked a ha
    rw [if_neg ht, ← h.node haR hav, update_eq_self]
    exact ⟨h, fun _ _ _ hb => hb,
      ((Quiet.refl v).ran (Stays.refl ..)).mono le_rfl le_rfl (Finset.empty_subset _) le_rfl, rfl⟩

theorem removable_spec (h : Mid v R L) (ha : a ∈ L) (hF : Excused F t)
    (hw : (nodeAt v a).type = .dir → Whole t → (nodeAt v a).bytes.length % 16 = 0) :
    wp (removable a) (fun r v' => v' = v ∧
      (r = true → (nodeAt v a).type = .dir → dirEmpty (nodeAt v a).bytes = .ok true)) F v := by
  unfold removable
  refine wp_ite (fun hd => ?_) (fun hd => ⟨rfl, fun _ hd' => absurd hd' hd⟩)
  refine wp_mono (isdirempty_spec h ha) (fun r v' ⟨hv, hr⟩ => ⟨hv, fun ht _ => ht ▸ hr⟩) (fun e he => ?_)
  exact scan_panic he (by decide) hF (hw hd)

theorem unlinkEntry_spec {dp : Ip} (h : Mid v (ip ::ₘ dp ::ₘ R) [ip, dp])
    (hb : Base v (ip ::ₘ dp ::ₘ R)) (hoff : off % 16 = 0) (hF : Excused F t) :
    wp (unlinkEntry dp ip off) (fun r v' => Mid v' R [] ∧ Base v' R ∧
      Ran R 2 {(v.inode dp).inum, (v.inode ip).inum} 2 v v' ∧ r = 0 ∧
      Shrinks (unlinkTree (tree v) (v.inode dp).inum (nodeAt v dp) (v.inode ip).inum (nodeAt v ip) off) (tree v')) F v := by
  have hdp : dp ∈ [ip, dp] := List.mem_cons_of_mem _ List.mem_cons_self
  obtain ⟨hipR, hipv⟩ := h.locked ip List.mem_cons_self
  obtain ⟨hdpR, hdpv⟩ := h.locked dp hdp
  have hslot : ip ≠ dp := fun e => by
    have := h.nodup
    rw [e] at this
    exact (List.nodup_cons.1 this).1 List.mem_cons_self
  have hne : (v.inode ip).inum ≠ (v.inode dp).inum := fun e => hslot (h.uniq ip hipR dp hdpR e)
  refine wp_then (writeEntry_spec h hdp List.length_replicate hoff) (fun r v1 ⟨h1, hst1, hlog1, hr⟩ => ?_)
  rcases hr with ⟨hr, -⟩ | ⟨hr, -, ht1⟩
  · rw [if_pos hr]
    exact hF.mild _ (by decide) (by decide) (by decide)
  rw [if_neg (fun hne => hne hr), wp_bind, wp_din, wp_bind]
  have hran1 : Ran _ _ _ _ v v1 := ⟨hst1, hlog1⟩
  have hb1 : Base v1 (ip ::ₘ dp ::ₘ R) := hb.update hst1 ht1 (.inl ⟨_, h.node hdpR hdpv, rfl⟩)
  have hv1 := (h1.locked dp hdp).2
  have hn1 : nodeAt v1 dp = clearEntry (nodeAt v dp) off := by
    have hn := h1.node hdpR hv1
    rw [ht1, hst1.inum dp hdpR, update_self] at hn
    exact (Option.some.inj hn).symm
  have hty : (v1.inode ip).din.type = (nodeAt v ip).type := (hst1.valid ip hipR hipv).2
  refine wp_use (addDotdot_spec h1 hdp) (fun _ v2 ⟨h2, hbase2, hran2, ht2⟩ => ?_)
  rw [hty, hn1, ht1, hst1.inum dp hdpR, update_idem] at ht2
  have hb2 := hbase2 _ le_rfl hdpR hb1
  rw [hst1.inum dp hdpR] at hran2
  have hran12 := hran1.trans hran2
  rw [Multiset.cons_swap] at h2 hb2
  refine wp_then (iunlockput_reap h2 hb2 hdp) (fun _ v3 ⟨h3, hb3, hran3, hsh3, hoth3⟩ => ?_)
  have hle1 : ip ::ₘ R ≤ ip ::ₘ dp ::ₘ R := Multiset.cons_le_cons _ (le_cons_self _ _)
  have hip1 : ip ∈ ip ::ₘ R := mem_cons_self _ _
  rw [hran12.stays.inum dp hdpR] at hran3 hoth3
  have hran13 := (hran12.mono hle1 le_rfl subset_rfl le_rfl).trans hran3
  have herase : [ip, dp].erase dp = [ip] := by
    rw [List.erase_cons_tail (by simpa using hslot), List.erase_cons_head]
  rw [herase] at h3
  have hn3 : nodeAt v3 ip = nodeAt v ip := by
    refine h3.nodeAt_eq List.mem_cons_self ?_
    rw [hran13.stays.inum ip hip1, hoth3 _ hne, ht2, update_of_ne hne, h.node hipR hipv]
  refine wp_then (addLink_spec h3 List.mem_cons_self) (fun _ v4 ⟨h4, hbase4, hran4, ht4⟩ => ?_)
  rw [hn3, hran13.stays.inum ip hip1] at ht4
  rw [hran13.stays.inum ip hip1] at hran4
  have hran14 := hran13.trans hran4
  refine wp_then (iunlockput_reap h4 (hbase4 _ le_rfl hip1 hb3) List.mem_cons_self) (fun _ v5 ⟨h5, hb5, hran5, hsh5, _⟩ => ?_)
  rw [List.erase_cons_head] at h5
  rw [hran14.stays.inum ip hip1] at hran5
  refine ⟨h5, hb5, ?_, rfl, ?_⟩
  · refine ((hran14.mono (le_cons_self _ _) le_rfl subset_rfl le_rfl).trans hran5).mono le_rfl
      (by simp) (by simp) (by simp)
  · rw [ht4] at hsh5
    rw [ht2] at hsh3
    exact (hsh3.update _ _).trans hsh5

theorem Excused.dirlookup {e : Panic} {P : Prop} (hF : Excused F t) (hw : Whole t → bytes.length % 16 = 0)
    (he : dirFind bytes name = .error e ∨ e = .igetNoInodes ∧ P) : F e := by
  rcases he with he | ⟨rfl, -⟩
  · exact scan_panic he (by decide) hF hw
  · exact hF.mild _ (by decide) (by decide) (by decide)

theorem Excused.find (hF : Excused F t) (hn : t dp = some dn)
    (hd : dn.type = .dir) (hf : dirFind dn.bytes name = .ok (some (i, off))) : F .ilockNoType ∨ t i ≠ none := by
  obtain ⟨hmod, de, hde, rfl, hne, -⟩ := dirFind_entry hf
  exact hF.noType.imp_right (fun hcl => hcl.entry dp dn hn hd off de hmod hde hne)

/-- **What `sys_unlink` needs of the inode it removes.** -/
structure Removable (n : Node) (name : Bytes) : Prop where
  dot : namecmp name dot = false
  dotdot : namecmp name dotdot = false
  nlink : 1 ≤ n.nlink
  empty : n.type = .dir → dirEmpty n.bytes = .ok true

/-- **What `sys_unlink` does to the tree**: it clears the entry and takes the link away, or fails and does nothing. -/
def Unlinked (t : Tree) (cwd : Nat) (path : Bytes) (r : Int) (t' : Tree) : Prop :=
  r = -1 ∧ t' = t ∨ r = 0 ∧ ∃ dp dn name i n off, HasName t cwd path dp dn name i n off ∧ Removable n name ∧
    Shrinks (unlinkTree t dp dn i n off) t'

theorem unlink_spec (h : Mid v R []) (hb : Base v R) (hcwd : cwd ∈ R) (hF : Excused F (tree v)) :
    wp (unlink cwd path) (fun r v' => Ends R 2 v v' ∧ Unlinked (tree v) (v.inode cwd).inum path r (tree v')) F v := by
  unfold unlink
  refine wp_then (nameiparent_spec h hb.good hb.alloc hcwd hF) (fun r v1 ⟨hq1, hst1, hr⟩ => ?_)
  cases r with
  | none => exact ⟨Ends.quiet hr hb hq1 (hst1.mono le_rfl (by decide)), .inl ⟨rfl, hq1.tree⟩⟩
  | some r =>
    obtain ⟨dp, name⟩ := r
    obtain ⟨h1, hlook, dn, hdn, hd⟩ := hr
    have hdpR : dp ∈ dp ::ₘ R := mem_cons_self _ _
    have hle : R ≤ dp ::ₘ R := le_cons_self _ _
    refine wp_then (ilock_node h1 hdpR (.inl List.not_mem_nil) (.inr (by rw [hq1.tree, hdn]; exact fun e => by cases e)))
      (fun _ v2 ⟨_, h2, hq2, hst2, hnode⟩ => ?_)
    rw [hq1.tree] at hnode
    rw [hnode] at hdn
    cases hdn
    have hq12 := hq1.trans hq2
    have hst12 : Stays R 3 v v2 := (hst1.mono le_rfl (by decide)).trans (hst2.mono hle (by simp))
    -- where it fails, the directory is given up
    have hput : ∀ v', Mid v' (dp ::ₘ R) [dp] → Quiet v v' → Stays R 3 v v' → wp (do iunlockput dp; return -1) (fun r v'' =>
        Ends R 2 v v'' ∧ Unlinked (tree v) (v.inode cwd).inum path r (tree v'')) F v' := by
      intro v' h' hq hst
      refine wp_then (iunlockput_extra h' (hb.good.quiet hq hst)) (fun _ v'' ⟨h'', hq', hst'⟩ => ?_)
      exact ⟨Ends.quiet h'' hb (hq.trans hq') (hst.trans (hst'.mono le_rfl (by simp))),
        .inl ⟨rfl, (hq.trans hq').tree⟩⟩
    by_cases hdots : namecmp name dot = true ∨ namecmp name dotdot = true
    · rw [if_pos hdots]
      exact hput v2 h2 hq12 hst12
    rw [if_neg hdots, wp_bind]
    rw [not_or, Bool.not_eq_true, Bool.not_eq_true] at hdots
    refine wp_mono (dirlookup_spec h2 List.mem_cons_self hd) (fun r v3 ⟨hq3, hst3, hr⟩ => ?_)
      (fun e he => hF.dirlookup (fun hw => hw _ _ hnode hd) he)
    cases r with
    | none =>
      rw [hr.1]
      exact hput v2 h2 hq12 hst12
    | some r =>
      obtain ⟨ip, off⟩ := r
      obtain ⟨h3, hf⟩ := hr
      have hipR : ip ∈ ip ::ₘ dp ::ₘ R := mem_cons_self _ _
      have hq13 := hq12.trans hq3
      have hst13 : Stays R 3 v v3 := hst12.trans (hst3.mono hle (by simp))
      refine wp_then (ilock_node h3 hipR (.inr (hF.mild _ (by decide) (by decide) (by decide)))
        (by rw [hq13.tree]; exact hF.find hnode hd hf)) (fun _ v4 ⟨hnL, h4, hq4, hst4, hnode4⟩ => ?_)
      rw [hq13.tree] at hnode4
      have hq14 := hq13.trans hq4
      have hst34 : Stays (dp ::ₘ R) 3 v2 v4 := (hst3.mono le_rfl (by simp)).trans
        (hst4.mono (le_cons_self _ _) (by simp))
      have hst14 : Stays R 3 v v4 := hst12.trans (hst34.mono hle le_rfl)
      rw [wp_bind, wp_din]
      by_cases h0 : (v4.inode ip).din.nlink < 1
      · rw [if_pos h0]
        exact hF.mild _ (by decide) (by decide) (by decide)
      rw [if_neg h0]
      refine wp_then (removable_spec h4 List.mem_cons_self hF (fun hd hw => hw _ _ hnode4 hd)) (fun r v5 ⟨hv5, hempty⟩ => ?_)
      subst hv5
      cases r with
      | false =>
        rw [if_neg (by decide)]
        refine wp_then (iunlockput_extra h4 ((hb.good.quiet hq14 hst14).mono hle))
          (fun _ v5 ⟨h5, hq5, hst5⟩ => ?_)
        exact hput v5 h5 (hq14.trans hq5) (hst14.trans (hst5.mono hle (by simp)))
      | true =>
        rw [if_pos rfl]
        have hb5 : Base v5 (ip ::ₘ dp ::ₘ R) :=
          ((hb.quiet hq14 hst14).cons (h4.used (List.mem_cons_of_mem _ List.mem_cons_self))).cons (h4.used List.mem_cons_self)
        refine wp_use (unlinkEntry_spec h4 hb5 (dirFind_entry hf).1 hF) (fun r v6 ⟨h6, hb6, hran6, hr, hsh⟩ => ?_)
        have hidp : (v5.inode dp).inum = (v1.inode dp).inum := (hst34.inum dp hdpR).trans (hst2.inum dp hdpR)
        have hiip : (v5.inode ip).inum = (v3.inode ip).inum := hst4.inum ip hipR
        have hdn5 : nodeAt v5 dp = nodeAt v2 dp :=
          h4.nodeAt_eq (List.mem_cons_of_mem _ List.mem_cons_self) (by rw [hq14.tree, hidp, hnode])
        rw [hidp, hiip, hdn5, hq14.tree] at hsh
        rw [hidp, hiip] at hran6
        have hne : (v3.inode ip).inum ≠ (v1.inode dp).inum := fun e => hnL (by
          rw [h4.uniq ip hipR dp (mem_cons_of_mem hdpR) (by rw [hidp, hiip, e])]
          exact List.mem_cons_self)
        exact ⟨⟨h6, hb6, {(v1.inode dp).inum, (v3.inode ip).inum}, Finset.card_le_two,
          ((hq14.ran hst14).trans hran6).mono le_rfl (by simp) (by simp) (by simp)⟩,
          .inr ⟨hr, _, _, name, _, _, off, ⟨hlook, hnode, hd, hf, hnode4, hne⟩,
            ⟨hdots.1, hdots.2, Int.not_lt.1 h0, hempty rfl⟩, hsh⟩⟩

end Xv6.Fs
