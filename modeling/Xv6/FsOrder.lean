import Xv6.FsTidy
/-!
# FsOrder — runs that remove no directory in use

`sys_unlink` removes an empty directory even while it is the working directory of a process. Its `..` then outlives the link
count of its parent, and `create` still adds entries to it: `ilock` can meet an inode that is free, and inodes can be left
that nobody can reach. In a run that removes no directory in use (`Orderly`) neither happens: the tree stays tidy with every
directory linked, so no entry names a free inode (`Tidy.closed`), and what is left when nothing is open is reachable
(`Tidy.reachable`) and counted (`Tidy.entryCount_eq`).
-/
namespace Xv6.Fs

open Function List Option Wp
variable {s s' : FsState} {p : Slot} {x : Proc} {c : Call} {t t' : Tree} {i j dp off : Nat} {n m : Node}
  {a : Slot × Call} {path : Option Bytes} {im : Image}

/-! ## What follows of a tree in which every directory is linked -/

def Live (t : Tree) : Prop := ∀ i n, t i = some n → n.type = .dir → n.nlink ≠ 0

theorem dirs_some {d : Forest.Dir Nat} (h : dirs t i = some d) :
    ∃ n, t i = some n ∧ n.type = .dir ∧ n.nlink ≠ 0 ∧ d = ⟨upOf n.bytes, namesOf n.bytes⟩ := by
  obtain ⟨n, hn, hd⟩ := bind_eq_some_iff.1 h
  unfold dirOf at hd
  split at hd
  · rename_i hc
    cases hd
    exact ⟨n, hn, hc.1, hc.2, rfl⟩
  · cases hd

theorem Tidy.linked (h : Tidy t) (hj : 0 < j) (hm : j ∈ Forest.links inums (dirs t)) : t j ≠ none := fun hn => by
  have hc := h.count j hj
  have := Multiset.count_pos.2 hm
  rw [hn] at hc
  have h0 : nlinkOf none = 0 := rfl
  omega

theorem Tidy.root (h : Tidy t) : ∃ n, t rootino = some n ∧ n.type = .dir ∧ n.nlink ≠ 0 := by
  obtain ⟨d, hd, -⟩ := h.forest.top
  obtain ⟨n, hn, hty, h0, -⟩ := dirs_some hd
  exact ⟨n, hn, hty, h0⟩

theorem Tidy.closed (h : Tidy t) (hl : Live t) : Closed t := by
  constructor
  · obtain ⟨n, hn, -⟩ := h.root
    rw [hn]
    exact some_ne_none n
  intro i n hn hd off de hmod hde hne
  obtain ⟨hshape, hdir⟩ := h.dir hn hd (hl i n hn hd)
  obtain ⟨k, rfl⟩ : ∃ k, off = 16 * k := ⟨off / 16, by omega⟩
  rw [← getElem?_entries] at hde
  have hcases : k = 0 ∨ k = 1 ∨ 2 ≤ k := by omega
  rcases hcases with rfl | rfl | hk
  · obtain ⟨d0, h0, hd0, -⟩ := hshape.dot
    rw [hde] at h0
    cases h0
    rw [hd0, hn]
    exact some_ne_none n
  · obtain ⟨p, hp⟩ := h.forest.up hdir
    have hup : upOf n.bytes = de.inum := by
      unfold upOf
      rw [hde]
      rfl
    obtain ⟨m, hm, -⟩ := dirs_some hp
    rw [← hup, hm]
    exact some_ne_none m
  · have hm : de.inum ∈ namesOf n.bytes := mem_namesOf.2 ⟨hne, k, de, hk, hde, rfl⟩
    exact h.linked (by omega) (Forest.links_of_names (Forest.mem_names h.forest hdir hm))

/-- What is reached from the root through entries. -/
inductive Reachable (t : Tree) : Nat → Prop
  | root : Reachable t rootino
  | entry {i off : Nat} {n : Node} {de : Dirent} (hi : Reachable t i) (hn : t i = some n) (hd : n.type = .dir)
      (hoff : off % 16 = 0) (hde : entryAt n.bytes off = some de) (h0 : de.inum ≠ 0) : Reachable t de.inum

theorem reachable_of_below (h : Forest.Below (dirs t) rootino i) : Reachable t i := by
  induction h with
  | root => exact .root
  | name _ hg hj ih =>
    obtain ⟨n, hn, hd, -, rfl⟩ := dirs_some hg
    obtain ⟨h0, k, de, -, hde, rfl⟩ := mem_namesOf.1 hj
    rw [getElem?_entries] at hde
    exact .entry ih hn hd (Nat.mul_mod_right 16 k) hde h0

theorem Tidy.reachable (h : Tidy t) (hn : t i = some n) (h0 : n.nlink ≠ 0) : Reachable t i := by
  apply reachable_of_below
  apply h.forest.reach
  have hc := h.nlink hn
  exact Multiset.count_pos.1 (by omega)

/-- The entries of a node that name `j`, but for those called `.`. -/
def entriesTo (n : Node) (j : Nat) : Nat :=
  if n.type = .dir then (entries n.bytes).countP (fun de => decide (de.inum = j ∧ namecmp dot de.name = false)) else 0

/-- **The number of entries that name `j`**, not counting `.`. -/
def entryCount (t : Tree) (j : Nat) : Nat := (inums.map (fun d => (t d).elim 0 (fun n => entriesTo n j))).sum

theorem count_entryInums {es : List Dirent} (hj : j ≠ 0) :
    (entryInums es).count j = es.countP (fun de => decide (de.inum = j)) := by
  unfold entryInums
  rw [Multiset.coe_count, count_filter (by simpa using hj), count_eq_countP, countP_map]
  apply countP_congr
  intro de _
  simp

theorem Shape.entriesTo (h : Shape i n.bytes) (hd : n.type = .dir) (hj : j ≠ 0) :
    Fs.entriesTo n j = (upOf n.bytes ::ₘ namesOf n.bytes).count j := by
  obtain ⟨d0, h0, -, hc0⟩ := h.dot
  obtain ⟨d1, h1, -, hc1⟩ := h.dotdot
  have hsplit : entries n.bytes = d0 :: d1 :: (entries n.bytes).drop 2 := by
    obtain ⟨hl0, he0⟩ := List.getElem?_eq_some_iff.1 h0
    obtain ⟨hl1, he1⟩ := List.getElem?_eq_some_iff.1 h1
    rw [← he0, ← he1, ← List.drop_eq_getElem_cons hl1, ← List.drop_eq_getElem_cons hl0, List.drop_zero]
  have hup : upOf n.bytes = d1.inum := by
    unfold upOf
    rw [h1]
    rfl
  have hn1 : namecmp Fs.dot d1.name = false := by
    rw [Bool.eq_false_iff]
    intro hc
    exact absurd (namecmp_trans hc hc1) (by decide)
  have hrest : ((entries n.bytes).drop 2).countP (fun de => decide (de.inum = j ∧ namecmp Fs.dot de.name = false)) =
      ((entries n.bytes).drop 2).countP (fun de => decide (de.inum = j)) := by
    apply List.countP_congr
    intro de hde
    obtain ⟨m, hm⟩ := List.mem_iff_getElem?.1 hde
    rw [List.getElem?_drop] at hm
    rw [decide_eq_true_eq, decide_eq_true_eq]
    exact ⟨fun hc => hc.1, fun hc => ⟨hc, (h.rest (2 + m) de (by omega) hm (hc ▸ hj)).1⟩⟩
  unfold Fs.entriesTo namesOf
  rw [if_pos hd, hsplit, List.countP_cons, List.countP_cons, hrest, List.drop_succ_cons, List.drop_succ_cons, List.drop_zero,
    Multiset.count_cons, count_entryInums hj, hup, hc0, hn1]
  simp only [Bool.true_eq_false, and_false, and_true, decide_false, decide_eq_true_eq, Bool.false_eq_true,
    if_false, Nat.add_zero, eq_comm (a := j)]

theorem Tidy.entryCount_eq (h : Tidy t) (hl : Live t) (hn : t i = some n) : n.nlink = entryCount t i := by
  rw [← h.nlink hn]
  unfold Forest.links Forest.total entryCount
  rw [Sum.count_sum_map]
  congr 1
  apply Sum.sum_map_congr
  intro d _
  have hpos := h.pos hn
  unfold dirs
  cases hd : t d with
  | none => rfl
  | some m =>
    rw [bind_some, elim_some]
    by_cases hty : m.type = .dir
    · have h0 := hl d m hd hty
      rw [dirOf_dir hty h0, elim_some, (h.shape d m hd hty h0).entriesTo hty (by omega)]
    · rw [dirOf_plain hty, elim_none, Multiset.count_zero]
      unfold entriesTo
      rw [if_neg hty]

/-! ## Runs -/

def InUse (s : FsState) (i : Nat) : Prop := ∃ ip ∈ holders s, (s.vol.inode ip).inum = i

/-- **The call removes no directory in use**, and counts no more links than a `short` can hold. -/
def Orderly (s : FsState) (a : Slot × Call) : Prop :=
  ∀ x, s.proc a.1 = some x →
    match a.2 with
    | .unlink path => ∀ str dp dn name i n off, argstr path = some str →
        HasName (tree s.vol) (s.vol.inode x.cwd).inum str dp dn name i n off → n.type = .dir → ¬ InUse s i
    | .link old _ => ∀ o i nm n, argstr old = some o →
        look (tree s.vol) (s.vol.inode x.cwd).inum o false = .ok (some (i, nm)) → tree s.vol i = some n → n.nlink ≠ 32767
    | .mkdir path => ∀ str dp dn name off, argstr path = some str →
        FreeName (tree s.vol) (s.vol.inode x.cwd).inum str dp dn name off → dn.nlink ≠ 32767
    | _ => True

def Removes (s : FsState) (x : Proc) (c : Call) (i : Nat) : Prop :=
  ∃ path str dp dn name n off, c = .unlink path ∧ argstr path = some str ∧
    HasName (tree s.vol) (s.vol.inode x.cwd).inum str dp dn name i n off ∧ n.type = .dir

/-- Every directory has a link, but for those that may have been removed. -/
def LiveBut (R : Nat → Prop) (t : Tree) : Prop := ∀ i n, t i = some n → n.type = .dir → n.nlink = 0 → R i

theorem LiveBut.update {R : Nat → Prop} (h : LiveBut R t) (hm : m.type = .dir → m.nlink = 0 → R i) :
    LiveBut R (update t i (some m)) := by
  intro j n hn hd h0
  rcases update_cases hn with hn | ⟨rfl, he⟩
  · exact h j n hn hd h0
  · cases he
    exact hm hd h0

theorem keeps_tidy (hx : s.proc a.1 = some x) (ho : Orderly s a) (hl : Live (tree s.vol)) :
    Keeps s x a.2 (fun t => Tidy t ∧ LiveBut (Removes s x a.2) t) where
  shrink := by
    rintro t t' hsh ⟨h, hb⟩
    refine ⟨h.shrink hsh, fun i n hn => ?_⟩
    rcases hsh i with e | ⟨e, -⟩
    · exact hb i n (e ▸ hn)
    · rw [e] at hn
      cases hn
  empty := by
    rintro t i n hn hty ⟨h, hb⟩
    have hd : n.type ≠ .dir := by
      rw [hty]
      decide
    exact ⟨h.store hn hd _, hb.update (fun hd' => absurd hd' hd)⟩
  write := by
    rintro fd src m b r n bytes - - - - hn hd ⟨h, hb⟩
    exact ⟨h.store hn hd _, hb.update (fun hd' => absurd hd' hd)⟩
  make := by
    rintro str i n dp dn name off hfree hpos hlt hnone hfresh ⟨h, hb⟩
    have ho := ho x hx
    have hdir : n.type = .dir → n.bytes = dots i dp ∧ dn.nlink ≠ 32767 := fun hty => by
      obtain ⟨hbytes, path, hc, hstr⟩ := hfresh.dir hty
      rw [hc] at ho
      exact ⟨hbytes, ho str dp dn name off hstr hfree⟩
    obtain ⟨htidy, h0⟩ := h.create hpos hlt hnone hfree.node hfree.dir (hl dp dn hfree.node hfree.dir) hfree.free hfree.hole
      hfresh.nlink hdir
    refine ⟨htidy, (hb.update fun _ hz => ?_).update fun _ hz => absurd hz h0⟩
    rw [hfresh.nlink] at hz
    cases hz
  link := by
    rintro old new o str i nm n dp dn name off hc hold hlook hn hd hfree ⟨h, hb⟩
    have ho := ho x hx
    rw [hc] at ho
    have h0 := hl dp dn hfree.node hfree.dir
    exact ⟨h.link hn hd (ho o i nm n hold hlook hn) hfree.node hfree.dir h0 hfree.free hfree.hole,
      (hb.update (m := relink n 1) fun hd' => absurd hd' hd).update (m := addEntry dn off i name) fun _ hz => absurd hz h0⟩
  unlink := by
    rintro path str dp dn name i n off hc hstr hname hrem ⟨h, hb⟩
    obtain ⟨htidy, h0⟩ := h.unlink hname.parent hname.dir (hl dp dn hname.parent hname.dir) hname.find hname.node hname.ne hrem
    exact ⟨htidy, (hb.update fun _ hz => absurd hz h0).update fun hd _ =>
      ⟨path, str, dp, dn, name, n, off, hc, hstr, hname, hd⟩⟩

theorem sysUnlink_frame (h : Inv s) (hx : s.proc p = some x) :
    wp (sysUnlink x path) (fun _ s' => holders s' = holders s ∧ ∀ ip ∈ holders s,
      (s'.vol.inode ip).inum = (s.vol.inode ip).inum) Mild s := by
  unfold sysUnlink
  cases argstr path with
  | none => exact ⟨rfl, fun _ _ => rfl⟩
  | some str =>
    simp only [wp_bind, wp_onVol, wp_pure]
    apply wp_op (R := holders s) (Res.idle h)
    apply wp_use (unlink_spec (began_mid h.mid) (began_base h.base) (mem_holders hx) (excused_mild _))
    rintro r v' ⟨⟨hmid, hbase, I, hI, hran⟩, -⟩
    refine ⟨holders s, 3, I, 2, hmid, hran, ?_, fun v'' _ _ hd _ _ => ⟨rfl, hd.inum⟩⟩
    unfold maxOpBlocks
    omega

/-- **What an orderly run keeps.** -/
structure Ordered (s : FsState) : Prop where
  inv : Inv s
  tidy : Tidy (tree s.vol)
  live : Live (tree s.vol)
  panic : s.panic ≠ some .ilockNoType

theorem Inv.panicked (h : Inv s) (e : Panic) : Inv { s with panic := some e } :=
  ⟨h.mid, h.base, h.idle, h.files, h.typed, h.opened, h.pipes⟩

theorem fsStep_ordered (h : Ordered s) (ho : Orderly s a) (hs : fsStep s a = some s') : Ordered s' := by
  have hexc : Excused (fun e => e ≠ .ilockNoType) (tree s.vol) := ⟨fun _ _ hne _ => hne,
    .inr (h.tidy.closed h.live), .inl (fun e he e0 => by subst e0; revert he; decide)⟩
  obtain ⟨hp, x, hx, ⟨r, hr⟩ | ⟨e, hr, rfl⟩⟩ := fsStep_cases hs
  · obtain ⟨hret, heff⟩ := wp_of_ok (program_spec a.2 h.inv hx hexc) hr
    have hstart : LiveBut (Removes s x a.2) (tree s.vol) := fun i n hn hd h0 => absurd h0 (h.live i n hn hd)
    obtain ⟨htidy, hbut⟩ := (keeps_tidy hx ho h.live).effect ⟨h.tidy, hstart⟩ (fun _ => tree_lt) heff
    refine ⟨hret.inv, htidy, fun i n hn hd h0 => ?_, by rw [hret.panic, hp]; exact fun e => by cases e⟩
    -- a directory that has been removed is referenced, and it was not
    obtain ⟨path, str, dp, dn, name, m, off, hc, hstr, hname, hm⟩ := hbut i n hn hd h0
    obtain ⟨ip, hip, hi, -⟩ := hret.inv.base.good i n hn h0
    have ho := ho x hx
    rw [hc] at ho hr
    obtain ⟨hhold, hin⟩ := wp_of_ok (sysUnlink_frame h.inv hx) hr
    have hip' : ip ∈ holders s := hhold ▸ hip
    exact ho str dp dn name i m off hstr hname hm ⟨ip, hip', (hin ip hip').symm.trans hi⟩
  · have hw := hr.excused (program_spec a.2 h.inv hx hexc) (fun _ e => by cases e)
    exact ⟨h.inv.panicked e, h.tidy, h.live, fun e => hw (some.inj e)⟩

theorem start_ordered (him : Consistent im) (ht : Tidy (tree (mount im))) : Ordered (start im) := by
  obtain ⟨v, hr, hv⟩ := ireclaim_booted him
  have htidy := ht.shrink hv.shrinks
  obtain ⟨m, hm, -, hm0⟩ := htidy.root
  have hroot : (v.dinode rootino).type ≠ .none := fun e => by
    unfold tree nodeOf at hm
    rw [if_pos (by decide), if_pos e] at hm
    cases hm
  rw [start_eq hr, if_neg hroot]
  refine ⟨?_, htidy, fun i n hn _ h0 => ?_, ?_⟩
  · cases v.blk.halted with
    | none => exact hv.inv hroot
    | some l => exact (hv.inv hroot).panicked _
  rotate_left
  · cases v.blk.halted <;> exact fun e => by cases e
  -- only the root is referenced
  obtain ⟨ip, hip, hi, -⟩ := hv.good i n hn h0
  have hinum := hv.did.inum ip hip
  rw [Multiset.mem_singleton.1 hip] at hi hinum
  have hz : i = rootino := by
    rw [← hi, hinum]
    rfl
  subst hz
  change tree v rootino = some n at hn
  rw [hm] at hn
  cases hn
  exact hm0 h0

theorem run_ordered (him : Consistent im) (ht : Tidy (tree (mount im))) (calls : List (Slot × Call))
    (ho : Run.allSteps fsStep Orderly (start im) calls) : Run.allStates fsStep Ordered (start im) calls :=
  Run.allStates_of_allSteps (fun _ _ _ h ho hs => fsStep_ordered h ho hs) calls (start im) (start_ordered him ht) ho

/-- **No entry names a free inode, and `ilock` never meets one**, in every run from a consistent and tidy image that removes no
directory in use. -/
theorem no_dangling_entry {im : Image} (him : Consistent im) (ht : Tidy (tree (mount im))) (calls : List (Slot × Call))
    (ho : Run.allSteps fsStep Orderly (start im) calls) :
    Run.allStates fsStep (fun s => Closed (tree s.vol) ∧ s.panic ≠ some .ilockNoType) (start im) calls :=
  Run.allStates_mono (fun _ h => ⟨h.tidy.closed h.live, h.panic⟩) calls (start im) (run_ordered him ht calls ho)

/-- No file is open, and every process is in the root. -/
structure Quiescent (s : FsState) : Prop where
  files : ∀ f, (s.ftable f).ref = 0
  cwd : ∀ p x, s.proc p = some x → (s.vol.inode x.cwd).inum = rootino

theorem Quiescent.held {ip : Ip} (h : Quiescent s) (hi : Inv s) (hip : ip ∈ holders s) : (s.vol.inode ip).inum = rootino := by
  rcases Multiset.mem_add.1 hip with hip | hip
  · obtain ⟨p, -, hp⟩ := Sum.mem_sum_map.1 hip
    cases hx : s.proc p with
    | none =>
      rw [hx] at hp
      exact absurd hp (Multiset.notMem_zero ip)
    | some x =>
      rw [hx] at hp
      rw [Multiset.mem_singleton.1 hp]
      exact h.cwd p x hx
  · obtain ⟨f, -, hf⟩ := Sum.mem_sum_map.1 hip
    have hty := (hi.typed f).2 (h.files f)
    unfold fileRef at hf
    rw [hty] at hf
    exact absurd hf (Multiset.notMem_zero ip)

/-- **No inode is leaked** in a run from a consistent and tidy image that removes no directory in use: whenever no file is open
and every process is in the root, each inode is reached from the root and its link count is the number of its entries. -/
theorem no_leaked_inode {im : Image} (him : Consistent im) (ht : Tidy (tree (mount im))) (calls : List (Slot × Call))
    (ho : Run.allSteps fsStep Orderly (start im) calls) :
    Run.allStates fsStep (fun s => Quiescent s → ∀ i n, tree s.vol i = some n →
      Reachable (tree s.vol) i ∧ n.nlink = entryCount (tree s.vol) i) (start im) calls := by
  refine Run.allStates_mono (fun s h hq i n hn => ?_) calls (start im) (run_ordered him ht calls ho)
  have h0 : n.nlink ≠ 0 := fun h0 => by
    obtain ⟨ip, hip, hi, -⟩ := h.inv.base.good i n hn h0
    obtain ⟨m, hm, -, hm0⟩ := h.tidy.root
    rw [hq.held h.inv hip] at hi
    rw [← hi, hm] at hn
    cases hn
    exact hm0 h0
  exact ⟨h.tidy.reachable hn h0, h.tidy.entryCount_eq h.live hn⟩

/-! ## An image, and runs from it -/

theorem rootImage_node : tree (mount rootImage) rootino = some ⟨.dir, 0, 0, 1, dots rootino rootino⟩ := by
  have hb : bytesOf rootImage.data (rootImage.dinode rootino) = dots rootino rootino := by decide +kernel
  unfold tree nodeOf
  rw [if_pos (by decide)]
  change (if (rootImage.dinode rootino).type = .none then none else some (Node.mk (rootImage.dinode rootino).type _ _ _
    (bytesOf rootImage.data (rootImage.dinode rootino)))) = _
  rw [hb]
  rfl

theorem rootImage_other (h : i ≠ rootino) : tree (mount rootImage) i = none := by
  have hd : (mount rootImage).dinode i = freshDinode .none := if_neg h
  unfold tree nodeOf
  rw [hd]
  split
  · rfl
  · rfl

theorem rootImage_tidy : Tidy (tree (mount rootImage)) := by
  obtain ⟨hshape, hup, hnames⟩ : Shape rootino (dots rootino rootino) ∧ upOf (dots rootino rootino) = rootino ∧
      namesOf (dots rootino rootino) = 0 := shape_dots (by decide) (by decide) (by decide)
  have hall : ∀ i n, tree (mount rootImage) i = some n → i = rootino ∧ n = ⟨.dir, 0, 0, 1, dots rootino rootino⟩ :=
    fun i n hn => by
    by_cases e : i = rootino
    · subst e
      rw [rootImage_node] at hn
      exact ⟨rfl, (some.inj hn).symm⟩
    · rw [rootImage_other e] at hn
      cases hn
  have hdirs : dirs (tree (mount rootImage)) = Forest.alone rootino := by
    funext i
    unfold Forest.alone
    by_cases e : i = rootino
    · subst e
      rw [update_self, dirs_node rootImage_node, dirOf_dir rfl (by decide), hup, hnames]
    · unfold dirs
      rw [update_of_ne e, rootImage_other e, bind_none]
  have hroot : rootino ∈ inums := mem_inums.2 (by decide)
  refine ⟨rootImage_other (by decide), fun i n hn => tree_lt (by rw [hn]; exact some_ne_none n), fun i n hn => ?_,
    fun i n hn _ _ => ?_, ?_, fun j hj => ?_⟩
  · obtain ⟨-, rfl⟩ := hall i n hn
    show (1 : Int) < 32768
    decide
  · obtain ⟨rfl, rfl⟩ := hall i n hn
    exact hshape
  · rw [hdirs]
    exact Forest.tree_alone nodup_inums hroot
  rw [hdirs]
  unfold Forest.links
  rw [Forest.total_alone nodup_inums hroot, Multiset.count_cons, Multiset.count_zero, Nat.zero_add]
  by_cases e : j = rootino
  · subst e
    rw [if_pos rfl, rootImage_node]
    rfl
  · rw [if_neg e, rootImage_other e]
    rfl

theorem orderly_mkdir {str nm : Bytes} (hx : s.proc p = some x) (hstr : argstr path = some str)
    (hlook : (look (tree s.vol) (s.vol.inode x.cwd).inum str true).toOption = some (some (dp, nm)))
    (hn : (tree s.vol dp).map Node.nlink ≠ some 32767) : Orderly s (p, .mkdir path) := by
  intro y hy str' dp' dn name off hstr' hfree hmax
  rw [hx] at hy
  cases hy
  rw [hstr] at hstr'
  cases hstr'
  have hl := hfree.look
  rw [ok_of_toOption hlook] at hl
  cases hl
  apply hn
  rw [hfree.node, map_some, hmax]

theorem orderly_unlink {str nm : Bytes} (hx : s.proc p = some x) (hstr : argstr path = some str)
    (hlook : (look (tree s.vol) (s.vol.inode x.cwd).inum str true).toOption = some (some (dp, nm)))
    (hfind : (tree s.vol dp).map (fun n => (dirFind n.bytes nm).toOption) = some (some (some (i, off))))
    (hu : ∀ ip ∈ holders s, (s.vol.inode ip).inum ≠ i) : Orderly s (p, .unlink path) := by
  intro y hy str' dp' dn name i' n off' hstr' hname _
  rw [hx] at hy
  cases hy
  rw [hstr] at hstr'
  cases hstr'
  have hl := hname.look
  rw [ok_of_toOption hlook] at hl
  cases hl
  rw [hname.parent, map_some] at hfind
  have hf := ok_of_toOption (some.inj hfind)
  rw [hname.find] at hf
  cases hf
  rintro ⟨ip, hip, hi⟩
  exact hu ip hip hi

def madeRemoved : List (Slot × Call) := [(initSlot, .mkdir (some [97])), (initSlot, .unlink (some [97]))]

theorem madeRemoved_orderly : Run.allSteps fsStep Orderly (start rootImage) madeRemoved := by
  obtain ⟨s0, x0, hs0, hx0, hl0, hn0⟩ := holds_of_eval rootImage [] initSlot (fun s x =>
    (look (tree s.vol) (s.vol.inode x.cwd).inum [97] true).toOption = some (some (1, [97])) ∧
    (tree s.vol 1).map Node.nlink ≠ some 32767) (by decide +kernel)
  obtain ⟨s1, x1, hs1, hx1, hl1, hf1, hu1⟩ := holds_of_eval rootImage (madeRemoved.take 1) initSlot (fun s x =>
    (look (tree s.vol) (s.vol.inode x.cwd).inum [97] true).toOption = some (some (1, [97])) ∧
    (tree s.vol 1).map (fun n => (dirFind n.bytes [97]).toOption) = some (some (some (2, 32))) ∧
    ∀ ip ∈ holders s, (s.vol.inode ip).inum ≠ 2) (by decide +kernel)
  cases hs0
  have hstep : fsStep (start rootImage) (initSlot, .mkdir (some [97])) = some s1 := by
    unfold madeRemoved at hs1
    rw [take_succ_cons, take_zero, Run.run_cons] at hs1
    obtain ⟨s, hs, hr⟩ := bind_eq_some_iff.1 hs1
    rw [hs]
    exact hr
  constructor
  · exact orderly_mkdir hx0 (by decide) hl0 hn0
  rw [hstep]
  constructor
  · exact orderly_unlink hx1 (by decide) hl1 hf1 hu1
  split
  · trivial
  · trivial

/-- Nothing dangles when a directory has been made and removed. -/
theorem no_dangling_entry_removed :
    Run.allStates fsStep (fun s => Closed (tree s.vol) ∧ s.panic ≠ some .ilockNoType) (start rootImage) madeRemoved :=
  no_dangling_entry rootImage_consistent rootImage_tidy madeRemoved madeRemoved_orderly

/-- Nothing is leaked either. -/
theorem no_leaked_inode_removed :
    Run.allStates fsStep (fun s => Quiescent s → ∀ i n, tree s.vol i = some n →
      Reachable (tree s.vol) i ∧ n.nlink = entryCount (tree s.vol) i) (start rootImage) madeRemoved :=
  no_leaked_inode rootImage_consistent rootImage_tidy madeRemoved madeRemoved_orderly

/-- `p/d` is removed while it is the working directory, then `p`; the last call looks at `..`. -/
def removedCwd : List (Slot × Call) :=
  [(initSlot, .mkdir (some [112])), (initSlot, .mkdir (some [112, 47, 100])), (initSlot, .chdir (some [112, 47, 100])),
    (initSlot, .unlink (some [47, 112, 47, 100])), (initSlot, .unlink (some [47, 112])), (initSlot, .open (some [46, 46]) 0)]

/-- **The `..` of the working directory names an inode that is free**, and `ilock` panics. -/
theorem removed_parent_panics :
    ((Run.run fsStep (start rootImage) (removedCwd.take 5)).bind fun s => (s.proc initSlot).map fun x =>
      ((tree s.vol (s.vol.inode x.cwd).inum).map (fun n => (n.type, upOf n.bytes)), (tree s.vol 2).isNone)) =
        some (some (.dir, 2), true) ∧
    (Run.run fsStep (start rootImage) removedCwd).map FsState.panic = some (some .ilockNoType) := by
  decide +kernel

/-- `p` is removed while it is the working directory; a file is made there, and closed. -/
def leakedFile : List (Slot × Call) :=
  [(initSlot, .mkdir (some [112])), (initSlot, .chdir (some [112])), (initSlot, .unlink (some [47, 112])),
    (initSlot, .open (some [102]) 0x202), (initSlot, .close 0), (initSlot, .chdir (some [47]))]

/-- **The file is left**: nothing is open, the process is in the root, and no path leads to it. -/
theorem leaked_file : ∃ s, Run.run fsStep (start rootImage) leakedFile = some s ∧ s.panic = none ∧ Quiescent s ∧
    (tree s.vol 3).map (fun n => (n.type, n.nlink)) = some (.file, 1) ∧ ¬ Reachable (tree s.vol) 3 := by
  obtain ⟨s, x, hs, hx, hp, hfiles, hcwd, hfile, hroot⟩ :=
    holds_of_eval rootImage leakedFile initSlot (fun s _ => s.panic = none ∧
    (∀ f, (s.ftable f).ref = 0) ∧ (∀ p, (s.proc p).all (fun x => decide ((s.vol.inode x.cwd).inum = rootino)) = true) ∧
    (tree s.vol 3).map (fun n => (n.type, n.nlink)) = some (.file, 1) ∧
    (tree s.vol rootino).all (fun n => (entries n.bytes).all (fun de => decide (de.inum ≤ 1))) = true) (by decide +kernel)
  refine ⟨s, hs, hp, ⟨hfiles, fun p x hx => ?_⟩, hfile, fun hr => ?_⟩
  · have := hcwd p
    rw [hx] at this
    exact of_decide_eq_true this
  -- the root names itself alone
  have honly : ∀ j, Reachable (tree s.vol) j → j = rootino := by
    intro j hj
    induction hj with
    | root => rfl
    | @entry i off n de _ hn _ hoff hde h0 ih =>
      subst ih
      rw [hn] at hroot
      have hall := all_eq_true.1 (show (entries n.bytes).all (fun de => decide (de.inum ≤ 1)) = true from hroot)
      have hk : (entries n.bytes)[off / 16]? = some de := by
        rw [getElem?_entries, show 16 * (off / 16) = off by omega, hde]
      have hle := of_decide_eq_true (hall de (mem_of_getElem? hk))
      unfold rootino
      omega
  exact absurd (honly 3 hr) (by decide)

end Xv6.Fs
