import Xv6.FsOrder
import Xv6.FsPath
/-!
# FsDirMap — directories are finite maps on truncated names

No two entries of a directory have one name (`DirMap`), so that a lookup is membership (`nameMap_iff`). `dirlink` adds one name
to the map, `unlink` takes one away, and every call keeps the directories maps; a directory is never torn.
-/
namespace Xv6.Fs

open Function List Option Wp
variable {bytes src name : Bytes} {i j k off : Nat} {t t' : Tree} {n m : Node}

/-- **A directory that is a finite map**: whole entries, no two of them with one name. -/
structure DirMap (bytes : Bytes) : Prop where
  whole : bytes.length % 16 = 0
  differ : ∀ (k m : Nat) (d e : Dirent), (entries bytes)[k]? = some d → (entries bytes)[m]? = some e →
    d.inum ≠ 0 → e.inum ≠ 0 → namecmp d.name e.name = true → k = m

def nameMap (bytes name : Bytes) : Option Nat := match dirFind bytes name with
  | .ok (some (j, _)) => some j
  | _ => none

section
variable (h : DirMap bytes)
include h

theorem nameMap_iff : nameMap bytes name = some i ↔
    ∃ (k : Nat) (de : Dirent), (entries bytes)[k]? = some de ∧ de.inum = i ∧ de.inum ≠ 0 ∧ namecmp name de.name = true := by
  unfold nameMap
  cases hf : dirFind bytes name with
  | error e => exact absurd hf (scan_whole (fun off => offsets_whole h.whole))
  | ok o =>
    cases o with
    | none =>
      refine ⟨fun e => (by cases e), ?_⟩
      rintro ⟨k, de, hk, -, h0, hc⟩
      rw [dirFind_none hf hk h0] at hc
      cases hc
    | some r =>
      obtain ⟨k, de, -, -, hk, hj, h0, hc⟩ := dirFind_some hf
      constructor
      · rintro e
        cases e
        exact ⟨k, de, hk, hj, h0, hc⟩
      · rintro ⟨m, d, hm, rfl, hd0, hdc⟩
        obtain rfl := h.differ k m de d hk hm h0 hd0 (namecmp_trans (namecmp_symm hc) (namecmp_symm hdc))
        rw [hk] at hm
        cases hm
        exact congrArg some hj.symm

/-! ## One entry written -/

theorem DirMap.patch (hle : 16 * k ≤ bytes.length) (hs : src.length = 16)
    (hnew : (parseDirent src).inum ≠ 0 → ∀ (m : Nat) (d : Dirent), (entries bytes)[m]? = some d → d.inum ≠ 0 →
      namecmp (parseDirent src).name d.name = false) : DirMap (patch bytes (16 * k) src) := by
  have hw := h.whole
  refine ⟨by rw [length_patch hle, hs]; omega, fun a b d e ha hb hd he hc => ?_⟩
  rw [getElem?_patch h.whole hle hs] at ha hb
  split at ha
  · cases ha
    split at hb
    · omega
    · rw [hnew hd b e hb he] at hc
      cases hc
  · split at hb
    · cases hb
      have := hnew he a d ha hd
      rw [namecmp_symm hc] at this
      cases this
    · exact h.differ a b d e ha hb hd he hc

theorem nameMap_patch (h' : DirMap (patch bytes (16 * k) src)) (hle : 16 * k ≤ bytes.length)
    (hs : src.length = 16) : nameMap (patch bytes (16 * k) src) name = some i ↔
      (parseDirent src).inum = i ∧ i ≠ 0 ∧ namecmp name (parseDirent src).name = true ∨
      ∃ (m : Nat) (de : Dirent), m ≠ k ∧ (entries bytes)[m]? = some de ∧ de.inum = i ∧ de.inum ≠ 0 ∧
      namecmp name de.name = true := by
  rw [nameMap_iff h']
  constructor
  · rintro ⟨m, de, hm, hi, h0, hc⟩
    rw [getElem?_patch h.whole hle hs] at hm
    split at hm
    · cases hm
      exact .inl ⟨hi, hi ▸ h0, hc⟩
    · exact .inr ⟨m, de, ‹_›, hm, hi, h0, hc⟩
  · rintro (⟨rfl, h0, hc⟩ | ⟨m, de, hne, hm, hi, h0, hc⟩)
    · exact ⟨k, _, by rw [getElem?_patch h.whole hle hs, if_pos rfl], rfl, h0, hc⟩
    · exact ⟨m, de, by rw [getElem?_patch h.whole hle hs, if_neg hne, hm], hi, h0, hc⟩

theorem DirMap.add (hfind : dirFind bytes name = .ok none) (hhole : dirHole bytes = .ok off) (j : Nat) :
    DirMap (Fs.patch bytes off (direntBytes ⟨j, name⟩)) := by
  obtain ⟨k, rfl, hle, -⟩ := dirHole_entry h.whole hhole
  refine h.patch hle (length_direntBytes _) (fun _ m d hm hd => ?_)
  have := dirFind_none hfind hm hd
  unfold namecmp at this ⊢
  rwa [cname_stored]

theorem nameMap_add (hj : 0 < j) (hj' : j < 65536) (hfind : dirFind bytes name = .ok none)
    (hhole : dirHole bytes = .ok off) (name' : Bytes) : nameMap (patch bytes off (direntBytes ⟨j, name⟩)) name' =
      if namecmp name' name = true then some j else nameMap bytes name' := by
  have h' := h.add hfind hhole j
  obtain ⟨k, rfl, hle, hempty⟩ := dirHole_entry h.whole hhole
  apply ext
  intro i
  rw [nameMap_patch h h' hle (length_direntBytes _), parse_inum hj', namecmp_stored]
  split
  · rename_i hc
    rw [some_inj]
    refine ⟨?_, fun e => .inl ⟨e, by omega, hc⟩⟩
    rintro (⟨e, -⟩ | ⟨m, de, -, hm, -, h0, hcm⟩)
    · exact e
    · have := dirFind_none hfind hm h0
      rw [namecmp_trans (namecmp_symm hc) (namecmp_symm hcm)] at this
      cases this
  · rename_i hc
    rw [nameMap_iff h]
    constructor
    · rintro (⟨-, -, e⟩ | ⟨m, de, -, hm⟩)
      · exact absurd e hc
      · exact ⟨m, de, hm⟩
    · rintro ⟨m, de, hm, hi, h0, hcm⟩
      exact .inr ⟨m, de, fun e => h0 (hempty de (e ▸ hm)), hm, hi, h0, hcm⟩

section
variable (hfind : dirFind bytes name = .ok (some (j, off)))
include hfind

theorem DirMap.clear : DirMap (Fs.patch bytes off (List.replicate 16 0)) := by
  obtain ⟨k, de, rfl, hle, -⟩ := dirFind_some hfind
  exact h.patch hle length_replicate (fun h0 => absurd rfl h0)

theorem nameMap_clear (name' : Bytes) : nameMap (patch bytes off (List.replicate 16 0)) name' =
      if namecmp name' name = true then none else nameMap bytes name' := by
  have h' := h.clear hfind
  obtain ⟨k, d, rfl, hle, hk, -, hd0, hcd⟩ := dirFind_some hfind
  apply ext
  intro i
  rw [nameMap_patch h h' hle length_replicate]
  have hzero : ¬ ((parseDirent (replicate 16 0)).inum = i ∧ i ≠ 0 ∧
      namecmp name' (parseDirent (replicate 16 0)).name = true) := fun hz => hz.2.1 hz.1.symm
  rw [or_iff_right hzero]
  split
  · rename_i hc
    refine ⟨?_, fun e => by cases e⟩
    rintro ⟨m, de, hne, hm, -, h0, hcm⟩
    refine absurd (h.differ m k de d hm hk h0 hd0 ?_) hne
    exact namecmp_trans (namecmp_symm hcm) (namecmp_trans (namecmp_symm hcd) (namecmp_symm (namecmp_symm hc)))
  · rename_i hc
    rw [nameMap_iff h]
    constructor
    · rintro ⟨m, de, -, hm⟩
      exact ⟨m, de, hm⟩
    rintro ⟨m, de, hm, hi, h0, hcm⟩
    refine ⟨m, de, fun e => hc ?_, hm, hi, h0, hcm⟩
    rw [e, hk] at hm
    cases hm
    exact namecmp_trans hcm hcd

end

end

theorem dirMap_dots (i dp : Nat) : DirMap (dots i dp) := by
  have hdiff : namecmp (parseDirent (direntBytes ⟨i, dot⟩)).name (parseDirent (direntBytes ⟨dp, dotdot⟩)).name = false := by
    unfold namecmp
    rw [cname_stored, cname_stored]
    decide
  refine ⟨?_, fun k m d e hk hm _ _ hc => ?_⟩
  · unfold dots
    rw [length_append, length_direntBytes, length_direntBytes]
  rw [entries_dots] at hk hm
  match k, m with
  | 0, 0 => rfl
  | 1, 1 => rfl
  | 0, 1 =>
    cases hk
    cases hm
    cases hc
  | 1, 0 =>
    cases hk
    cases hm
    rw [namecmp_symm hc] at hdiff
    cases hdiff
  | k + 2, _ => cases hk
  | _, m + 2 => cases hm

/-! ## Trees -/

def DirMaps (t : Tree) : Prop := ∀ i n, t i = some n → n.type = .dir → DirMap n.bytes

theorem DirMaps.update (h : DirMaps t) (hm : m.type = .dir → DirMap m.bytes) : DirMaps (update t i (some m)) := by
  intro a n hn
  by_cases e : a = i
  · rw [e, update_self] at hn
    cases hn
    exact hm
  · rw [update_of_ne e] at hn
    exact h a n hn

theorem DirMaps.shrink (h : DirMaps t) (hsh : Shrinks t t') : DirMaps t' := by
  intro i n hn
  rcases hsh i with e | ⟨e, -⟩
  · exact h i n (e ▸ hn)
  · rw [e] at hn
    cases hn

theorem relinkParent_fields (type : IType) (n : Node) (x : Int) :
    (relinkParent type n x).bytes = n.bytes ∧ (relinkParent type n x).type = n.type := by
  unfold relinkParent
  split <;> exact ⟨rfl, rfl⟩

theorem keeps_dirMaps (s : FsState) (x : Proc) (c : Call) : Keeps s x c DirMaps where
  shrink := fun _ _ hsh h => h.shrink hsh
  empty := fun t i n hn hty h => h.update (fun hd => absurd (hty.symm.trans hd) (by decide))
  write := fun _ _ _ _ _ n _ _ _ _ _ hn hd h => h.update (fun hd' => absurd hd' hd)
  make := fun str i n dp dn name off hfree _ _ _ hfresh h => by
    refine (h.update fun hd => ?_).update (fun _ => ?_)
    · rw [(hfresh.dir hd).1]
      exact dirMap_dots i dp
    · rw [(relinkParent_fields ..).1]
      exact (h dp dn hfree.node hfree.dir).add hfree.free hfree.hole i
  link := fun _ _ _ _ i _ n dp dn name off _ _ _ hn hd hfree h =>
    (h.update (m := relink n 1) fun hd' => absurd hd' hd).update
      fun _ => (h dp dn hfree.node hfree.dir).add hfree.free hfree.hole i
  unlink := fun _ _ dp dn name i n off _ _ hname _ h => by
    refine (h.update fun _ => ?_).update (h i n hname.node)
    rw [(relinkParent_fields ..).1]
    exact (h dp dn hname.parent hname.dir).clear hname.find

theorem DirMaps.excused (h : DirMaps t) : Excused (fun e => ¬ Torn e) t :=
  ⟨fun _ _ _ he => he, .inl (by decide), .inr (fun i n hn hd => (h i n hn hd).whole)⟩

/-- **What every call keeps**: the directories are maps, and no panic is that of a torn one. -/
structure Untorn (s : FsState) : Prop where
  sane : Sane s
  maps : DirMaps (tree s.vol)
  panic : ∀ e, s.panic = some e → ¬ Torn e

theorem not_torn_log (l : LogPanic) : ¬ Torn (.logWrite l) := by simp

theorem fsStep_untorn {s s' : FsState} {a : Slot × Call} (h : Untorn s) (hs : fsStep s a = some s') : Untorn s' := by
  have hsane := fsStep_sane h.sane hs
  obtain ⟨hp, x, hx, ⟨r, hr⟩ | ⟨e, hr, rfl⟩⟩ := fsStep_cases hs
  · obtain ⟨hret, heff⟩ := wp_of_ok (program_spec a.2 (h.sane.inv hp) hx h.maps.excused) hr
    refine ⟨hsane, (keeps_dirMaps s x a.2).effect h.maps (fun _ => tree_lt) heff, fun e he => ?_⟩
    rw [hret.panic, hp] at he
    cases he
  · refine ⟨hsane, h.maps, fun e' he => ?_⟩
    cases he
    exact hr.excused (program_spec a.2 (h.sane.inv hp) hx h.maps.excused) not_torn_log

theorem start_untorn {im : Image} (him : Consistent im) (hm : DirMaps (tree (mount im))) : Untorn (start im) := by
  obtain ⟨v, hr, hv⟩ := ireclaim_booted him
  refine ⟨start_sane him, ?_, fun e he => ?_⟩
  · rw [start_eq hr]
    exact hm.shrink hv.shrinks
  rw [start_eq hr] at he
  cases hh : v.blk.halted with
  | some l =>
    rw [hh] at he
    cases he
    exact not_torn_log l
  | none =>
    rw [hh] at he
    dsimp only [firstProc, Option.map_none] at he
    split at he
    · cases he
      decide
    · cases he

/-! ## Names -/

theorem child_dir (hn : t i = some n) (hd : n.type = .dir) : child t i name = nameMap n.bytes name := by
  unfold child
  rw [dirAt_dir hn hd]
  rfl

theorem child_congr (hi : (t' i).map (fun n => (n.type, n.bytes)) = (t i).map (fun n => (n.type, n.bytes))) :
    child t' i name = child t i name := by
  cases hn' : t' i with
  | none =>
    rw [hn', map_none, eq_comm, map_eq_none_iff] at hi
    unfold child dirAt
    rw [hn', hi]
  | some n' =>
    obtain ⟨n, hn, hty, hby⟩ := shape_back hi hn'
    by_cases hd : n.type = .dir
    · rw [child_dir hn hd, child_dir hn' (hty.symm.trans hd), hby]
    · unfold child
      rw [dirAt_file hn hd, dirAt_file hn' (fun e => hd (hty.trans e))]

/-- `t'` is `t` with `o` for the name `name` of `dp`, in the directories it still has. -/
def NameSet (t t' : Tree) (dp : Nat) (name : Bytes) (o : Option Nat) : Prop :=
  ∀ d name', t' d ≠ none → child t' d name' = if d = dp ∧ cname name' = cname name then o else child t d name'

theorem child_set {o : Option Nat} (hn : t i = some n) (hd : n.type = .dir) (hm : m.type = .dir)
    (h : ∀ name', nameMap m.bytes name' = if namecmp name' name = true then o else nameMap n.bytes name') (d : Nat)
    (name' : Bytes) :
    child (update t i (some m)) d name' = if d = i ∧ cname name' = cname name then o else child t d name' := by
  by_cases e : d = i
  · subst e
    rw [child_dir (update_self ..) hm, child_dir hn hd, h]
    simp [namecmp]
  · rw [child_congr (by rw [update_of_ne e]), if_neg (fun hc => e hc.1)]

/-- **Directories are finite maps on truncated names.**  In every run their entries are whole, no two with one name, and no
scan of one panics. `dirlookup` reads the map; `dirlink` succeeds only for a name that is not there and adds it;
`unlink` takes one name away. -/
theorem directories_are_maps {im : Image} (him : Consistent im) (hm : DirMaps (tree (mount im))) (calls : List (Slot × Call)) :
    Run.allStates fsStep (fun s => DirMaps (tree s.vol) ∧ s.panic ≠ some .dirlookupRead ∧ s.panic ≠ some .dirlinkRead ∧
      s.panic ≠ some .isdiremptyReadi) (start im) calls ∧
    (∀ v R L a name, Mid v R L → Good v R → a ∈ L → (nodeAt v a).type = .dir → DirMap (nodeAt v a).bytes →
      (∀ r v', (dirlookup a name).run v = .ok (r, v') →
        r.map (fun r => (v'.inode r.1).inum) = child (tree v) (v.inode a).inum name) ∧
      ∀ inum v', 0 < inum → inum < 65536 → (dirlink a name inum).run v = .ok (0, v') →
        child (tree v) (v.inode a).inum name = none ∧ DirMap (nodeAt v' a).bytes ∧
        NameSet (tree v) (tree v') (v.inode a).inum name (some inum)) ∧
    ∀ s p x path s', Run.run fsStep (start im) calls = some s → s.panic = none → s.proc p = some x →
      (sysUnlink x path).run s = .ok (0, s') → ∃ str dp name i, argstr path = some str ∧
        lookupParent (tree s.vol) (s.vol.inode x.cwd).inum str = some (dp, name) ∧ child (tree s.vol) dp name = some i ∧
        NameSet (tree s.vol) (tree s'.vol) dp name none := by
  have hrun : Run.allStates fsStep Untorn (start im) calls :=
    Run.allStates_of_allSteps (fun _ _ _ h _ => fsStep_untorn h) calls (start im) (start_untorn him hm)
      (Run.allSteps_true calls (start im))
  refine ⟨Run.allStates_mono (fun s h => ?_) calls (start im) hrun, ?_, ?_⟩
  · exact ⟨h.maps, fun e => h.panic _ e (by decide), fun e => h.panic _ e (by decide), fun e => h.panic _ e (by decide)⟩
  · intro v R L a name h hg ha hd hmap
    obtain ⟨haR, hav⟩ := h.locked a ha
    have hnode := h.node haR hav
    constructor
    · intro r v' hr
      obtain ⟨-, -, hr⟩ := wp_of_ok (dirlookup_spec h ha hd) hr
      rw [child_dir hnode hd]
      unfold nameMap
      cases r with
      | none =>
        rw [hr.2]
        rfl
      | some r =>
        rw [hr.2]
        rfl
    · intro inum v' h0 hlt hr
      obtain ⟨h', hst, -, hcase⟩ := wp_of_ok (dirlink_spec h hg ha hd trivial (fun _ _ => trivial)) hr
      obtain ⟨hneg, -⟩ | ⟨-, hfind, off, hhole, -, ht⟩ := hcase
      · cases hneg
      have hnode' := h'.node haR (h'.locked a ha).2
      rw [ht, hst.inum a haR, update_self] at hnode'
      refine ⟨?_, ?_, fun d name' _ => ?_⟩
      · rw [child_dir hnode hd]
        unfold nameMap
        rw [hfind]
      · rw [← some.inj hnode']
        exact hmap.add hfind hhole inum
      · rw [ht]
        exact child_set (m := addEntry (nodeAt v a) off inum name) hnode hd hd (nameMap_add hmap h0 hlt hfind hhole) d name'
  · intro s p x path s' hs hp hx hr
    have hu := Run.allStates_last calls (start im) s hrun hs
    obtain ⟨-, heff⟩ := wp_of_ok (sysUnlink_spec (hu.sane.inv hp) hx hu.maps.excused) hr
    obtain ⟨hneg, -⟩ | ⟨str, hstr, ⟨hneg, -⟩ | ⟨-, dp, dn, name, i, n, off, hname, -, hsh⟩⟩ := heff
    · cases hneg
    · cases hneg
    have hmap := hu.maps dp dn hname.parent hname.dir
    refine ⟨str, dp, name, i, hstr, (walk_foldParent (resolve_walk hname.look)).symm, ?_, fun d name' hd' => ?_⟩
    · rw [child_dir hname.parent hname.dir]
      unfold nameMap
      rw [hname.find]
    have he : tree s'.vol d = unlinkTree (tree s.vol) dp dn i n off d := by
      rcases hsh d with e | ⟨e, -⟩
      · exact e
      · exact absurd e hd'
    obtain ⟨hby, hty⟩ := relinkParent_fields n.type (clearEntry dn off) (-1)
    have hn : update (tree s.vol) dp (some (relinkParent n.type (clearEntry dn off) (-1))) i = some n := by
      rw [update_of_ne hname.ne, hname.node]
    have hkeep := same_shape (m := relink n (-1)) hn rfl rfl d
    rw [child_congr (by rw [he]), unlinkTree, child_congr hkeep]
    exact child_set hname.parent hname.dir (hty.trans hname.dir) (by rw [hby]; exact nameMap_clear hmap hname.find) d name'

theorem directories_are_maps_root : Run.allStates fsStep (fun s => DirMaps (tree s.vol) ∧ s.panic ≠ some .dirlookupRead ∧
    s.panic ≠ some .dirlinkRead ∧ s.panic ≠ some .isdiremptyReadi) (start rootImage)
    [(initSlot, .open (some [102]) 0x202), (initSlot, .unlink (some [102]))] :=
  (directories_are_maps rootImage_consistent (fun i n hn _ => by
    by_cases e : i = rootino
    · rw [e, rootImage_node] at hn
      cases hn
      exact dirMap_dots rootino rootino
    · rw [rootImage_other e] at hn
      cases hn) _).1

end Xv6.Fs
