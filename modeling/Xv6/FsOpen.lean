import Xv6.FsCreate
/-!
# FsOpen — symbolic links, `open`, `chdir` and `exec`

`follow` is what `follow_symlink` does on the tree: it reads the target of a link and resolves it, up to the limit. It
holds one inode at a time, and none while it resolves.
-/
namespace Xv6.Fs

open List Wp
variable {v : Vol} {R : Multiset Ip} {L : List Ip} {F : Panic → Prop}

/-! ## `follow_symlink` -/

/-- The string `follow_symlink` reads of a link: `MAXPATH - 1` bytes at most, up to the NUL. -/
def targetOf (n : Node) : Bytes := (n.bytes.take (maxpath - 1)).takeWhile (fun c => c ≠ 0)

/-- The loop of `follow_symlink` on a tree, from the inode `i` and with `left` turns left. -/
def follow (room : Option Nat → Nat → Bool) (t : Tree) (cwd : Nat) (nofollow : Bool) : Nat → Nat → Except Panic (Option Nat)
  | 0, _ => .ok none
  | left + 1, i =>
    match t i with
    | none => .error .ilockNoType
    | some n =>
      if n.type ≠ .symlink ∨ nofollow = true then .ok (some i)
      else if n.bytes = [] then .ok none
      else
        match resolve room t cwd (targetOf n) false with
        | .error e => .error e
        | .ok none => .ok none
        | .ok (some (j, _)) => if t j = none then .error .ilockNoType else follow room t cwd nofollow left j

theorem readAns_target (bytes : Bytes) :
    readAns (maxpath - 1) bytes 0 (maxpath - 1) = (((bytes.take (maxpath - 1)).length : Int), bytes.take (maxpath - 1)) := by
  have hlen : (bytes.take (maxpath - 1)).length ≤ maxpath - 1 := by
    rw [length_take]
    exact min_le_left _ _
  unfold readAns readResult
  rw [if_neg (by unfold maxpath; omega), drop_zero, nil_append, if_pos hlen]

variable {cwd ip : Ip} {path : Bytes} {omode : Nat} {t : Tree}

theorem namei_exact (path : Bytes) (h : Mid v R []) (hg : Good v R) (hcwd : cwd ∈ R) :
    wp (namei cwd path) (fun r v' => Mid v' (withIp r R) [] ∧ Quiet v v' ∧ Stays R 1 v v' ∧
        ∃ nm, resolve (room v R) (tree v) (v.inode cwd).inum path false = .ok (r.map (fun ip => ((v'.inode ip).inum, nm))))
      (fun e => resolve (room v R) (tree v) (v.inode cwd).inum path false = .error e) v := by
  refine wp_then (namex_spec h hg hcwd) (fun r v' ⟨h', hq, hst, hw⟩ => ?_)
  cases r with
  | none => exact ⟨h', hq, hst, [], hw⟩
  | some r => exact ⟨h', hq, hst, r.2, hw⟩

theorem followSymlink_spec (nofollow : Bool) : ∀ (left : Nat) (v : Vol) (ip : Ip), Mid v (ip ::ₘ R) [ip] → Good v R →
    cwd ∈ R → wp (followSymlink cwd ip nofollow left) (fun r v' => Mid v' (withIp r R) r.toList ∧ Quiet v v' ∧ Stays R 1 v v' ∧
        follow (room v R) (tree v) (v.inode cwd).inum nofollow left (v.inode ip).inum =
          .ok (r.map (fun ip => (v'.inode ip).inum)))
      (fun e => follow (room v R) (tree v) (v.inode cwd).inum nofollow left (v.inode ip).inum = .error e) v
  | 0, v, ip, h, hg, hcwd => by
    refine wp_then (iunlockput_extra h hg) (fun _ v1 ⟨h1, hq1, hst1⟩ => ?_)
    exact ⟨h1, hq1, hst1, rfl⟩
  | left + 1, v, ip, h, hg, hcwd => by
    have hipR : ip ∈ ip ::ₘ R := Multiset.mem_cons_self _ _
    unfold followSymlink follow
    rw [h.node hipR (h.locked ip mem_cons_self).2, wp_bind, wp_din]
    dsimp only
    refine wp_ite (fun hc => ?_) (fun hc => ?_)
    · rw [if_pos (show (nodeAt v ip).type ≠ .symlink ∨ nofollow = true from hc)]
      exact ⟨h, Quiet.refl _, Stays.refl .., rfl⟩
    rw [if_neg (show ¬ ((nodeAt v ip).type ≠ .symlink ∨ nofollow = true) from hc)]
    refine wp_then (readi_spec h mem_cons_self (by decide)) (fun r v1 ⟨hv1, hr⟩ => ?_)
    rw [hr, readAns_target, hv1]
    refine wp_then (iunlockput_extra h hg) (fun _ v2 ⟨h2, hq2, hst2⟩ => ?_)
    by_cases hb : (nodeAt v ip).bytes = []
    · rw [if_pos hb, hb]
      exact ⟨h2, hq2, hst2, rfl⟩
    have hlen : ¬ ((((nodeAt v ip).bytes.take (maxpath - 1)).length : Int) ≤ 0) := by
      have := length_pos_of_ne_nil hb
      rw [length_take]
      unfold maxpath
      omega
    rw [if_neg hb, if_neg hlen, wp_bind]
    have hcwd2 : (v2.inode cwd).inum = (v.inode cwd).inum := hst2.inum cwd hcwd
    have hres := namei_exact (targetOf (nodeAt v ip)) h2 (hg.quiet hq2 hst2) hcwd
    rw [hst2.room, hq2.tree, hcwd2] at hres
    refine wp_mono hres (fun r v3 ⟨h3, hq3, hst3, nm, hw⟩ => ?_) (fun e he => by rw [he])
    rw [hw]
    cases r with
    | none => exact ⟨h3, hq2.trans hq3, hst2.trans hst3, rfl⟩
    | some next =>
      have hnR : next ∈ next ::ₘ R := Multiset.mem_cons_self _ _
      have hq23 := hq2.trans hq3
      have hst23 := hst2.trans hst3
      dsimp only [Option.map_some]
      rw [wp_bind]
      by_cases hj : tree v (v3.inode next).inum = none
      · rw [if_pos hj]
        refine wp_use (ilock_spec h3 hnR (.inl not_mem_nil) (.inl rfl)) (fun _ v4 ⟨_, h4, hq4, hst4⟩ => ?_)
        have hused := h4.used mem_cons_self
        rw [hq4.tree, hq23.tree, hst4.inum next hnR] at hused
        exact absurd hj hused
      · rw [if_neg hj]
        refine wp_use (ilock_spec h3 hnR (.inl not_mem_nil) (.inr (by rw [hq23.tree]; exact hj)))
          (fun _ v4 ⟨_, h4, hq4, hst4⟩ => ?_)
        have hq24 := hq23.trans hq4
        have hst24 : Stays R 1 v v4 := hst23.trans (hst4.mono (Multiset.le_cons_self _ _) le_rfl)
        have ih := followSymlink_spec nofollow left v4 next h4 (hg.quiet hq24 hst24) hcwd
        rw [hst24.room, hq24.tree, hst24.inum cwd hcwd, hst4.inum next hnR] at ih
        exact wp_use ih (fun r v5 ⟨h5, hq5, hst5, hw⟩ => ⟨h5, hq24.trans hq5, hst24.trans hst5, hw⟩)

theorem Excused.follow {room : Option Nat → Nat → Bool} {cwd : Nat} {nofollow : Bool} {e : Panic} (hF : Excused F t)
    (hc : t cwd ≠ none) : ∀ {left i : Nat}, t i ≠ none → follow room t cwd nofollow left i = .error e → F e
  | 0, i, _, h => by cases h
  | left + 1, i, hi, h => by
    unfold Fs.follow at h
    cases hn : t i with
    | none => exact absurd hn hi
    | some n =>
      rw [hn] at h
      dsimp only at h
      split at h
      · cases h
      split at h
      · cases h
      cases hr : Fs.resolve room t cwd (targetOf n) false with
      | error e' =>
        rw [hr] at h
        cases h
        exact hF.resolve hc hr
      | ok o =>
        rw [hr] at h
        cases o with
        | none => cases h
        | some o =>
          dsimp only at h
          split at h
          · rename_i hj
            cases h
            exact hF.noType.resolve_right (fun hcl => (hcl.resolve hc).2 _ _ hr hj)
          · rename_i hj
            exact hF.follow hc hj h

/-! ## `open` -/

theorem openPath_spec (h : Mid v R []) (hb : Base v R) (hcwd : cwd ∈ R)
    (hc : has omode oCreate = false) (hF : Excused F (tree v)) :
    wp (openInode cwd path omode) (fun r v' => Mid v' (withIp r R) r.toList ∧ Quiet v v' ∧ Stays R 1 v v') F v := by
  unfold openInode
  rw [if_neg (by rw [hc]; decide)]
  refine wp_then (namei_spec h hb.good hb.alloc hcwd hF) (fun r v1 ⟨hq1, hst1, hr⟩ => ?_)
  cases r with
  | none => exact ⟨hr.1, hq1, hst1⟩
  | some ip =>
    obtain ⟨h1, hal, -⟩ := hr
    have hipR : ip ∈ ip ::ₘ R := Multiset.mem_cons_self _ _
    refine wp_then (ilock_spec h1 hipR (.inl not_mem_nil) (by rw [hq1.tree]; exact hal)) (fun _ v2 ⟨_, h2, hq2, hst2⟩ => ?_)
    have hq12 := hq1.trans hq2
    have hst12 : Stays R 1 v v2 := hst1.trans (hst2.mono (Multiset.le_cons_self _ _) le_rfl)
    refine wp_mono (followSymlink_spec _ _ v2 ip h2 (hb.good.quiet hq12 hst12) hcwd)
      (fun r v3 ⟨h3, hq3, hst3, _⟩ => ⟨h3, hq12.trans hq3, hst12.trans hst3⟩) (fun e he => ?_)
    rw [hq12.tree, hst12.inum cwd hcwd] at he
    refine hF.follow (hb.alloc cwd hcwd) ?_ he
    rw [← hq12.tree]
    exact h2.used mem_cons_self

theorem Created.not_dir {t' : Tree} {cwd i : Nat} {major minor : Int} {n : Node}
    (h : Created t cwd path .file major minor (some i) t') (hn : t' i = some n) : n.type ≠ .dir := by
  generalize hr : some i = r at h
  cases h with
  | failed => cases hr
  | found hname _ htype =>
    cases hr
    rw [hname.node] at hn
    cases hn
    rcases htype with ht | ht
    · rw [ht]
      decide
    · rw [ht]
      decide
  | @made _ dp _ _ _ _ _ hnone hfree hsh =>
    cases hr
    have hne : i ≠ dp := fun e => by
      have hdn := hfree.node
      rw [← e, hnone] at hdn
      cases hdn
    rw [createTree_new hne Int.one_ne_zero hsh] at hn
    cases hn
    exact fun e => by cases e

theorem openInode_spec (h : Mid v R []) (hb : Base v R) (hcwd : cwd ∈ R)
    (hF : Excused F (tree v)) : wp (openInode cwd path omode) (fun r v' => Yields R 2 v r v' ∧ (tree v' = tree v ∧
      has omode oCreate = false ∨ has omode oCreate = true ∧
        Created (tree v) (v.inode cwd).inum path .file 0 0 (r.map (fun ip => (v'.inode ip).inum)) (tree v'))) F v := by
  cases hc : has omode oCreate with
  | true =>
    unfold openInode
    rw [if_pos hc]
    exact wp_use (create_spec h hb hcwd (by decide) hF) (fun r v' ⟨hy, hcr⟩ => ⟨hy, .inr ⟨rfl, hcr⟩⟩)
  | false =>
    exact wp_use (openPath_spec h hb hcwd hc hF) (fun r v' ⟨h', hq, hst⟩ =>
      ⟨Yields.quiet h' hb hq (hst.mono le_rfl (by decide)), .inl ⟨hq.tree, rfl⟩⟩)

theorem openTrunc_spec {type : IType} (h : Mid v R L) (ha : ip ∈ L) (hty : type = (nodeAt v ip).type) :
    wp (openTrunc ip type omode) (fun _ v' => Mid v' R L ∧ (∀ R' ≤ R, Base v R' → Base v' R') ∧
      Ran R 0 {(v.inode ip).inum} 0 v v' ∧ (tree v' = tree v ∨ (nodeAt v ip).type = .file ∧
        tree v' = Function.update (tree v) (v.inode ip).inum (some { nodeAt v ip with bytes := [] }))) F v := by
  refine wp_ite (fun hc => ?_) (fun hc => ?_)
  · refine wp_use (itrunc_spec h ha) (fun _ v' ⟨h', ht, hst, hlog, _⟩ =>
      ⟨h', fun R' hle hb => ?_, ⟨hst, hlog⟩, .inr ⟨hty ▸ hc.2, ht⟩⟩)
    obtain ⟨haR, hav⟩ := h.locked ip ha
    exact hb.update (hst.mono hle le_rfl) ht (.inl ⟨_, h.node haR hav, rfl⟩)
  · exact ⟨h, fun _ _ hb => hb, ((Quiet.refl v).ran (Stays.refl ..)).mono le_rfl le_rfl (Finset.empty_subset _)
      le_rfl, .inl rfl⟩

/-! ## `chdir` -/

theorem lookupDir_spec {path : Option Bytes} (h : Mid v R []) (hb : Base v R) (hcwd : cwd ∈ R)
    (hF : Excused F (tree v)) : wp (lookupDir cwd path) (fun r v' => Mid v' (withIp r R) [] ∧ Quiet v v' ∧ Stays R 1 v v' ∧
      ∀ ip ∈ r, ∃ n, tree v (v'.inode ip).inum = some n ∧ n.type = .dir) F v := by
  unfold lookupDir
  cases argstr path with
  | none => exact ⟨h, Quiet.refl _, Stays.refl .., fun _ he => (by cases he)⟩
  | some str =>
    refine wp_then (namei_spec h hb.good hb.alloc hcwd hF) (fun r v1 ⟨hq1, hst1, hr⟩ => ?_)
    cases r with
    | none => exact ⟨hr.1, hq1, hst1, fun _ he => (by cases he)⟩
    | some ip =>
      obtain ⟨h1, hal, -⟩ := hr
      have hipR : ip ∈ ip ::ₘ R := Multiset.mem_cons_self _ _
      have hle : R ≤ ip ::ₘ R := Multiset.le_cons_self _ _
      refine wp_then (ilock_node h1 hipR (.inl not_mem_nil) (by rw [hq1.tree]; exact hal))
        (fun _ v2 ⟨_, h2, hq2, hst2, hnode⟩ => ?_)
      rw [hq1.tree] at hnode
      have hq12 := hq1.trans hq2
      have hst12 : Stays R 1 v v2 := hst1.trans (hst2.mono hle le_rfl)
      refine wp_ite (fun hty => ?_) (fun hty => ?_)
      · refine wp_then (iunlockput_extra h2 (hb.good.quiet hq12 hst12)) (fun _ v3 ⟨h3, hq3, hst3⟩ => ?_)
        exact ⟨h3, hq12.trans hq3, hst12.trans hst3, fun _ he => (by cases he)⟩
      refine wp_then (iunlock_spec h2) (fun _ v3 ⟨h3, hq3, hst3⟩ => ?_)
      refine ⟨h3, hq12.trans hq3, hst12.trans (hst3.mono hle (by decide)), fun a ha => ?_⟩
      cases ha
      rw [hst3.inum ip hipR, hst2.inum ip hipR]
      exact ⟨_, hnode, not_not.1 hty⟩

/-! ## `exec` -/

theorem loadseg_spec {offset sz : Nat} (h : Mid v R L) (ha : ip ∈ L) : ∀ offs : List Nat,
    wp (loadseg ip offset sz offs) (fun _ v' => v' = v) F v
  | [] => rfl
  | i :: rest => by
    refine wp_then (readi_spec h ha (by omega)) (fun r v' ⟨hv, _⟩ => ?_)
    rw [hv]
    refine wp_ite (fun _ => rfl) (fun _ => ?_)
    exact loadseg_spec h ha rest

theorem loadSegs_spec (h : Mid v R L) (ha : ip ∈ L) : ∀ (n off : Nat) (mem : List Bool),
    wp (loadSegs ip n off mem) (fun _ v' => v' = v) F v
  | 0, off, mem => rfl
  | n + 1, off, mem => by
    refine wp_then (readi_spec h ha (by decide)) (fun r v' ⟨hv, _⟩ => ?_)
    rw [hv]
    refine wp_ite (fun _ => rfl) (fun _ => ?_)
    refine wp_ite (fun _ => loadSegs_spec h ha n _ mem) (fun _ => ?_)
    refine wp_ite (fun _ => rfl) (fun _ => ?_)
    match mem with
    | true :: mem =>
      refine wp_then (loadseg_spec h ha _) (fun r v' hv => ?_)
      rw [hv]
      exact wp_ite (fun _ => loadSegs_spec h ha n _ mem) (fun _ => rfl)
    | false :: _ => exact rfl
    | [] => exact rfl

theorem loadFile_spec {pt : Bool} {mem : List Bool} (h : Mid v R []) (hb : Base v R) (hcwd : cwd ∈ R)
    (hF : Excused F (tree v)) :
    wp (loadFile cwd path pt mem) (fun _ v' => Mid v' R [] ∧ Quiet v v' ∧ Stays R 1 v v') F v := by
  refine wp_then (namei_spec h hb.good hb.alloc hcwd hF) (fun r v1 ⟨hq1, hst1, hr⟩ => ?_)
  cases r with
  | none => exact ⟨hr.1, hq1, hst1⟩
  | some ip =>
    obtain ⟨h1, hal, -⟩ := hr
    have hipR : ip ∈ ip ::ₘ R := Multiset.mem_cons_self _ _
    refine wp_then (ilock_spec h1 hipR (.inl not_mem_nil) (by rw [hq1.tree]; exact hal)) (fun _ v2 ⟨_, h2, hq2, hst2⟩ => ?_)
    have hq12 := hq1.trans hq2
    have hst12 : Stays R 1 v v2 := hst1.trans (hst2.mono (Multiset.le_cons_self _ _) le_rfl)
    refine wp_then (readi_spec h2 mem_cons_self (by decide)) (fun r v3 ⟨hv3, _⟩ => ?_)
    rw [hv3]
    -- however the loading ends, the inode is given up
    have hput : ∀ ok : Bool, wp (do iunlockput ip; return ok)
        (fun _ v' => Mid v' R [] ∧ Quiet v v' ∧ Stays R 1 v v') F v2 := by
      intro ok
      refine wp_then (iunlockput_extra h2 (hb.good.quiet hq12 hst12)) (fun _ v4 ⟨h4, hq4, hst4⟩ => ?_)
      exact ⟨h4, hq12.trans hq4, hst12.trans hst4⟩
    refine wp_ite (fun _ => hput false) (fun _ => ?_)
    refine wp_then (loadSegs_spec h2 mem_cons_self ..) (fun ok v4 hv4 => ?_)
    rw [hv4]
    exact hput ok

end Xv6.Fs
