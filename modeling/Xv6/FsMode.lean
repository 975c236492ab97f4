import Xv6.FsFollow
/-!
# FsMode — the flags of `open`

What an `open` finds and whether there are entries for it decides what it comes to, so that two modes can be compared by these
(`same_open`, `same_open_refused`). `O_NOFOLLOW` changes nothing but for a directory with `O_RDONLY` (`open_nofollow`), and
`O_CREATE` nothing where the path itself names the file (`open_create`).
-/
namespace Xv6.Fs

open Multiset (mem_cons_self le_cons_self cons_swap)
open Wp
variable {v : Vol} {R : Multiset Ip} {s s' : FsState} {p : Slot} {x : Proc} {r : Int} {g g' : Except Panic (Option Nat)}
  {omode omode' left i j k off : Nat} {cwd ip a : Ip} {path nm : Bytes} {nofollow : Bool} {n : Node}

theorem has_or {flag bit : Nat} (h : bit &&& flag = 0) : has (omode ||| bit) flag = has omode flag := by
  unfold has
  rw [Nat.and_or_distrib_right, h, Nat.or_zero]

theorem has_or_self {bit : Nat} (h : bit ≠ 0) : has (omode ||| bit) bit = true := by
  unfold has
  rw [Nat.and_or_distrib_right, Nat.and_self, decide_eq_true_eq]
  exact fun e => h (Nat.or_eq_zero_iff.1 e).2

/-! ## Two modes -/

/-- **The modes differ only in how the inode is found.** -/
structure SameUse (omode omode' : Nat) : Prop where
  wronly : has omode' oWronly = has omode oWronly
  rdwr : has omode' oRdwr = has omode oRdwr
  trunc : has omode' oTrunc = has omode oTrunc

/-- **Two calls of `open` come to the same**: the same panic, or the same result, and where they succeed the same descriptor
of the same inode. -/
def SameOpen : Except Panic (Int × FsState) → Except Panic (Int × FsState) → Prop
  | .ok (r, s), .ok (r', s') => r' = r ∧ (0 ≤ r → Alike s s')
  | .error e, .error e' => e' = e
  | _, _ => False

theorem SameOpen.refl (o : Except Panic (Int × FsState)) : SameOpen o o := by
  cases o with
  | error e => rfl
  | ok a => exact ⟨rfl, fun _ => ⟨rfl, rfl, ⟨rfl, rfl, rfl⟩, fun _ => rfl, fun _ _ => rfl, fun _ _ _ => rfl⟩⟩

theorem OpensInode.mode (h : OpensInode s p x omode' i r s') (hu : SameUse omode omode')
    (he : entriesFor s x (s.vol.dinode i) omode' = entriesFor s x (s.vol.dinode i) omode) : OpensInode s p x omode i r s' := by
  have hfile : ∀ ip d y, openedFile ip d omode' y = openedFile ip d omode y := by
    intro ip d y
    unfold openedFile
    rw [hu.wronly, hu.rdwr]
  obtain ⟨hout, hpipes, hinums, hpeak⟩ := h
  simp only [he, hfile, hu.trunc] at hout
  exact ⟨hout, hpipes, hinums, hpeak⟩

section
variable {path : Option Bytes} {str : Bytes} (hi : Inv s) (hx : s.proc p = some x) (hstr : argstr path = some str)
  (hf : Finds (holders s) g (openInode x.cwd str omode) (began s.vol))
include hi hstr hf

include hx in
theorem same_open (hf' : Finds (holders s) g (openInode x.cwd str omode') (began s.vol)) (hu : SameUse omode omode')
    (he : ∀ i, g = .ok (some i) → entriesFor s x (s.vol.dinode i) omode' = entriesFor s x (s.vol.dinode i) omode) :
    SameOpen ((sysOpen p x path omode).run s) ((sysOpen p x path omode').run s) := by
  cases hg : g with
  | error e =>
    have herr : ∀ m, Finds (holders s) g (openInode x.cwd str m) (began s.vol) → (sysOpen p x path m).run s = .error e := by
      intro m hm
      have hw := sysOpen_by (p := p) hi hstr hm
      cases hr : (sysOpen p x path m).run s with
      | error e' =>
        have := wp_of_error hw hr
        rw [hg] at this
        cases this
        rfl
      | ok a =>
        obtain ⟨o, ho, -⟩ := wp_of_ok hw hr
        rw [hg] at ho
        cases ho
    rw [herr _ hf, herr _ hf']
    rfl
  | ok o =>
    obtain ⟨r, s1, hr, ho⟩ := sysOpen_finds (p := p) hi hstr hf hg
    obtain ⟨r', s2, hr', ho'⟩ := sysOpen_finds (p := p) hi hstr hf' hg
    rw [hr, hr']
    cases o with
    | none =>
      obtain ⟨rfl, -⟩ := ho
      obtain ⟨rfl, -⟩ := ho'
      exact ⟨rfl, fun h0 => absurd h0 (by decide)⟩
    | some i =>
      obtain ⟨hsame, halike⟩ := ho.1.alike hx (ho'.1.mode hu (he i hg))
      exact ⟨hsame, fun _ => halike⟩

theorem same_open_refused (hf' : Finds (holders s) g' (openInode x.cwd str omode') (began s.vol)) (hg : g = .ok (some i))
    (hg' : g' = .ok none ∨ g' = .ok (some i) ∧ entriesFor s x (s.vol.dinode i) omode' = none) :
    SameOpen ((sysOpen p x path omode).run s) ((sysOpen p x path omode').run s) ↔
      entriesFor s x (s.vol.dinode i) omode = none := by
  obtain ⟨r, s1, hr, ho, -⟩ := sysOpen_finds (p := p) hi hstr hf hg
  obtain ⟨s2, hr'⟩ : ∃ s2, (sysOpen p x path omode').run s = .ok (-1, s2) := by
    rcases hg' with hg' | ⟨hg', he⟩
    · obtain ⟨r', s2, hr', rfl, -⟩ := sysOpen_finds (p := p) hi hstr hf' hg'
      exact ⟨s2, hr'⟩
    · obtain ⟨r', s2, hr', ho', -⟩ := sysOpen_finds (p := p) hi hstr hf' hg'
      have hout := ho'.out
      rw [he] at hout
      obtain ⟨rfl, -⟩ := hout
      exact ⟨s2, hr'⟩
  have hout := ho.out
  rw [hr, hr']
  cases he : entriesFor s x (s.vol.dinode i) omode with
  | none =>
    rw [he] at hout
    exact iff_of_true ⟨hout.1.symm, fun h0 => absurd h0 (by rw [hout.1]; decide)⟩ rfl
  | some e =>
    rw [he] at hout
    refine iff_of_false (fun ⟨hsame, _⟩ => ?_) nofun
    have h0 := hout.1
    omega

end

/-! ## `O_NOFOLLOW` -/

theorem type_of_tree (h : tree v i = some n) : (v.dinode i).type = n.type := by
  unfold tree nodeOf at h
  split at h
  · split at h
    · cases h
    · cases h
      rfl
  · cases h

theorem follow_plain {rm : Option Nat → Nat → Bool} {t : Tree} (hn : t i = some n) (hl : n.type ≠ .symlink) :
    follow rm t k nofollow maxSymlinkDepth i = .ok (some i) := by
  unfold maxSymlinkDepth follow
  rw [hn]
  exact if_pos (.inl hl)

theorem named_iff (path : Bytes) (i : Nat) (h : Mid v R []) (hg : Good v R) (hcwd : cwd ∈ R) :
    findsBy (fun i => .ok (some i)) (room v R) (tree v) (v.inode cwd).inum path = .ok (some i) ↔
      nameiInum v cwd path = .ok (some i) ∧ tree v i ≠ none := by
  rw [nameiInum_eq path h hg hcwd]
  unfold findsBy
  cases resolve (room v R) (tree v) (v.inode cwd).inum path false with
  | error e => exact iff_of_false nofun (fun hc => nomatch hc.1)
  | ok o =>
    cases o with
    | none => exact iff_of_false nofun (fun hc => nomatch hc.1)
    | some o =>
      obtain ⟨i', nm⟩ := o
      by_cases hi : tree v i' = none <;> simp [Except.map, hi]
      · rintro rfl
        exact hi
      · rintro rfl
        exact hi

/-- **A directory that can be opened**, and with `O_RDONLY` only. -/
def OpensDir (s : FsState) (x : Proc) (path : Option Bytes) : Prop :=
  ∃ str i n, argstr path = some str ∧ nameiInum s.vol x.cwd str = .ok (some i) ∧ tree s.vol i = some n ∧ n.type = .dir ∧
    freeEntries s x ≠ none

theorem entriesFor_nofollow {d : Dinode} (h : d.type = .dir → omode ≠ 0) :
    entriesFor s x d (omode ||| oNofollow) = entriesFor s x d omode := by
  have hcond : has (omode ||| oNofollow) oCreate = false ∧ d.type = .dir ∧ omode ||| oNofollow ≠ 0 ↔
      has omode oCreate = false ∧ d.type = .dir ∧ omode ≠ 0 := by
    rw [has_or (by decide)]
    constructor
    · exact fun ⟨h1, h2, _⟩ => ⟨h1, h2, h h2⟩
    · exact fun ⟨h1, h2, h3⟩ => ⟨h1, h2, fun e => h3 (Nat.or_eq_zero_iff.1 e).1⟩
  unfold entriesFor
  simp only [hcond]

/-- **`O_NOFOLLOW` changes nothing** for a path that names no link, exactly if it is not a directory opened with `O_RDONLY`. -/
theorem open_nofollow {im : Image} (him : Consistent im) {calls : List (Slot × Call)} {s : FsState} {p : Slot} {x : Proc}
    {path : Option Bytes} {omode : Nat} (hs : Run.run fsStep (start im) calls = some s) (hp : s.panic = none)
    (hx : s.proc p = some x) (hc : has omode oCreate = false) (hlink : ∀ str i n, argstr path = some str →
      nameiInum s.vol x.cwd str = .ok (some i) → tree s.vol i = some n → n.type ≠ .symlink) :
    SameOpen ((program p x (.open path omode)).run s) ((program p x (.open path (omode ||| oNofollow))).run s) ↔
      ¬ (omode = 0 ∧ OpensDir s x path) := by
  have h := reached_inv him hs hp
  have hmid : Mid s.vol (holders s) [] := h.mid
  have hg : Good s.vol (holders s) := h.base.good
  have hcwd := mem_holders hx
  change SameOpen ((sysOpen p x path omode).run s) ((sysOpen p x path (omode ||| oNofollow)).run s) ↔ _
  cases hstr : argstr path with
  | none =>
    unfold sysOpen
    rw [hstr]
    refine iff_of_true (SameOpen.refl _) ?_
    rintro ⟨-, str, i, n, hno, -⟩
    rw [hstr] at hno
    cases hno
  | some str =>
    have hname := nameiInum_eq str hmid hg hcwd
    have hnamed := fun i => named_iff str i hmid hg hcwd
    -- what the path names is found with both modes
    have hlast : ∀ nofollow, finds nofollow (room s.vol (holders s)) (tree s.vol) (s.vol.inode x.cwd).inum str =
        findsBy (fun i => .ok (some i)) (room s.vol (holders s)) (tree s.vol) (s.vol.inode x.cwd).inum str := by
      intro nofollow
      unfold finds findsBy
      split
      · rfl
      · rfl
      · rename_i i nm hres
        split
        · rfl
        · rename_i hi
          obtain ⟨n, hn⟩ := Option.ne_none_iff_exists'.1 hi
          rw [hres] at hname
          exact follow_plain hn (hlink str i n hstr hname hn)
    have hfind : ∀ m, has m oCreate = false →
      Finds (holders s) (findsBy (fun i => .ok (some i)) (room s.vol (holders s)) (tree s.vol)
        (s.vol.inode x.cwd).inum str) (openInode x.cwd str m) (began s.vol) := by
      intro m hm
      rw [← hlast (has m oNofollow)]
      exact openInode_began h hx hm
    have hc' : has (omode ||| oNofollow) oCreate = false := (has_or (by decide)).trans hc
    by_cases hdir : omode = 0 ∧ ∃ i n, nameiInum s.vol x.cwd str = .ok (some i) ∧ tree s.vol i = some n ∧ n.type = .dir
    · obtain ⟨rfl, i, n, hi, hn, hd⟩ := hdir
      have hty : (s.vol.dinode i).type = .dir := (type_of_tree hn).trans hd
      have hfound := (hnamed i).2 ⟨hi, by rw [hn]; exact Option.some_ne_none _⟩
      have hrefused : entriesFor s x (s.vol.dinode i) (0 ||| oNofollow) = none := if_pos ⟨rfl, hty, by decide⟩
      rw [same_open_refused h hstr (hfind 0 rfl) (hfind _ hc') hfound (.inr ⟨hfound, hrefused⟩)]
      have hfree : entriesFor s x (s.vol.dinode i) 0 = freeEntries s x := by
        unfold entriesFor
        simp [hty]
      rw [hfree]
      constructor
      · rintro hno ⟨-, str', i', n', -, -, -, -, hsome⟩
        exact hsome hno
      · intro hnot
        by_contra hsome
        exact hnot ⟨rfl, str, i, n, hstr, hi, hn, hd, hsome⟩
    · have hu : SameUse omode (omode ||| oNofollow) := ⟨has_or (by decide), has_or (by decide), has_or (by decide)⟩
      refine iff_of_true (same_open h hx hstr (hfind _ hc) (hfind _ hc') hu (fun i hfound => ?_)) ?_
      · obtain ⟨hi, hused⟩ := (hnamed i).1 hfound
        obtain ⟨n, hn⟩ := Option.ne_none_iff_exists'.1 hused
        exact entriesFor_nofollow (fun hty h0 => hdir ⟨h0, i, n, hi, hn, (type_of_tree hn).symm.trans hty⟩)
      · rintro ⟨h0, str', i, n, hstr', hi, hn, hd, -⟩
        rw [hstr] at hstr'
        cases hstr'
        exact hdir ⟨h0, i, n, hi, hn, hd⟩

/-- A file that exists. -/
theorem open_nofollow_file : ∃ s x, Run.run fsStep (start rootImage) [(initSlot, .open (some [102]) 0x202)] = some s ∧
    s.proc initSlot = some x ∧ SameOpen ((program initSlot x (.open (some [102]) oRdwr)).run s)
      ((program initSlot x (.open (some [102]) (oRdwr ||| oNofollow))).run s) := by
  obtain ⟨s, x, hs, hx, hp, hname, hty⟩ := holds_of_eval rootImage [(initSlot, .open (some [102]) 0x202)] initSlot
    (fun s x => s.panic = none ∧ (nameiInum s.vol x.cwd [102]).toOption = some (some 2) ∧
      (tree s.vol 2).map Node.type = some .file) (by decide +kernel)
  refine ⟨s, x, hs, hx, (open_nofollow rootImage_consistent hs hp hx (by decide) (fun str i n hstr hi hn => ?_)).2 ?_⟩
  rotate_left
  · exact fun hc => absurd hc.1 (by decide)
  obtain rfl : str = [102] := by
    have harg : argstr (some [102]) = some [102] := by decide
    exact Option.some.inj (hstr.symm.trans harg)
  rw [ok_of_toOption hname] at hi
  cases hi
  rw [hn] at hty
  rw [Option.some.inj hty]
  decide

/-- A directory is opened without `O_NOFOLLOW`, and not with it. -/
theorem open_nofollow_directory : ((start rootImage).proc initSlot).map (fun x =>
    (((program initSlot x (.open (some [47]) 0)).run (start rootImage)).toOption.map Prod.fst,
      ((program initSlot x (.open (some [47]) (0 ||| oNofollow))).run (start rootImage)).toOption.map Prod.fst)) =
    some (some 0, some (-1)) := by
  decide +kernel

/-! ## `O_CREATE` -/

def createAt (type : IType) (major minor : Int) : Option (Ip × Bytes) → FM (Option Ip)
  | none => return none
  | some (dp, name) => do
    ilock dp
    match ← dirlookup dp name with
    | some (ip, _) =>
      iunlockput dp
      ilock ip
      let d ← din ip
      if type = .file ∧ (d.type = .file ∨ d.type = .device) then return some ip
      iunlockput ip
      return none
    | none => createIn dp name type major minor

theorem create_eq (cwd : Ip) (path : Bytes) (type : IType) (major minor : Int) :
    create cwd path type major minor = namex cwd path true >>= createAt type major minor := by
  apply bind_congr
  intro r
  cases r with
  | none => rfl
  | some r => rfl

/-- What `create` does with an inode that it finds. -/
def takeFile (ip : Ip) : FM (Option Ip) := do
  let d ← din ip
  if d.type = .file ∨ d.type = .device then return some ip
  iunlockput ip
  return none

theorem takeFile_finds (h : Mid v (ip ::ₘ R) [ip]) (hg : Good v R) :
    Finds R (.ok (if (v.dinode (v.inode ip).inum).type = .file ∨
    (v.dinode (v.inode ip).inum).type = .device then some (v.inode ip).inum else none)) (takeFile ip) v := by
  obtain ⟨hd, -⟩ := h.coherent ip (mem_cons_self _ _) (h.locked ip List.mem_cons_self).2
  unfold takeFile Finds
  rw [wp_bind, wp_din, ← hd]
  refine wp_ite (fun hc => ?_) (fun hc => ?_)
  · rw [if_pos hc]
    exact ⟨h, Quiet.refl _, Stays.refl .., rfl⟩
  · rw [if_neg hc]
    exact wp_then (iunlockput_extra h hg) (fun _ v' ⟨h', hq, hst⟩ => ⟨h', hq, hst, rfl⟩)

theorem ilock_peak (a : Ip) : wp (ilock a) (fun _ v' => v'.locks.length ≤ v'.peak) (fun _ => True) v := by
  unfold ilock
  apply wp_ite
  · exact fun _ => trivial
  intro _
  simp only [wp_bind]
  apply wp_ite
  · exact fun _ => trivial
  intro _
  have hle : (a :: v.locks).length ≤ max v.peak (v.locks.length + 1) := le_max_right _ _
  apply wp_ite
  · exact fun _ => hle
  intro _
  apply wp_ite
  · exact fun _ => trivial
  · exact fun _ => hle

theorem relock (h : Mid v R [a]) (hpeak : v.locks.length ≤ v.peak) :
    wp (iunlock a >>= fun _ => ilock a) (fun _ v' => v' = v) (fun _ => False) v := by
  obtain ⟨haR, hav⟩ := h.locked a List.mem_cons_self
  have href := h.ref_pos haR
  have hlocks := h.locks
  rw [hlocks, List.length_singleton] at hpeak
  unfold iunlock releasesleep ilock acquiresleep ifill
  simp only [wp_bind, wp_get]
  rw [hlocks, if_neg (by simp only [List.mem_singleton, not_true_eq_false, false_or]; omega), wp_modify]
  simp only [hlocks, List.erase_cons_head, wp_bind, wp_get]
  rw [if_neg (by omega)]
  simp only [wp_bind, wp_get]
  rw [if_neg List.not_mem_nil]
  simp only [wp_set, wp_bind, wp_get]
  rw [if_pos hav, wp_pure, List.length_nil, max_eq_left hpeak, ← hlocks]

theorem relock_run {β : Type} {f : Unit → FM β} (h : Mid v R [a]) (hpeak : v.locks.length ≤ v.peak) :
    (iunlock a >>= fun _ => ilock a >>= f).run v = (f ()).run v := by
  obtain ⟨_, v', hr, rfl⟩ := wp_run (relock h hpeak)
  rw [← bind_assoc, StateT.run_bind, hr]
  rfl

theorem namexLoop_create {rm : Option Nat → Nat → Bool} : ∀ (names : List Bytes) (v : Vol) (a : Ip), names ≠ [] →
      Mid v (a ::ₘ R) [] → Good v R → walk rm (tree v) false (v.inode a).inum names = .ok (some (i, nm)) →
      (namexLoop true a names >>= createAt .file 0 0).run v = (namexLoop false a names >>= lockedAt takeFile).run v
  | [], v, a, hne, _, _, _ => absurd rfl hne
  | name :: rest, v, a, _, h, hg, hw => by
    have haR : a ∈ a ::ₘ R := mem_cons_self _ _
    unfold namexLoop
    simp only [bind_assoc]
    apply run_bind_congr rfl (wp_and (ilock_node (F := fun _ => True) h haR (.inl List.not_mem_nil) (.inl trivial))
      (ilock_peak a))
    rintro _ v1 ⟨⟨-, h1, hq1, hst1, hnode⟩, hpeak⟩
    have hstR1 : Stays R 1 v v1 := hst1.mono (le_cons_self _ _) le_rfl
    unfold walk at hw
    rw [hnode] at hw
    dsimp only at hw
    -- the walk goes on, so this is a directory
    have hd : (nodeAt v1 a).type = .dir := by
      by_contra hne
      rw [if_pos hne] at hw
      cases hw
    rw [if_neg (fun hne => hne hd), if_neg (fun hp => by cases hp.1)] at hw
    have hdin : wp (din a) (fun d v' => d = (v1.inode a).din ∧ v' = v1) (fun _ => True) v1 := ⟨rfl, rfl⟩
    apply run_bind_congr rfl hdin
    rintro d v1' ⟨rfl, rfl⟩
    have hdir : ¬ (v1'.inode a).din.type ≠ .dir := fun hne => hne hd
    rw [if_neg hdir, if_neg hdir, if_neg (show ¬ (false = true ∧ rest = []) from fun hp => by cases hp.1)]
    by_cases hrest : rest = []
    · -- the last name: `nameiparent` returns, and `create` looks it up
      subst hrest
      rw [if_pos ⟨trivial, rfl⟩]
      simp only [bind_assoc, pure_bind]
      change (iunlock a >>= fun _ => ilock a >>= _).run v1' = _
      rw [relock_run h1 hpeak]
      apply run_bind_congr rfl (dirlookup_spec h1 List.mem_cons_self hd)
      rintro r v2 ⟨hq2, hst2, hr⟩
      cases r with
      | none =>
        rw [hr.2] at hw
        cases hw
      | some r =>
        obtain ⟨next, o⟩ := r
        rw [bind_assoc]
        apply run_bind_congr rfl (wp_true _ (fun _ => trivial) _)
        intro _ v3 _
        have hnil : namexLoop false next [] = pure (some (next, [])) := rfl
        rw [hnil, pure_bind]
        refine run_bind_congr rfl (wp_true _ (fun _ => trivial) _) (fun _ v4 _ => ?_)
        unfold takeFile
        simp only [true_and]
    · rw [if_neg (fun hp => hrest hp.2)]
      simp only [bind_assoc]
      apply run_bind_congr rfl (dirlookup_spec h1 List.mem_cons_self hd)
      rintro r v2 ⟨hq2, hst2, hr⟩
      cases r with
      | none =>
        rw [hr.2] at hw
        cases hw
      | some r =>
        obtain ⟨next, o⟩ := r
        obtain ⟨h2, hf⟩ := hr
        rw [hf] at hw
        dsimp only at hw
        split at hw
        rotate_left
        · cases hw
        rw [cons_swap] at h2
        have hst12 : Stays R 1 v v2 := hstR1.trans (hst2.mono (le_cons_self _ _) (Nat.zero_le _))
        have hg2 : Good v2 (next ::ₘ R) := (hg.quiet (hq1.trans hq2) hst12).mono (le_cons_self _ _)
        rw [bind_assoc, bind_assoc]
        apply run_bind_congr rfl (iunlockput_extra (F := fun _ => True) h2 hg2)
        rintro _ v3 ⟨h3, hq3, hst3⟩
        have hq : Quiet v v3 := (hq1.trans hq2).trans hq3
        have hg3 : Good v3 R := hg.quiet hq (hst12.trans (hst3.mono (le_cons_self _ _) le_rfl))
        rw [← hq.tree, ← hst3.inum next (mem_cons_self _ _)] at hw
        exact namexLoop_create rest v3 next hrest h3 hg3 hw

section
variable (h : Mid v R []) (hg : Good v R) (hcwd : cwd ∈ R)
  (hres : resolve (room v R) (tree v) (v.inode cwd).inum path false = .ok (some (i, nm)))
include h hg hcwd hres

theorem create_run (hne : elems path ≠ []) :
    (create cwd path .file 0 0).run v = (namex cwd path false >>= lockedAt takeFile).run v := by
  rw [create_eq]
  unfold namex
  rw [bind_assoc, bind_assoc]
  have hstart : wp (namexStart cwd path) (fun a v1 => Mid v1 (a ::ₘ R) [] ∧ Quiet v v1 ∧ Stays R 0 v v1 ∧
      walk (room v R) (tree v) false (v1.inode a).inum (elems path) = .ok (some (i, nm))) (fun _ => True) v := by
    unfold resolve at hres
    unfold namexStart
    by_cases hs : path.head? = some slash
    · rw [if_pos hs] at hres
      split at hres
      rotate_left
      · cases hres
      rw [if_pos hs]
      apply wp_mono (iget_spec h (by decide)) _ (fun _ _ => trivial)
      rintro a v1 ⟨h1, hq1, hst1, hi, -⟩
      rw [hi]
      exact ⟨h1, hq1, hst1, hres⟩
    · rw [if_neg hs] at hres
      rw [if_neg hs]
      apply wp_use (idup_spec h hcwd)
      rintro a v1 ⟨rfl, h1, hq1, hst1⟩
      rw [hst1.inum a hcwd]
      exact ⟨h1, hq1, hst1, hres⟩
  apply run_bind_congr rfl hstart
  rintro a v1 ⟨h1, hq1, hst1, hw⟩
  rw [← hq1.tree] at hw
  exact namexLoop_create _ v1 a hne h1 (hg.quiet hq1 hst1) hw

theorem create_finds (hi : tree v i ≠ none) : Finds R (.ok (if elems path ≠ [] ∧ ((v.dinode i).type = .file ∨
    (v.dinode i).type = .device) then some i else none)) (create cwd path .file 0 0) v := by
  by_cases hne : elems path = []
  · -- without a name there is no parent
    rw [if_neg (fun hc => hc.1 hne), create_eq]
    refine wp_bind.2 (wp_mono (namex_spec h hg hcwd) ?_ ?_)
    all_goals unfold resolve at hres ⊢; rw [hne] at hres ⊢
    · rintro r v1 ⟨h1, hq1, hst1, hw⟩
      cases r with
      | none => exact ⟨h1, hq1, hst1, rfl⟩
      | some r => split_ifs at hw hres <;> cases hw
    · intro e hw
      split_ifs at hw hres <;> cases hw
  · have hlast : Finds R (findsBy (fun i => .ok (if (v.dinode i).type = .file ∨ (v.dinode i).type = .device then some i
        else none)) (room v R) (tree v) (v.inode cwd).inum path) (namex cwd path false >>= lockedAt takeFile) v := by
      refine namex_findsBy h hg hcwd (fun ip v2 h2 hq hst => ?_)
      have hd : v2.dinode = v.dinode := hq.2
      rw [← hd]
      exact takeFile_finds h2 (hg.quiet hq hst)
    unfold findsBy at hlast
    rw [hres] at hlast
    dsimp only at hlast
    rw [if_neg hi] at hlast
    simp only [ne_eq, hne, not_false_eq_true, true_and]
    unfold Finds wp at hlast ⊢
    rw [create_run h hg hcwd hres hne]
    exact hlast

end

/-- **`O_CREATE` changes nothing** for a path that leads to a regular file, exactly if the last name of the path is the file's
own. -/
theorem open_create {im : Image} (him : Consistent im) {calls : List (Slot × Call)} {s : FsState} {p : Slot} {x : Proc}
    {path : Option Bytes} {omode : Nat} (hs : Run.run fsStep (start im) calls = some s) (hp : s.panic = none)
    (hx : s.proc p = some x) (hn : has omode oNofollow = false) {str : Bytes} {i k j : Nat} {n : Node}
    (hstr : argstr path = some str) (hi : nameiInum s.vol x.cwd str = .ok (some i)) (hl : Links s.vol x.cwd i k j) (hk : k ≤ 9)
    (hj : tree s.vol j = some n) (hfile : n.type = .file) :
    SameOpen ((program p x (.open path omode)).run s) ((program p x (.open path (omode ||| oCreate))).run s) ↔
      has omode oCreate = true ∨ k = 0 ∧ elems str ≠ [] ∨ freeEntries s x = none := by
  have h := reached_inv him hs hp
  have hmid : Mid s.vol (holders s) [] := h.mid
  have hg : Good s.vol (holders s) := h.base.good
  have hgb := (began_base h.base).good
  have hcwd := mem_holders hx
  change SameOpen ((sysOpen p x path omode).run s) ((sysOpen p x path (omode ||| oCreate)).run s) ↔ _
  have hu : SameUse omode (omode ||| oCreate) := ⟨has_or (by decide), has_or (by decide), has_or (by decide)⟩
  have hused : tree s.vol j ≠ none := by
    rw [hj]
    exact Option.some_ne_none _
  obtain ⟨o, hres, ho⟩ := resolve_of_namei hmid hg hcwd hi
  obtain ⟨⟨i', nm⟩, rfl, rfl⟩ := Option.map_eq_some_iff.1 ho
  have hcreate := create_finds (began_mid hmid) hgb hcwd hres (hl.used hused)
  have hopen : ∀ m, has m oCreate = true → openInode x.cwd str m = create x.cwd str .file 0 0 := by
    intro m hm
    unfold openInode
    rw [if_pos hm]
  have hcr : has (omode ||| oCreate) oCreate = true := has_or_self (by decide)
  cases hc : has omode oCreate with
  | true =>
    refine iff_of_true (same_open h hx hstr (hopen _ hc ▸ hcreate) (hopen _ hcr ▸ hcreate) hu (fun i' _ => ?_)) (.inl rfl)
    unfold entriesFor
    simp only [hc, hcr]
    rfl
  | false =>
    have hty : (s.vol.dinode j).type = .file := (type_of_tree hj).trans hfile
    have hentries : ∀ m, entriesFor s x (s.vol.dinode j) m = freeEntries s x := by
      intro m
      unfold entriesFor
      simp [hty]
    have hfind : Finds _ _ (openInode x.cwd str omode) _ := sysOpen_exact h hx hc hn
    obtain ⟨left, hleft⟩ : ∃ left, left + 1 + k = maxSymlinkDepth := ⟨9 - k, by unfold maxSymlinkDepth; omega⟩
    have hfound := finds_links hmid hg hcwd hi (hl.used hused) hl hleft
    unfold follow at hfound
    rw [hj] at hfound
    dsimp only at hfound
    rw [if_pos (.inl (by rw [hfile]; decide))] at hfound
    rw [hfound] at hfind
    have hcreate' := hopen _ hcr ▸ hcreate
    by_cases hown : k = 0 ∧ elems str ≠ []
    · obtain ⟨rfl, hne⟩ := hown
      cases hl
      rw [if_pos (⟨hne, .inl hty⟩ : _ ∧
        (((began s.vol).dinode _).type = .file ∨ ((began s.vol).dinode _).type = .device))] at hcreate'
      refine iff_of_true (same_open h hx hstr hfind hcreate' hu (fun i' hi' => ?_)) (.inr (.inl ⟨rfl, hne⟩))
      cases hi'
      rw [hentries, hentries]
    · have hnone : ¬ (elems str ≠ [] ∧
          (((began s.vol).dinode i').type = .file ∨ ((began s.vol).dinode i').type = .device)) := by
        rintro ⟨hne, hty'⟩
        change (s.vol.dinode i').type = .file ∨ (s.vol.dinode i').type = .device at hty'
        cases hl with
        | nil => exact hown ⟨rfl, hne⟩
        | cons hn' ht' =>
          rw [type_of_tree hn', ht'] at hty'
          rcases hty' with e | e <;> cases e
      rw [if_neg hnone] at hcreate'
      rw [same_open_refused h hstr hfind hcreate' rfl (.inl rfl), hentries]
      simp [hown]

/-- A file that exists. -/
theorem open_create_file : ∃ s x, Run.run fsStep (start rootImage) [(initSlot, .open (some [102]) 0x202)] = some s ∧
    s.proc initSlot = some x ∧ SameOpen ((program initSlot x (.open (some [102]) oRdwr)).run s)
      ((program initSlot x (.open (some [102]) (oRdwr ||| oCreate))).run s) := by
  obtain ⟨s, x, hs, hx, hp, hname, hty⟩ := holds_of_eval rootImage [(initSlot, .open (some [102]) 0x202)] initSlot
    (fun s x => s.panic = none ∧ (nameiInum s.vol x.cwd [102]).toOption = some (some 2) ∧
      (tree s.vol 2).map Node.type = some .file) (by decide +kernel)
  obtain ⟨n, hn, hfile⟩ := Option.map_eq_some_iff.1 hty
  exact ⟨s, x, hs, hx, (open_create rootImage_consistent hs hp hx (by decide) (by decide) (ok_of_toOption hname) (.nil 2)
    (by decide) hn hfile).2 (.inr (.inl ⟨rfl, by decide⟩))⟩

/-- Through a link the file is opened without `O_CREATE`, and not with it. -/
theorem open_create_link : ((Run.run fsStep (start rootImage)
      [(initSlot, .open (some [102]) 0x202), (initSlot, .symlink (some [102]) (some [108]))]).bind fun s =>
    (s.proc initSlot).map fun x => (((program initSlot x (.open (some [108]) oRdwr)).run s).toOption.map Prod.fst,
      ((program initSlot x (.open (some [108]) (oRdwr ||| oCreate))).run s).toOption.map Prod.fst)) =
    some (some 1, some (-1)) := by
  decide +kernel

end Xv6.Fs
