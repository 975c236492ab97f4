import Xv6.FsFail
/-!
# FsFollow — `open` of a path that names a chain of links

The outcome of opening an inode is a function of the state and of the inode (`OpensInode`), up to the slot the inode has in
the table.
`sys_open` has the outcome of opening the inode at the end of the chain (`open_follows`).
-/
namespace Xv6.Fs

open Function Option Multiset Wp
variable {v v' : Vol} {R : Multiset Ip} {L : List Ip} {s s' : FsState} {p : Slot} {x : Proc} {F : Panic → Prop}
  {i j k n omode left : Nat} {ip cwd : Ip} {r r' : Int} {o : Option Nat} {path : Option Bytes}

/-! ## All but the inode table -/

structure Medium where
  blk : Blocks
  dinode : Nat → Dinode
  disk : Nat → Content
  trans : List Trans

def medium (v : Vol) : Medium := ⟨v.blk, v.dinode, v.disk, v.trans⟩

theorem medium_same (hq : Quiet v v') (hst : Stays R n v v') : medium v' = medium v := by
  unfold medium
  rw [hq.1, hq.2, hst.log.2.2.1, hst.log.2.2.2]

def Medium.ended (m : Medium) : Medium :=
  let t := m.blk.logged.dedup.map (fun b => (b, blockContent m.blk.sb m.dinode m.blk.bit m.blk.data b))
  { m with
    blk := { m.blk with outstanding := m.blk.outstanding - 1, logged := [] }
    disk := installTrans m.disk t
    trans := m.trans ++ [t] }

def Medium.truncated (m : Medium) (d : Dinode) (i : Nat) : Option Medium :=
  match (truncBlocks d).run m.blk with
  | .ok (d, k) =>
    some { m with
      blk := k.log (iblock k.sb i)
      dinode := update m.dinode i d }
  | .error _ => none

theorem itrunc_medium :
    wp (itrunc ip) (fun _ v' => (medium v).truncated (v.inode ip).din (v.inode ip).inum = some (medium v'))
    (fun _ => True) v := by
  unfold itrunc
  rw [wp_bind, wp_din, wp_bind, wp_onBlocks]
  apply wp_use (wp_self _ (fun _ => trivial) _)
  intro d k hrun
  unfold iassign setDin iupdate logWrite
  simp only [wp_bind, wp_get, wp_setInode, wp_set, wp_onBlocks, wp_modify, update_self]
  unfold Medium.truncated medium
  rw [hrun]

/-! ## The outcome of opening an inode -/

def freeEntries (s : FsState) (x : Proc) : Option (Fp × Fin 16) :=
  match files.find? (fun f => decide ((s.ftable f).ref = 0)), fds.find? (fun i => decide (x.ofile i = none)) with
  | some f, some fd => some (f, fd)
  | _, _ => none

/-- The entries for an inode with the fields `d`, if it can be opened. -/
def entriesFor (s : FsState) (x : Proc) (d : Dinode) (omode : Nat) : Option (Fp × Fin 16) :=
  if has omode oCreate = false ∧ d.type = .dir ∧ omode ≠ 0 then none
  else if d.type = .device ∧ (d.major < 0 ∨ 10 ≤ d.major) then none
  else freeEntries s x

def withFd (x : Proc) (f : Fp) (fd : Fin 16) : Proc := { x with ofile := update x.ofile fd (some f) }

theorem openFile_exact {Q : Option (Fp × Fin 16) → FsState → Prop}
    (htyped : ∀ f, (s.ftable f).type = .none ↔ (s.ftable f).ref = 0) (hnone : freeEntries s x = none → Q none s)
    (hsome : ∀ f fd, freeEntries s x = some (f, fd) → Q (some (f, fd)) { s with
      ftable := update s.ftable f { s.ftable f with ref := 1 }
      proc := update s.proc p (some (withFd x f fd)) }) : wp (openFile p x) Q F s := by
  unfold freeEntries at hnone hsome
  unfold openFile filealloc
  rw [wp_bind, wp_bind, wp_get]
  cases hf : files.find? (fun f => decide ((s.ftable f).ref = 0)) with
  | none =>
    rw [hf] at hnone
    exact hnone rfl
  | some f =>
    rw [hf] at hnone hsome
    have h0 := List.find?_some hf
    rw [decide_eq_true_eq] at h0
    rw [wp_bind, wp_setFile, wp_pure]
    unfold fdalloc
    rw [wp_bind]
    cases hfd : fds.find? (fun i => decide (x.ofile i = none)) with
    | none =>
      rw [hfd] at hnone
      rw [wp_pure]
      rw [wp_bind]
      exact fileclose_new h0 ((htyped f).2 h0) (hnone rfl)
    | some fd =>
      rw [hfd] at hsome
      unfold setOfile
      exact hsome f fd rfl

/-- **What opening the inode `i` comes to**, in an operation of its own: the result, the file, the blocks and inodes; the
slot `ip` is the only thing left open. -/
structure OpensInode (s : FsState) (p : Slot) (x : Proc) (omode i : Nat) (r : Int) (s' : FsState) : Prop where
  out : match entriesFor s x (s.vol.dinode i) omode with
    | none => r = -1 ∧ s'.ftable = s.ftable ∧ s'.proc = s.proc ∧ medium s'.vol = (medium (began s.vol)).ended
    | some (f, fd) => r = fd.val ∧ s'.proc = update s.proc p (some (withFd x f fd)) ∧
      (∃ ip, (s'.vol.inode ip).inum = i ∧
        s'.ftable = update s.ftable f (openedFile ip (s.vol.dinode i) omode { s.ftable f with ref := 1 })) ∧
      (if has omode oTrunc = true ∧ (s.vol.dinode i).type = .file then (medium (began s.vol)).truncated (s.vol.dinode i) i
        else some (medium (began s.vol))).map Medium.ended = some (medium s'.vol)
  pipes : s'.pipe = s.pipe ∧ s'.npipe = s.npipe ∧ s'.panic = s.panic
  inums : ∀ a ∈ holders s, (s'.vol.inode a).inum = (s.vol.inode a).inum
  peak : s'.vol.peak ≤ max s.vol.peak 1

theorem openTrunc_medium (h : Mid v (ip ::ₘ R) [ip]) :
    wp (openTrunc ip (v.inode ip).din.type omode) (fun _ v' => Mid v' (ip ::ₘ R) [ip] ∧ Stays (ip ::ₘ R) 0 v v' ∧
      (if has omode oTrunc = true ∧ (v.inode ip).din.type = .file then (medium v).truncated (v.inode ip).din (v.inode ip).inum
        else some (medium v)) = some (medium v')) F v := by
  apply wp_ite
  · intro hc
    rw [if_pos hc]
    apply wp_use (wp_and (itrunc_spec h List.mem_cons_self) itrunc_medium)
    rintro _ v' ⟨⟨h', -, hst, -⟩, hm⟩
    exact ⟨h', hst, hm⟩
  · intro hc
    rw [if_neg hc]
    exact ⟨h, Stays.refl .., rfl⟩

theorem medium_ended (v : Vol) :
    wp endOp (fun _ v' => medium v' = (medium v).ended ∧ v'.inode = v.inode ∧ v'.peak = v.peak) F v :=
  ⟨rfl, rfl, rfl⟩

theorem openLocked_exact (hi : Inv s) (h : Mid v (ip ::ₘ holders s) [ip]) (hg : Good v (holders s))
    (hm : medium v = medium (began s.vol)) (hst : Stays (holders s) 1 (began s.vol) v) (hin : (v.inode ip).inum = i) :
    wp (do let r ← openLocked p x omode ip; onVol endOp; return r) (fun r s' => OpensInode s p x omode i r s') F
      { s with vol := v } := by
  have hd : (v.inode ip).din = s.vol.dinode i := by
    obtain ⟨hd, -⟩ := h.coherent ip (mem_cons_self _ _) (h.locked ip List.mem_cons_self).2
    have hdin : v.dinode = s.vol.dinode := congrArg Medium.dinode hm
    rw [hd, hin, hdin]
  have hput : entriesFor s x (s.vol.dinode i) omode = none → wp (do onVol (iunlockput ip); return (-1 : Int))
      (fun r s2 => wp (do onVol endOp; return r) (fun r => OpensInode s p x omode i r) F s2) F { s with vol := v } := by
    intro hnone
    rw [wp_bind, wp_onVol]
    apply wp_use (iunlockput_extra h hg)
    rintro _ v2 ⟨-, hq2, hst2⟩
    rw [wp_pure, wp_bind, wp_onVol]
    apply wp_use (medium_ended v2)
    rintro _ v3 ⟨hm3, hin3, hpk3⟩
    have hpeak := (hst.trans hst2).peak
    have hinum := (hst.trans hst2).inum
    refine ⟨?_, ⟨rfl, rfl, rfl⟩, fun a ha => ?_, ?_⟩
    · rw [hnone]
      exact ⟨rfl, rfl, rfl, by rw [← hm, ← medium_same hq2 hst2]; exact hm3⟩
    · rw [hin3]
      exact hinum a ha
    · rw [hpk3]
      exact hpeak
  rw [wp_bind]
  unfold openLocked
  rw [wp_bind, wp_onVol, wp_din]
  rw [hd]
  apply wp_ite
  · intro hc
    exact hput (by unfold entriesFor; rw [if_pos hc])
  intro hc
  apply wp_ite
  · intro hc'
    exact hput (by unfold entriesFor; rw [if_neg hc, if_pos hc'])
  intro hc'
  have hentries : entriesFor s x (s.vol.dinode i) omode = freeEntries s x := by
    unfold entriesFor
    rw [if_neg hc, if_neg hc']
  rw [wp_bind]
  apply openFile_exact (s := { s with vol := v }) hi.typed
  · intro hnone
    exact hput (hentries.trans hnone)
  intro f fd hsome
  rw [wp_bind, wp_get, wp_bind, wp_setFile, wp_bind, wp_onVol]
  dsimp only
  rw [update_self, update_idem, ← hd]
  apply wp_use (openTrunc_medium h)
  rintro _ v2 ⟨h2, hst2, hm2⟩
  rw [wp_bind, wp_onVol]
  apply wp_use (iunlock_spec h2)
  rintro _ v3 ⟨-, hq3, hst3⟩
  rw [wp_pure, wp_bind, wp_onVol]
  apply wp_use (medium_ended v3)
  rintro _ v4 ⟨hm4, hin4, hpk4⟩
  have hst23 := hst2.trans hst3
  have hall := hst.trans (hst23.mono (le_cons_self _ _) (Nat.zero_le 1))
  refine ⟨?_, ⟨rfl, rfl, rfl⟩, fun a ha => ?_, ?_⟩
  · rw [hentries.trans hsome]
    refine ⟨rfl, rfl, ⟨ip, ?_, by rw [hd]⟩, ?_⟩
    · rw [hin4, hst23.inum ip (mem_cons_self _ _)]
      exact hin
    · rw [hd, hin, hm] at hm2
      rw [hm2, map_some, ← medium_same hq3 hst3]
      exact congrArg some hm4.symm
  · rw [hin4]
    exact hall.inum a ha
  · rw [hpk4]
    exact hall.peak

/-! ## Opening an inode directly -/

/-- `sys_open` where the inode is known by its number: no path is resolved and no link followed. -/
def openDirect (p : Slot) (x : Proc) (i omode : Nat) : SM Int := do
  onVol beginOp
  let ip ← onVol (iget i)
  onVol (ilock ip)
  let r ← openLocked p x omode ip
  onVol endOp
  return r

theorem openDirect_spec (hi : Inv s) (ht : tree s.vol i ≠ none)
    (hroom : Held (began s.vol) (holders s) i ∨ ∃ a, a ∉ holders s) :
    wp (openDirect p x i omode) (fun r s' => OpensInode s p x omode i r s') (fun _ => False) s := by
  have hlt : i < 65536 := by
    by_contra hn
    exact ht (if_neg hn)
  unfold openDirect beginOp
  rw [wp_bind, wp_onVol, wp_modify, wp_bind, wp_onVol]
  apply wp_mono (iget_spec (began_mid hi.mid) hlt)
  · rintro ip v1 ⟨h1, hq1, hst1, hin1, -⟩
    rw [wp_bind, wp_onVol]
    have hused : tree v1 (v1.inode ip).inum ≠ none := by
      rw [hq1.tree, hin1]
      exact ht
    apply wp_use (ilock_spec h1 (mem_cons_self _ _) (.inl List.not_mem_nil) (.inr hused))
    rintro _ v2 ⟨-, h2, hq2, hst2⟩
    have hq := hq1.trans hq2
    have hst : Stays (holders s) 1 (began s.vol) v2 :=
      (hst1.mono le_rfl (Nat.zero_le 1)).trans (hst2.mono (le_cons_self _ _) le_rfl)
    apply openLocked_exact hi h2 ((began_base hi.base).good.quiet hq hst) (medium_same hq hst) hst
    rw [hst2.inum ip (mem_cons_self _ _)]
    exact hin1
  · rintro e ⟨-, hnot, hall⟩
    rcases hroom with hheld | ⟨a, ha⟩
    · exact hnot hheld
    · exact ha (hall a)

/-- **Two states differ only in the slots** that the inodes have in the table. -/
structure Alike (s s' : FsState) : Prop where
  medium : medium s'.vol = medium s.vol
  proc : s'.proc = s.proc
  pipes : s'.pipe = s.pipe ∧ s'.npipe = s.npipe ∧ s'.panic = s.panic
  files : ∀ f, { s'.ftable f with ip := 0 } = { s.ftable f with ip := 0 }
  inodes : ∀ f, (s.ftable f).type = .inode ∨ (s.ftable f).type = .device →
    (s'.vol.inode (s'.ftable f).ip).inum = (s.vol.inode (s.ftable f).ip).inum
  cwds : ∀ p x, s.proc p = some x → (s'.vol.inode x.cwd).inum = (s.vol.inode x.cwd).inum

theorem openedFile_ip (a b : Ip) (d : Dinode) (omode : Nat) (y : File) :
    { openedFile a d omode y with ip := 0 } = { openedFile b d omode y with ip := 0 } := rfl

theorem OpensInode.alike {s1 s2 : FsState} (hx : s.proc p = some x) (h : OpensInode s p x omode i r s1)
    (h' : OpensInode s p x omode i r' s2) : r' = r ∧ Alike s1 s2 := by
  have hpipes : s2.pipe = s1.pipe ∧ s2.npipe = s1.npipe ∧ s2.panic = s1.panic :=
    ⟨h'.pipes.1.trans h.pipes.1.symm, h'.pipes.2.1.trans h.pipes.2.1.symm, h'.pipes.2.2.trans h.pipes.2.2.symm⟩
  have hslot : ∀ a ∈ holders s, (s2.vol.inode a).inum = (s1.vol.inode a).inum := fun a ha =>
    (h'.inums a ha).trans (h.inums a ha).symm
  have hfile : ∀ f, (s.ftable f).type = .inode ∨ (s.ftable f).type = .device → (s.ftable f).ip ∈ holders s := fun f hf =>
    mem_add.2 (.inr (mem_fileIps hf))
  have ho := h.out
  have ho' := h'.out
  cases he : entriesFor s x (s.vol.dinode i) omode with
  | none =>
    rw [he] at ho ho'
    obtain ⟨rfl, hft, hpr, hm⟩ := ho
    obtain ⟨rfl, hft', hpr', hm'⟩ := ho'
    refine ⟨rfl, hm'.trans hm.symm, hpr'.trans hpr.symm, hpipes, fun f => by rw [hft, hft'], fun f hf => ?_, fun q y hq => ?_⟩
    · rw [hft] at hf
      rw [hft, hft']
      exact hslot _ (hfile f hf)
    · rw [hpr] at hq
      exact hslot _ (mem_holders hq)
  | some e =>
    rw [he] at ho ho'
    obtain ⟨f, fd⟩ := e
    obtain ⟨rfl, hpr, ⟨ip, hip, hft⟩, hm⟩ := ho
    obtain ⟨rfl, hpr', ⟨ip', hip', hft'⟩, hm'⟩ := ho'
    refine ⟨rfl, some.inj (hm'.symm.trans hm), hpr'.trans hpr.symm, hpipes, fun g => ?_, fun g hg => ?_, fun q y hq => ?_⟩
    · rw [hft, hft']
      by_cases e : g = f
      · rw [e, update_self, update_self]
        exact openedFile_ip _ _ _ _ _
      · rw [update_of_ne e, update_of_ne e]
    · rw [hft] at hg
      rw [hft, hft']
      by_cases e : g = f
      · rw [e, update_self, update_self]
        exact hip'.trans hip.symm
      · rw [update_of_ne e] at hg
        rw [update_of_ne e, update_of_ne e]
        exact hslot _ (hfile g hg)
    · rw [hpr] at hq
      by_cases e : q = p
      · rw [e, update_self] at hq
        obtain rfl : withFd x f fd = y := some.inj hq
        have hcwd : x.cwd ∈ holders s := mem_holders hx
        exact hslot x.cwd hcwd
      · rw [update_of_ne e] at hq
        exact hslot _ (mem_holders hq)

/-! ## The chain of links -/

def nameiInum (v : Vol) (cwd : Ip) (path : Bytes) : Except Panic (Option Nat) :=
  match (namei cwd path).run v with
  | .ok (r, v') => .ok (r.map (fun ip => (v'.inode ip).inum))
  | .error e => .error e

theorem nameiInum_eq (path : Bytes) (h : Mid v R []) (hg : Good v R) (hcwd : cwd ∈ R) :
    nameiInum v cwd path = (resolve (room v R) (tree v) (v.inode cwd).inum path false).map (Option.map Prod.fst) := by
  have hw := namei_exact path h hg hcwd
  unfold nameiInum
  unfold wp at hw
  split at hw
  · rename_i r v' hr
    obtain ⟨-, -, -, nm, hres⟩ := hw
    rw [hr, hres]
    cases r with
    | none => rfl
    | some ip => rfl
  · rename_i e hr
    rw [hr, hw]
    rfl

/-- **`k` links lead from the inode `i` to the inode `j`**: each is a symbolic link, and `namei` of what is stored in it
names the next inode. -/
inductive Links (v : Vol) (cwd : Ip) : Nat → Nat → Nat → Prop
  | nil (i : Nat) : Links v cwd i 0 i
  | cons {i j k l : Nat} {n : Node} (hn : tree v i = some n) (ht : n.type = .symlink) (hb : n.bytes ≠ [])
      (hj : nameiInum v cwd (targetOf n) = .ok (some j)) (hu : tree v j ≠ none) (h : Links v cwd j k l) :
      Links v cwd i (k + 1) l

/-- The panics that can end the resolution of a chain: `namei` panics, or what it returns is a free inode. -/
def NamePanics (v : Vol) (cwd : Ip) (e : Panic) : Prop :=
  ∃ path, nameiInum v cwd path = .error e ∨ e = .ilockNoType ∧ ∃ j, nameiInum v cwd path = .ok (some j) ∧ tree v j = none

/-- `sys_open` up to the inode, on a tree, where `last` is what is done with the inode that the path names. -/
def findsBy (last : Nat → Except Panic (Option Nat)) (room : Option Nat → Nat → Bool) (t : Tree) (cwd : Nat) (path : Bytes) :
    Except Panic (Option Nat) :=
  match resolve room t cwd path false with
  | .error e => .error e
  | .ok none => .ok none
  | .ok (some (i, _)) => if t i = none then .error .ilockNoType else last i

def finds (nofollow : Bool) (room : Option Nat → Nat → Bool) (t : Tree) (cwd : Nat) (path : Bytes) :
    Except Panic (Option Nat) :=
  findsBy (follow room t cwd nofollow maxSymlinkDepth) room t cwd path

/-- **`m` finds the inode `g`**, or none, or panics like `g`. -/
def Finds (R : Multiset Ip) (g : Except Panic (Option Nat)) (m : FM (Option Ip)) (v : Vol) : Prop :=
  wp m (fun r v' => Mid v' (withIp r R) r.toList ∧ Quiet v v' ∧ Stays R 1 v v' ∧
    g = .ok (r.map (fun ip => (v'.inode ip).inum))) (fun e => g = .error e) v

/-- What is done with the inode that `namex` returns. -/
def lockedAt (m : Ip → FM (Option Ip)) : Option (Ip × Bytes) → FM (Option Ip)
  | none => return none
  | some (ip, _) => do
    ilock ip
    m ip

section Finds
variable {cwd : Ip} (h : Mid v R []) (hg : Good v R) (hcwd : cwd ∈ R) {path nm : Bytes} {e : Panic}
include h hg hcwd

theorem resolve_of_namei (ho : nameiInum v cwd path = .ok o) :
    ∃ o', resolve (room v R) (tree v) (v.inode cwd).inum path false = .ok o' ∧ o'.map Prod.fst = o := by
  rw [nameiInum_eq path h hg hcwd] at ho
  cases hr : resolve (room v R) (tree v) (v.inode cwd).inum path false with
  | error e =>
    rw [hr] at ho
    cases ho
  | ok o' =>
    rw [hr] at ho
    exact ⟨o', rfl, Except.ok.inj ho⟩

theorem follow_links (hl : Links v cwd i k j) : ∀ left,
    follow (room v R) (tree v) (v.inode cwd).inum false (left + k) i =
    follow (room v R) (tree v) (v.inode cwd).inum false left j := by
  induction hl with
  | nil i => exact fun left => rfl
  | @cons i j k l n hn ht hb hj hu _ ih =>
    intro left
    obtain ⟨o, hres, ho⟩ := resolve_of_namei h hg hcwd hj
    obtain ⟨⟨j', nm⟩, rfl, rfl⟩ := map_eq_some_iff.1 ho
    rw [← add_assoc, follow, hn]
    dsimp only
    rw [if_neg (by rw [ht]; simp), if_neg hb, hres]
    dsimp only
    rw [if_neg hu]
    exact ih left

theorem finds_links (hi : nameiInum v cwd path = .ok (some i)) (hu : tree v i ≠ none)
    (hl : Links v cwd i k j) (hk : left + k = maxSymlinkDepth) :
    finds false (room v R) (tree v) (v.inode cwd).inum path = follow (room v R) (tree v) (v.inode cwd).inum false left j := by
  obtain ⟨o, hres, ho⟩ := resolve_of_namei h hg hcwd hi
  obtain ⟨⟨i', nm⟩, rfl, rfl⟩ := map_eq_some_iff.1 ho
  unfold finds findsBy
  rw [hres]
  dsimp only
  rw [if_neg hu, ← hk]
  exact follow_links h hg hcwd hl left

theorem namePanics_of_resolve
    (he : resolve (room v R) (tree v) (v.inode cwd).inum path false = .error e) : NamePanics v cwd e := by
  refine ⟨path, .inl ?_⟩
  rw [nameiInum_eq path h hg hcwd, he]
  rfl

theorem namePanics_of_free
    (hr : resolve (room v R) (tree v) (v.inode cwd).inum path false = .ok (some (j, nm))) (hj : tree v j = none) :
    NamePanics v cwd .ilockNoType := by
  refine ⟨path, .inr ⟨rfl, j, ?_, hj⟩⟩
  rw [nameiInum_eq path h hg hcwd, hr]
  rfl

theorem follow_panics : ∀ {left i : Nat}, tree v i ≠ none →
    follow (room v R) (tree v) (v.inode cwd).inum false left i = .error e → NamePanics v cwd e
  | 0, i, _, he => by cases he
  | left + 1, i, hi, he => by
    unfold follow at he
    cases hn : tree v i with
    | none => exact absurd hn hi
    | some n =>
      rw [hn] at he
      dsimp only at he
      split at he
      · cases he
      split at he
      · cases he
      cases hr : resolve (room v R) (tree v) (v.inode cwd).inum (targetOf n) false with
      | error e' =>
        rw [hr] at he
        cases he
        exact namePanics_of_resolve h hg hcwd hr
      | ok o =>
        rw [hr] at he
        cases o with
        | none => cases he
        | some o =>
          dsimp only at he
          split at he
          · rename_i hj
            cases he
            exact namePanics_of_free h hg hcwd hr hj
          · rename_i hj
            exact follow_panics hj he

theorem finds_panics (he : finds false (room v R) (tree v) (v.inode cwd).inum path = .error e) : NamePanics v cwd e := by
  unfold finds findsBy at he
  cases hr : resolve (room v R) (tree v) (v.inode cwd).inum path false with
  | error e' =>
    rw [hr] at he
    cases he
    exact namePanics_of_resolve h hg hcwd hr
  | ok o =>
    rw [hr] at he
    cases o with
    | none => cases he
    | some o =>
      dsimp only at he
      split at he
      · rename_i hj
        cases he
        exact namePanics_of_free h hg hcwd hr hj
      · rename_i hj
        exact follow_panics h hg hcwd hj he

theorem namex_findsBy {m : Ip → FM (Option Ip)} {last : Nat → Except Panic (Option Nat)}
    (hm : ∀ ip v2, Mid v2 (ip ::ₘ R) [ip] → Quiet v v2 → Stays R 1 v v2 → Finds R (last (v2.inode ip).inum) (m ip) v2) :
    Finds R (findsBy last (room v R) (tree v) (v.inode cwd).inum path) (namex cwd path false >>= lockedAt m) v := by
  unfold Finds findsBy
  rw [wp_bind]
  apply wp_mono (namex_spec h hg hcwd)
  · rintro r v1 ⟨h1, hq1, hst1, hres⟩
    rw [hres]
    cases r with
    | none => exact ⟨h1, hq1, hst1, rfl⟩
    | some r =>
      obtain ⟨ip, nm⟩ := r
      have hipR : ip ∈ ip ::ₘ R := mem_cons_self _ _
      have hle : R ≤ ip ::ₘ R := le_cons_self _ _
      dsimp only [inumsOf, map_some]
      unfold lockedAt
      rw [wp_bind]
      by_cases hj : tree v (v1.inode ip).inum = none
      · rw [if_pos hj]
        refine wp_use (ilock_spec h1 hipR (.inl List.not_mem_nil) (.inl rfl)) (fun _ v2 ⟨_, h2, hq2, hst2⟩ => ?_)
        have hused := h2.used List.mem_cons_self
        rw [hq2.tree, hq1.tree, hst2.inum ip hipR] at hused
        exact absurd hj hused
      · rw [if_neg hj]
        apply wp_use (ilock_spec h1 hipR (.inl List.not_mem_nil) (.inr (by rw [hq1.tree]; exact hj)))
        rintro _ v2 ⟨-, h2, hq2, hst2⟩
        have hq := hq1.trans hq2
        have hst : Stays R 1 v v2 := hst1.trans (hst2.mono hle le_rfl)
        have hfinds := hm ip v2 h2 hq hst
        rw [hst2.inum ip hipR] at hfinds
        exact wp_use hfinds (fun r v3 ⟨h3, hq3, hst3, hw⟩ => ⟨h3, hq.trans hq3, hst.trans hst3, hw⟩)
  · intro e he
    rw [he]

omit h hg hcwd in
theorem openInode_eq (hc : has omode oCreate = false) : openInode cwd path omode =
    namex cwd path false >>= lockedAt (fun ip => followSymlink cwd ip (has omode oNofollow) maxSymlinkDepth) := by
  unfold openInode namei
  rw [hc, if_neg (by decide), LawfulMonad.bind_assoc]
  congr 1
  funext r
  cases r with
  | none => rfl
  | some r => rfl

theorem openInode_exact (hc : has omode oCreate = false) :
    Finds R (finds (has omode oNofollow) (room v R) (tree v) (v.inode cwd).inum path) (openInode cwd path omode) v := by
  rw [openInode_eq hc]
  refine namex_findsBy h hg hcwd (fun ip v2 h2 hq hst => ?_)
  have hfollow := followSymlink_spec (has omode oNofollow) maxSymlinkDepth v2 ip h2 (hg.quiet hq hst) hcwd
  rwa [hst.room, hq.tree, hst.inum cwd hcwd] at hfollow

end Finds

/-! ## `sys_open` -/

/-- What `sys_open` comes to, by the inode it finds. -/
def Outcome (s : FsState) (p : Slot) (x : Proc) (omode : Nat) (r : Int) (s' : FsState) : Option Nat → Prop
  | none => r = -1 ∧ s'.ftable = s.ftable ∧ s'.proc = s.proc ∧ s'.vol.peak ≤ max s.vol.peak 1
  | some i => OpensInode s p x omode i r s' ∧ (Held (began s.vol) (holders s) i ∨ ∃ a, a ∉ holders s)

theorem sysOpen_by {str : Bytes} {g : Except Panic (Option Nat)} (hi : Inv s) (hstr : argstr path = some str)
    (hfind : Finds (holders s) g (openInode x.cwd str omode) (began s.vol)) : wp (sysOpen p x path omode)
      (fun r s' => ∃ o, g = .ok o ∧ Outcome s p x omode r s' o) (fun e => g = .error e) s := by
  have hg := (began_base hi.base).good
  unfold sysOpen beginOp
  rw [hstr]
  rw [wp_bind, wp_onVol, wp_modify, wp_bind, wp_onVol]
  apply wp_use hfind
  rintro r v1 ⟨h1, hq1, hst1, hf⟩
  cases r with
  | none =>
    rw [wp_bind, wp_onVol]
    apply wp_use (medium_ended v1)
    rintro _ v2 ⟨-, -, hpk⟩
    refine ⟨none, hf, rfl, rfl, rfl, ?_⟩
    rw [hpk]
    exact hst1.peak
  | some ip =>
    have hroom : Held (began s.vol) (holders s) (v1.inode ip).inum ∨ ∃ a, a ∉ holders s := by
      by_cases ha : ip ∈ holders s
      · exact .inl ⟨ip, ha, (hst1.inum ip ha).symm⟩
      · exact .inr ⟨ip, ha⟩
    apply wp_use (openLocked_exact hi h1 (hg.quiet hq1 hst1) (medium_same hq1 hst1) hst1 rfl)
    intro r s' ho
    exact ⟨_, hf, ho, hroom⟩

theorem sysOpen_finds {str : Bytes} {g : Except Panic (Option Nat)} (hi : Inv s) (hstr : argstr path = some str)
    (hfind : Finds (holders s) g (openInode x.cwd str omode) (began s.vol)) (hg : g = .ok o) :
    ∃ r s', (sysOpen p x path omode).run s = .ok (r, s') ∧ Outcome s p x omode r s' o := by
  have hw := sysOpen_by (p := p) hi hstr hfind
  cases hr : (sysOpen p x path omode).run s with
  | error e =>
    have hnot := wp_of_error hw hr
    rw [hg] at hnot
    cases hnot
  | ok a =>
    obtain ⟨o', ho', hout⟩ := wp_of_ok hw hr
    rw [hg] at ho'
    cases ho'
    exact ⟨a.1, a.2, rfl, hout⟩

/-- **`open` follows links**: what `sys_open` does, by the chain of links that the path names. -/
structure FollowsLinks (s : FsState) (p : Slot) (x : Proc) (path : Option Bytes) (omode : Nat) : Prop where
  missing : (∀ str, argstr path = some str → nameiInum s.vol x.cwd str = .ok none) →
    ∃ s', (sysOpen p x path omode).run s = .ok (-1, s')
  reaches : ∀ str i k j n, argstr path = some str → nameiInum s.vol x.cwd str = .ok (some i) →
    Links s.vol x.cwd i k j → k ≤ 9 →
    tree s.vol j = some n → n.type ≠ .symlink → ∃ r s1 s2, (sysOpen p x path omode).run s = .ok (r, s1) ∧
      (openDirect p x j omode).run s = .ok (r, s2) ∧ Alike s1 s2
  dangles : ∀ str i k j n, argstr path = some str → nameiInum s.vol x.cwd str = .ok (some i) →
    Links s.vol x.cwd i k j → k ≤ 9 →
    tree s.vol j = some n → n.type = .symlink → n.bytes = [] ∨ nameiInum s.vol x.cwd (targetOf n) = .ok none →
    ∃ s', (sysOpen p x path omode).run s = .ok (-1, s')
  long : ∀ str i j, argstr path = some str → nameiInum s.vol x.cwd str = .ok (some i) → Links s.vol x.cwd i 10 j →
    ∃ s', (sysOpen p x path omode).run s = .ok (-1, s')
  panics : ∀ e, (sysOpen p x path omode).run s = .error e → NamePanics s.vol x.cwd e
  clean : ∀ r s', (sysOpen p x path omode).run s = .ok (r, s') → s'.vol.locks = [] ∧ s'.vol.peak ≤ max s.vol.peak 1 ∧
    (r = -1 → ∀ a, (s'.vol.inode a).ref = (s.vol.inode a).ref)

section Open
variable {path : Option Bytes} {str : Bytes} {omode : Nat} (hi : Inv s) (hx : s.proc p = some x)
  (hc : has omode oCreate = false) (hn : has omode oNofollow = false)
include hi hx hc hn

omit hi hx hc hn in
theorem openInode_began (hi : Inv s) (hx : s.proc p = some x) (hc : has omode oCreate = false) :
    Finds (holders s) (finds (has omode oNofollow) (room s.vol (holders s)) (tree s.vol) (s.vol.inode x.cwd).inum str)
      (openInode x.cwd str omode) (began s.vol) :=
  openInode_exact (began_mid hi.mid) (began_base hi.base).good (mem_holders hx) hc

theorem sysOpen_exact : Finds (holders s) (finds false (room s.vol (holders s)) (tree s.vol) (s.vol.inode x.cwd).inum str)
    (openInode x.cwd str omode) (began s.vol) := by
  rw [← hn]
  exact openInode_began hi hx hc

theorem sysOpen_fails (hstr : argstr path = some str)
    (hf : finds false (room s.vol (holders s)) (tree s.vol) (s.vol.inode x.cwd).inum str = .ok none) :
    ∃ s', (sysOpen p x path omode).run s = .ok (-1, s') := by
  obtain ⟨r, s', hr, rfl, -⟩ := sysOpen_finds (p := p) hi hstr (sysOpen_exact hi hx hc hn) hf
  exact ⟨s', hr⟩

theorem sysOpen_same (hr : (sysOpen p x path omode).run s = .ok (r, s')) :
    s'.vol.peak ≤ max s.vol.peak 1 ∧ (r = -1 → s'.ftable = s.ftable ∧ s'.proc = s.proc) := by
  cases hstr : argstr path with
  | none =>
    unfold sysOpen at hr
    rw [hstr] at hr
    cases hr
    exact ⟨le_max_left _ _, fun _ => ⟨rfl, rfl⟩⟩
  | some str =>
    obtain ⟨o, -, ho⟩ := wp_of_ok (sysOpen_by hi hstr (sysOpen_exact hi hx hc hn)) hr
    cases o with
    | none => exact ⟨ho.2.2.2, fun _ => ⟨ho.2.1, ho.2.2.1⟩⟩
    | some i =>
      have hout := ho.1.out
      refine ⟨ho.1.peak, fun h1 => ?_⟩
      cases he : entriesFor s x (s.vol.dinode i) omode with
      | none =>
        rw [he] at hout
        exact ⟨hout.2.1, hout.2.2.1⟩
      | some e =>
        rw [he] at hout
        omega

end Open

theorem Links.used (h : Links v cwd i k j) (hj : tree v j ≠ none) : tree v i ≠ none := by
  cases h with
  | nil => exact hj
  | cons hn =>
    rw [hn]
    exact some_ne_none _

theorem Links.last (h : Links v cwd i k j) : k ≠ 0 → tree v j ≠ none := by
  induction h with
  | nil => exact fun h0 => absurd rfl h0
  | @cons i j k l n _ _ _ _ hu hl ih =>
    intro _
    by_cases hk : k = 0
    · subst hk
      cases hl
      exact hu
    · exact ih hk

theorem followsLinks (hi : Inv s) (hx : s.proc p = some x) (hc : has omode oCreate = false)
    (hn : has omode oNofollow = false) : FollowsLinks s p x path omode := by
  have hmid : Mid s.vol (holders s) [] := hi.mid
  have hg : Good s.vol (holders s) := hi.base.good
  have hcwd := mem_holders hx
  constructor
  · intro hno
    cases hstr : argstr path with
    | none =>
      unfold sysOpen
      rw [hstr]
      exact ⟨s, rfl⟩
    | some str =>
      obtain ⟨o, hres, ho⟩ := resolve_of_namei hmid hg hcwd (hno str hstr)
      rw [map_eq_none_iff] at ho
      apply sysOpen_fails hi hx hc hn hstr
      unfold finds findsBy
      rw [hres, ho]
  · intro str i k j n hstr hstart hl hk hj ht
    have hu : tree s.vol j ≠ none := by
      rw [hj]
      exact some_ne_none _
    obtain ⟨left, hleft⟩ : ∃ left, left + 1 + k = maxSymlinkDepth := ⟨9 - k, by unfold maxSymlinkDepth; omega⟩
    have hf := finds_links hmid hg hcwd hstart (hl.used hu) hl hleft
    unfold follow at hf
    rw [hj] at hf
    dsimp only at hf
    rw [if_pos (.inl ht)] at hf
    obtain ⟨r, s1, hr, ho, hroom⟩ := sysOpen_finds (p := p) hi hstr (sysOpen_exact hi hx hc hn) hf
    have hdirect : wp (openDirect p x j omode) (fun r => OpensInode s p x omode j r) _ s := openDirect_spec hi hu hroom
    obtain ⟨r', s2, hr', ho'⟩ := wp_run hdirect
    obtain ⟨rfl, halike⟩ := ho.alike hx ho'
    exact ⟨r', s1, s2, hr, hr', halike⟩
  · intro str i k j n hstr hstart hl hk hj ht hbad
    have hu : tree s.vol j ≠ none := by
      rw [hj]
      exact some_ne_none _
    obtain ⟨left, hleft⟩ : ∃ left, left + 1 + k = maxSymlinkDepth := ⟨9 - k, by unfold maxSymlinkDepth; omega⟩
    apply sysOpen_fails hi hx hc hn hstr
    rw [finds_links hmid hg hcwd hstart (hl.used hu) hl hleft, follow, hj]
    dsimp only
    rw [if_neg (by rw [ht]; simp)]
    by_cases hb : n.bytes = []
    · rw [if_pos hb]
    · obtain ⟨o, hres, ho⟩ := resolve_of_namei hmid hg hcwd (hbad.resolve_left hb)
      rw [map_eq_none_iff] at ho
      rw [if_neg hb, hres, ho]
  · intro str i j hstr hstart hl
    apply sysOpen_fails hi hx hc hn hstr
    rw [finds_links hmid hg hcwd hstart (hl.used (hl.last (by decide))) hl (zero_add 10)]
    rfl
  · intro e he
    cases hstr : argstr path with
    | none =>
      unfold sysOpen at he
      rw [hstr] at he
      cases he
    | some str =>
      have hf := wp_of_error (sysOpen_by hi hstr (sysOpen_exact hi hx hc hn)) he
      exact finds_panics hmid hg hcwd hf
  · intro r s' hr
    have hret := (wp_of_ok (program_spec (.open path omode) hi hx (excused_mild _)) hr).1
    have hbal := hret.inv.balanced
    obtain ⟨hpeak, hsame⟩ := sysOpen_same hi hx hc hn hr
    refine ⟨hbal.locks, hpeak, fun h1 a => ?_⟩
    obtain ⟨hft, hpr⟩ := hsame h1
    have hfiles : openInodes s' = openInodes s := by
      unfold openInodes
      rw [hft]
    have hdirs : workDirs s' = workDirs s := by
      unfold workDirs
      rw [hpr]
    rw [hbal.inodes a, hi.balanced.inodes a, hfiles, hdirs]

def counted (s : FsState) : FsState := { s with vol := { s.vol with peak := 0 } }

theorem counted_inv (h : Inv s) : Inv (counted s) := by
  obtain ⟨hm, hb, hidle, hfiles, htyped, hopened, hpipes⟩ := h
  exact ⟨⟨hm.refs, hm.locks, hm.nodup, hm.locked, hm.uniq, hm.coherent, hm.inum, hm.marks, hm.full, hm.reads,
    ⟨hm.synced.dinode, hm.synced.bit, hm.synced.ind⟩, hm.nlink, hm.outside⟩, ⟨hb.good, hb.alloc⟩,
    ⟨hidle.logged, hidle.outstanding, hidle.halted⟩, hfiles, htyped, hopened, hpipes⟩

/-- **`open` of a path follows the chain of links it names**, in every state of every run: up to nine links lead to the
outcome of opening the last inode directly, and a link that dangles or is empty, or a tenth, to -1; one inode is locked at a
time. -/
theorem open_follows {im : Image} (him : Consistent im) {calls : List (Slot × Call)} {s : FsState} {p : Slot} {x : Proc}
    {path : Option Bytes} {omode : Nat} (hs : Run.run fsStep (start im) calls = some s) (hp : s.panic = none)
    (hx : s.proc p = some x) (hc : has omode oCreate = false) (hn : has omode oNofollow = false) :
    FollowsLinks (counted s) p x path omode :=
  followsLinks (counted_inv (reached_inv him hs hp)) hx hc hn

def linkCalls : List (Slot × Call) := [(initSlot, .open (some [102]) 0x202), (initSlot, .symlink (some [102]) (some [108]))]

/-- The link leads to the file. -/
theorem open_follows_link : ∃ s x, Run.run fsStep (start rootImage) linkCalls = some s ∧ s.proc initSlot = some x ∧
    Links (counted s).vol x.cwd 3 1 2 ∧ FollowsLinks (counted s) initSlot x (some [108]) oRdwr ∧
    ∃ r s1 s2, (sysOpen initSlot x (some [108]) oRdwr).run (counted s) = .ok (r, s1) ∧
      (openDirect initSlot x 2 oRdwr).run (counted s) = .ok (r, s2) ∧ Alike s1 s2 := by
  obtain ⟨s, x, hs, hx, hp, h3, hn3, h2, hn2⟩ := holds_of_eval rootImage linkCalls initSlot (fun s x => s.panic = none ∧
    (nameiInum (counted s).vol x.cwd [108]).toOption = some (some 3) ∧
    (tree (counted s).vol 3).map (fun n => (n.type, n.bytes)) = some (.symlink, [102]) ∧
    (nameiInum (counted s).vol x.cwd [102]).toOption = some (some 2) ∧
    (tree (counted s).vol 2).map Node.type = some .file) (by decide +kernel)
  obtain ⟨n3, ht3, he3⟩ := map_eq_some_iff.1 hn3
  obtain ⟨n2, ht2, he2⟩ := map_eq_some_iff.1 hn2
  obtain ⟨hty3, hb3⟩ := Prod.mk.inj he3
  have hlink : Links (counted s).vol x.cwd 3 1 2 := by
    refine .cons ht3 hty3 (by rw [hb3]; decide) ?_ (by rw [ht2]; exact some_ne_none _) (.nil 2)
    have htarget : targetOf n3 = [102] := by
      unfold targetOf
      rw [hb3]
      decide
    rw [htarget]
    exact ok_of_toOption h2
  have hfollows : FollowsLinks (counted s) initSlot x (some [108]) oRdwr :=
    open_follows rootImage_consistent hs hp hx (by decide) (by decide)
  refine ⟨s, x, hs, hx, hlink, hfollows, hfollows.reaches [108] 3 1 2 n2 (by decide) (ok_of_toOption h3) hlink
    (by decide) ht2 ?_⟩
  rw [he2]
  decide

end Xv6.Fs
