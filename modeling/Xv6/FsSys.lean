import Xv6.FsRes
/-!
# FsSys — the file-system calls

Between two calls the descriptors and working directories of the processes are what the system holds (`Inv`). Every call keeps
this, on each of its paths, and `Effect` says what it does to the tree.
-/
namespace Xv6.Fs

open Function Multiset Wp
variable {s : FsState} {C R : Multiset Ip} {U : Multiset Fp} {F : Panic → Prop} {p : Slot} {x : Proc}

/-! ## The processes -/

theorem nodup_fds : fds.Nodup := List.nodup_finRange 16

theorem mem_fds (fd : Fin 16) : fd ∈ fds := List.mem_finRange fd

def cwdRef (x : Option Proc) : Multiset Ip :=
  match x with
  | none => 0
  | some x => {x.cwd}

def fdRef (f : Option Fp) : Multiset Fp :=
  match f with
  | none => 0
  | some f => {f}

def ofiles (x : Option Proc) : Multiset Fp :=
  match x with
  | none => 0
  | some x => (fds.map (fun fd => fdRef (x.ofile fd))).sum

def cwds (s : FsState) : Multiset Ip := (procs.map (fun p => cwdRef (s.proc p))).sum

def uses (s : FsState) : Multiset Fp := (procs.map (fun p => ofiles (s.proc p))).sum

/-- **What holds between two calls.** -/
def Inv (s : FsState) : Prop := Res s (cwds s) (uses s)

theorem sum_update {M : Type} [AddCommMonoid M] (g : Option Proc → M) (proc : Slot → Option Proc) (p : Slot)
    (y : Option Proc) :
    (procs.map (fun q => g (update proc p y q))).sum + g (proc p) = (procs.map (fun q => g (proc q))).sum + g y := by
  have h := Sum.sum_map_change (g := fun q => g (update proc p y q)) nodup_procs
    (mem_procs p) (fun q _ hne => by rw [update_of_ne hne])
  rwa [update_self] at h

variable {s' s'' s1 : FsState} {fd answer n : Int} {path arg target : Option Bytes} {src str : Bytes}
  {y : Option Proc}

theorem cwds_update (h : s'.proc = update s.proc p y) : cwds s' + cwdRef (s.proc p) = cwds s + cwdRef y := by
  unfold cwds
  rw [h]
  exact sum_update cwdRef s.proc p y

theorem uses_update (h : s'.proc = update s.proc p y) : uses s' + ofiles (s.proc p) = uses s + ofiles y := by
  unfold uses
  rw [h]
  exact sum_update ofiles s.proc p y

theorem ofiles_update (x : Proc) (fd : Fin 16) (o : Option Fp) :
    ofiles (some { x with ofile := update x.ofile fd o }) + fdRef (x.ofile fd) = ofiles (some x) + fdRef o := by
  have h := Sum.sum_map_change (g := fun i => fdRef (update x.ofile fd o i)) nodup_fds
    (mem_fds fd) (fun i _ hne => by rw [update_of_ne hne])
  rwa [update_self] at h

section
variable (hx : s.proc p = some x)
include hx

theorem uses_ofile {fd : Fin 16} {o : Option Fp}
    (h : s'.proc = update s.proc p (some { x with ofile := update x.ofile fd o })) :
    cwds s' = cwds s ∧ uses s' + fdRef (x.ofile fd) = uses s + fdRef o := by
  have hc := cwds_update h
  have hu := uses_update h
  have ho := ofiles_update x fd o
  rw [hx] at hc hu
  constructor
  · exact add_right_cancel hc
  · apply add_right_cancel
    rw [add_right_comm, hu, add_assoc, ho, add_assoc, add_comm (fdRef o)]

theorem mem_cwds : x.cwd ∈ cwds s := by
  refine Sum.mem_sum_map.2 ⟨p, mem_procs p, ?_⟩
  rw [hx]
  exact Multiset.mem_singleton_self _

variable {f : Fp} {m m' : Node} {v' v : Vol} {copied : Bool}

theorem mem_uses {fd : Fin 16} (hf : x.ofile fd = some f) : f ∈ uses s := by
  refine Sum.mem_sum_map.2 ⟨p, mem_procs p, ?_⟩
  rw [hx]
  refine Sum.mem_sum_map.2 ⟨fd, mem_fds fd, ?_⟩
  rw [hf]
  exact Multiset.mem_singleton_self _

end

theorem argfd_some {r : Fin 16 × Fp} (h : argfd x fd = some r) : x.ofile r.1 = some r.2 := by
  unfold argfd at h
  split at h
  · cases h
  · obtain ⟨f, hf, rfl⟩ := Option.map_eq_some_iff.1 h
    exact hf

/-! ## What a call does to the tree -/

/-- What `open` does: the file is made if it is asked for, or emptied; an inode without links may be given up where it fails.
-/
def Opens (t : Tree) (cwd : Nat) (path : Option Bytes) (omode : Nat) (t' : Tree) : Prop :=
  ∃ t1, (t1 = t ∨ has omode oCreate = true ∧ ∃ str o, argstr path = some str ∧ Created t cwd str .file 0 0 o t1) ∧
    (Shrinks t1 t' ∨ ∃ i n, t1 i = some n ∧ n.type = .file ∧ t' = update t1 i (some { n with bytes := [] }))

def Writes (s : FsState) (x : Proc) (fd : Int) (t' : Tree) : Prop :=
  ∃ r n bytes, argfd x fd = some r ∧ (s.ftable r.2).type = .inode ∧ (s.ftable r.2).writable = true ∧
    tree s.vol (s.vol.inode (s.ftable r.2).ip).inum = some n ∧ n.type ≠ .dir ∧
    t' = update (tree s.vol) (s.vol.inode (s.ftable r.2).ip).inum (some { n with bytes := bytes })

/-- **What a call does to the tree**, when it returns `r`. -/
def Effect (s : FsState) (x : Proc) (c : Call) (r : Int) (t' : Tree) : Prop :=
  match c with
  | .open path omode => Opens (tree s.vol) (s.vol.inode x.cwd).inum path omode t'
  | .write fd _ _ _ => t' = tree s.vol ∨ Writes s x fd t'
  | .mkdir path => Made (tree s.vol) (s.vol.inode x.cwd).inum path .dir 0 0 r t'
  | .mknod path major minor => Made (tree s.vol) (s.vol.inode x.cwd).inum path .device (short major) (short minor) r t'
  | .link old new => r = -1 ∧ t' = tree s.vol ∨ ∃ o n, argstr old = some o ∧ argstr new = some n ∧
      Linked (tree s.vol) (s.vol.inode x.cwd).inum o n r t'
  | .symlink target path => r = -1 ∧ t' = tree s.vol ∨ ∃ tg str, argstr target = some tg ∧ argstr path = some str ∧
      Symlinked (tree s.vol) (s.vol.inode x.cwd).inum tg str r t'
  | .unlink path => r = -1 ∧ t' = tree s.vol ∨ ∃ str, argstr path = some str ∧
      Unlinked (tree s.vol) (s.vol.inode x.cwd).inum str r t'
  | .close _ | .chdir _ | .exit => Shrinks (tree s.vol) t'
  | .dup _ | .pipe _ _ | .fstat _ _ | .read _ _ _ _ | .exec _ _ _ _ _ | .fork _ => t' = tree s.vol

/-! ## Calls that change the volume alone -/

def holders (s : FsState) : Multiset Ip := cwds s + fileIps s.ftable

/-- **A call has returned.** -/
structure Ret (s s' : FsState) : Prop where
  inv : Inv s'
  did : Did 0 s.vol s'.vol
  panic : s'.panic = s.panic

theorem Ret.refl (h : Inv s) : Ret s s := ⟨h, Did.refl _ _, rfl⟩

theorem Ret.vol (h : Inv s) (hm : Mid v' (holders s) []) (hb : Base v' (holders s)) (hi : Idle v')
    (hd : Did (holders s) s.vol v') : Ret s { s with vol := v' } :=
  ⟨Res.vol h hm hb hi hd, hd.mono (Multiset.zero_le _), rfl⟩

theorem mem_holders (hx : s.proc p = some x) : x.cwd ∈ holders s := Multiset.mem_add.2 (Or.inl (mem_cwds hx))

theorem wp_volOp {α : Type} {m : FM α} {E : α → Tree → Prop} (h : Inv s)
    (hm : wp m (fun r v' => (∃ k ≤ 7, Ends (holders s) k (began s.vol) v') ∧ E r (tree v')) F (began s.vol)) :
    wp beginOp (fun _ v1 => wp m (fun r v2 => wp endOp (fun _ v3 =>
      Ret s { s with vol := v3 } ∧ E r (tree v3)) F v2) F v1) F s.vol := by
  apply wp_op (Res.idle h)
  apply wp_use hm
  rintro r v' ⟨⟨k, hk, hmid, hbase, I, hI, hran⟩, hE⟩
  refine ⟨holders s, 3, I, k, hmid, hran, ?_, fun v'' h'' hi'' hd ht hin => ?_⟩
  · unfold maxOpBlocks
    omega
  · rw [ht]
    exact ⟨Ret.vol h h'' (hbase.congr ht hin) hi'' hd, hE⟩

theorem sysLink_spec {old new : Option Bytes} (h : Inv s) (hx : s.proc p = some x) (hF : Excused F (tree s.vol)) :
    wp (sysLink x old new) (fun r s' => Ret s s' ∧ Effect s x (.link old new) r (tree s'.vol)) F s := by
  unfold sysLink
  split
  · rename_i o n ho hn
    simp only [wp_bind, wp_onVol]
    apply wp_volOp h
    apply wp_use (link_spec (began_mid h.mid) (began_base h.base) (mem_holders hx) hF)
    rintro r v' ⟨hends, hlink⟩
    exact ⟨⟨2, by decide, hends⟩, .inr ⟨o, n, ho, hn, hlink⟩⟩
  · exact ⟨Ret.refl h, .inl ⟨rfl, rfl⟩⟩

theorem sysUnlink_spec (h : Inv s) (hx : s.proc p = some x) (hF : Excused F (tree s.vol)) :
    wp (sysUnlink x path) (fun r s' => Ret s s' ∧ Effect s x (.unlink path) r (tree s'.vol)) F s := by
  unfold sysUnlink
  cases hstr : argstr path with
  | none => exact ⟨Ret.refl h, .inl ⟨rfl, rfl⟩⟩
  | some str =>
    simp only [wp_bind, wp_onVol]
    apply wp_volOp h
    apply wp_use (unlink_spec (began_mid h.mid) (began_base h.base) (mem_holders hx) hF)
    rintro r v' ⟨hends, hunlink⟩
    exact ⟨⟨2, by decide, hends⟩, .inr ⟨str, hstr, hunlink⟩⟩

theorem argstr_length (h : argstr arg = some str) : str.length < maxpath := by
  unfold argstr at h
  split at h
  · cases h
  dsimp only at h
  split at h
  · cases h
    assumption
  · cases h

theorem sysSymlink_spec (h : Inv s) (hx : s.proc p = some x) (hF : Excused F (tree s.vol)) :
    wp (sysSymlink x target path) (fun r s' => Ret s s' ∧ Effect s x (.symlink target path) r (tree s'.vol)) F s := by
  unfold sysSymlink
  split
  · rename_i tg str htg hstr
    simp only [wp_bind, wp_onVol]
    apply wp_volOp h
    apply wp_use (symlink_spec (began_mid h.mid) (began_base h.base) (mem_holders hx) (argstr_length htg) hF)
    rintro r v' ⟨hends, hsym⟩
    exact ⟨⟨4, by decide, hends⟩, .inr ⟨tg, str, htg, hstr, hsym⟩⟩
  · exact ⟨Ret.refl h, .inl ⟨rfl, rfl⟩⟩

theorem sysMkdir_spec (h : Inv s) (hx : s.proc p = some x) (hF : Excused F (tree s.vol)) :
    wp (sysMkdir x path) (fun r s' => Ret s s' ∧ Effect s x (.mkdir path) r (tree s'.vol)) F s := by
  unfold sysMkdir
  simp only [wp_bind, wp_onVol]
  apply wp_volOp h
  apply wp_use (makeNode_spec (began_mid h.mid) (began_base h.base) (mem_holders hx) (by decide) (by decide) hF)
  rintro r v' ⟨hends, hmade⟩
  exact ⟨⟨6, by decide, hends⟩, hmade⟩

theorem sysMknod_spec {major minor : Int} (h : Inv s) (hx : s.proc p = some x) (hF : Excused F (tree s.vol)) :
    wp (sysMknod x path major minor) (fun r s' => Ret s s' ∧ Effect s x (.mknod path major minor) r (tree s'.vol)) F s := by
  unfold sysMknod
  simp only [wp_bind, wp_onVol]
  apply wp_volOp h
  apply wp_use (makeNode_spec (began_mid h.mid) (began_base h.base) (mem_holders hx) (by decide) (by decide) hF)
  rintro r v' ⟨hends, hmade⟩
  exact ⟨⟨2, by decide, hends⟩, hmade⟩

theorem sysExec_spec {args pt : Bool} {mem : List Bool} (h : Inv s) (hx : s.proc p = some x)
    (hF : Excused F (tree s.vol)) : wp (sysExec x path args pt mem answer) (fun r s' => Ret s s' ∧
      Effect s x (.exec path args pt mem answer) r (tree s'.vol)) F s := by
  unfold sysExec
  cases argstr path with
  | none => exact ⟨Ret.refl h, rfl⟩
  | some str =>
    apply wp_ite
    · intro _
      exact ⟨Ret.refl h, rfl⟩
    intro _
    simp only [wp_bind, wp_onVol]
    apply wp_volOp h
    apply wp_use (loadFile_spec (began_mid h.mid) (began_base h.base) (mem_holders hx) hF)
    rintro r v' ⟨h', hq, hst⟩
    exact ⟨⟨0, by decide, Ends.quiet h' (began_base h.base) hq (hst.mono le_rfl (by decide))⟩, hq.tree⟩

/-! ## `read`, `fstat` and `write` -/

theorem Res.quiet {n : Nat} (h : Res s C U) (hm : Mid v' (C + fileIps s.ftable) []) (hq : Quiet s.vol v')
    (hst : Stays (C + fileIps s.ftable) n s.vol v') : Res { s with vol := v' } C U :=
  h.vol hm (h.base.quiet hq hst) (h.idle.quiet hq) hst.did

theorem mem_ip (ht : (s.ftable f).type = .inode ∨ (s.ftable f).type = .device) :
    (s.ftable f).ip ∈ C + fileIps s.ftable := Multiset.mem_add.2 (Or.inr (mem_fileIps ht))

theorem filestat_spec (h : Inv s) : wp (filestat f copied) (fun _ s' => Ret s s' ∧ tree s'.vol = tree s.vol) F s := by
  have hlock : (s.ftable f).type = .inode ∨ (s.ftable f).type = .device →
      wp (do onVol (ilock (s.ftable f).ip); onVol (iunlock (s.ftable f).ip); return if copied then (0 : Int) else -1)
        (fun _ s' => Ret s s' ∧ tree s'.vol = tree s.vol) F s := by
    intro ht
    have hip := mem_ip (C := cwds s) ht
    simp only [wp_bind, wp_onVol]
    apply wp_use (ilock_spec h.mid hip (.inl List.not_mem_nil) (.inr (h.base.alloc _ hip)))
    rintro _ v1 ⟨-, h1, hq1, hst1⟩
    apply wp_use (iunlock_spec h1)
    rintro _ v2 ⟨h2, hq2, hst2⟩
    have hst := hst1.trans (hst2.mono le_rfl (Nat.zero_le _))
    exact ⟨⟨Res.quiet h h2 (hq1.trans hq2) hst, hst.did.mono (Multiset.zero_le _), rfl⟩, (hq1.trans hq2).tree⟩
  unfold filestat
  rw [wp_bind, wp_get]
  dsimp only
  cases ht : (s.ftable f).type with
  | none => exact ⟨Ret.refl h, rfl⟩
  | pipe => exact ⟨Ret.refl h, rfl⟩
  | inode => exact hlock (.inl ht)
  | device => exact hlock (.inr ht)

theorem Res.off {y : File} (h : Res s C U) (hy : y = { s.ftable f with off := y.off }) :
    Res { s with ftable := update s.ftable f y } C U := by
  have href : y.ref = (s.ftable f).ref := by rw [hy]
  refine h.recount (by rw [href]; exact hy) (by rw [href]) (fun g => ?_)
  by_cases e : g = f
  · rw [e, update_self, href]
    exact h.files f
  · rw [update_of_ne e]
    exact h.files g

theorem advance_eq (y : File) (r : Int) : (if 0 < r then { y with off := y.off + r.toNat } else y) =
      { y with off := (if 0 < r then { y with off := y.off + r.toNat } else y).off } := by split <;> rfl

theorem fileread_spec {room : Nat} (h : Inv s) (hmild : F .fileread) :
    wp (fileread f room n answer) (fun _ s' => Ret s s' ∧ tree s'.vol = tree s.vol) F s := by
  unfold fileread
  apply wp_ite
  · intro _
    exact ⟨Ret.refl h, rfl⟩
  intro _
  split
  · exact ⟨Ret.refl h, rfl⟩
  · exact ⟨Ret.refl h, rfl⟩
  · rename_i ht
    have hip := mem_ip (C := cwds s) (.inl ht)
    have hn : (n % 2 ^ 32).toNat < 2 ^ 32 := by omega
    simp only [wp_bind, wp_onVol, wp_setFile]
    apply wp_use (ilock_spec h.mid hip (.inl List.not_mem_nil) (.inr (h.base.alloc _ hip)))
    rintro _ v1 ⟨-, h1, hq1, hst1⟩
    apply wp_use (readi_spec h1 List.mem_cons_self hn)
    rintro r _ ⟨rfl, -⟩
    apply wp_use (iunlock_spec h1)
    rintro _ v2 ⟨h2, hq2, hst2⟩
    have hst := hst1.trans (hst2.mono le_rfl (Nat.zero_le _))
    have hres : Res { s with vol := v2 } (cwds s) (uses s) := Res.quiet h h2 (hq1.trans hq2) hst
    exact ⟨⟨hres.off (advance_eq _ _), hst.did.mono (Multiset.zero_le _), rfl⟩, (hq1.trans hq2).tree⟩
  · exact hmild

/-- **The file `f` has been written to**: the bytes of its inode, which was `m`, have changed, and the offset. -/
structure FileWrote (C : Multiset Ip) (U : Multiset Fp) (f : Fp) (m : Node) (s s' : FsState) : Prop where
  res : Res s' C U
  did : Did (C + fileIps s.ftable) s.vol s'.vol
  proc : s'.proc = s.proc
  panic : s'.panic = s.panic
  file : ∃ o, s'.ftable = update s.ftable f { s.ftable f with off := o }
  bytes : ∃ bytes, tree s'.vol =
    update (tree s.vol) (s.vol.inode (s.ftable f).ip).inum (some { m with bytes := bytes })

theorem FileWrote.refl (h : Res s C U) (hm : tree s.vol (s.vol.inode (s.ftable f).ip).inum = some m) :
    FileWrote C U f m s s :=
  ⟨h, Did.refl _ _, rfl, rfl, ⟨_, (update_eq_self f s.ftable).symm⟩, m.bytes, (update_eq_self_iff.2 hm.symm).symm⟩

theorem FileWrote.trans (h : FileWrote C U f m s s') (h' : FileWrote C U f m' s' s'')
    (ht : (s.ftable f).type = .inode) (hm : { m' with bytes := [] } = { m with bytes := [] }) : FileWrote C U f m s s'' := by
  obtain ⟨o, ho⟩ := h.file
  obtain ⟨o', ho'⟩ := h'.file
  obtain ⟨bytes, hb⟩ := h.bytes
  obtain ⟨bytes', hb'⟩ := h'.bytes
  have hself : s'.ftable f = { s.ftable f with off := o } := by rw [ho, update_self]
  have hips : fileIps s'.ftable = fileIps s.ftable := by
    rw [ho]
    exact fileIps_same rfl
  have hip : (s'.ftable f).ip = (s.ftable f).ip := by rw [hself]
  have hd := h'.did
  rw [hips] at hd
  refine ⟨h'.res, h.did.trans hd, h'.proc.trans h.proc, h'.panic.trans h.panic, ⟨o', ?_⟩, bytes', ?_⟩
  · rw [ho', hself, ho, update_idem]
  · have hnode : ({ m' with bytes := bytes' } : Node) = { m with bytes := bytes' } :=
      congrArg (fun n : Node => { n with bytes := bytes' }) hm
    rw [hb', hip, h.did.inum _ (mem_ip (.inl ht)), hb, update_idem, hnode]

/-- A chunk that has written the first `t` bytes of its source at the offset, which it has advanced. -/
structure ChunkWrote (f : Fp) (m : Node) (src : Bytes) (n : Nat) (s : FsState) (r : Int) (s' : FsState) (t : Nat) : Prop where
  le : t ≤ n
  ret : r = t ∨ t = 0 ∧ r = -1
  starts : t = 0 ∨ (s.ftable f).off ≤ m.bytes.length
  off : (s'.ftable f).off = (s.ftable f).off + t
  tree : tree s'.vol = update (tree s.vol) (s.vol.inode (s.ftable f).ip).inum
    (some { m with bytes := patch m.bytes (s.ftable f).off (src.take t) })

theorem writeChunk_spec {n : Nat} (h : Res s C U) (ht : (s.ftable f).type = .inode)
    (hn : n ≤ writeMax) (hm : tree s.vol (s.vol.inode (s.ftable f).ip).inum = some m) :
    wp (writeChunk f (s.ftable f).ip src n) (fun r s' => FileWrote C U f m s s' ∧
      (n ≤ src.length → ∃ t, ChunkWrote f m src n s r s' t)) F s := by
  obtain ⟨ip, hip⟩ : ∃ ip, (s.ftable f).ip = ip := ⟨_, rfl⟩
  rw [hip] at hm ⊢
  have hmem : ip ∈ C + fileIps s.ftable := hip ▸ mem_ip (.inl ht)
  have hn' : n ≤ 3072 := hn
  unfold writeChunk
  simp only [wp_bind, wp_onVol, wp_get, wp_setFile, wp_pure]
  unfold beginOp
  apply wp_use (ilock_node (began_mid h.mid) hmem (.inl List.not_mem_nil) (.inr ((began_base h.base).alloc _ hmem)))
  rintro _ v1 ⟨-, h1, hq1, hst1, hnode⟩
  have hnode1 : nodeAt v1 ip = m := by
    have hnode' : tree s.vol (s.vol.inode ip).inum = some (nodeAt v1 ip) := hnode
    rw [hm] at hnode'
    exact (Option.some.inj hnode').symm
  have hi1 : (v1.inode ip).inum = (s.vol.inode ip).inum := hst1.inum ip hmem
  have hpieces : (pieces n (s.ftable f).off n).length ≤ 4 := length_pieces_le _ _ _ _ (by
    unfold bsize
    omega)
  apply wp_use (writei_spec h1 List.mem_cons_self (by omega))
  rintro r v2 ⟨h2, hst2, hlog2, hr⟩
  have htree : ∃ bytes, tree v2 = update (tree s.vol) (s.vol.inode ip).inum (some { m with bytes := bytes }) ∧
      (n ≤ src.length → ∃ t ≤ n, (r = (t : Int) ∨ t = 0 ∧ r = -1) ∧ (t = 0 ∨ (s.ftable f).off ≤ m.bytes.length) ∧
        bytes = patch m.bytes (s.ftable f).off (src.take t)) := by
    have ht1 : tree v1 = tree s.vol := hq1.tree
    rcases hr with ⟨hneg, rfl, -⟩ | ⟨t, done, hret, -, htn, hts, hall, hoff, ht2⟩
    · refine ⟨m.bytes, ?_, fun _ => ⟨0, Nat.zero_le n, .inr ⟨rfl, hneg⟩, .inl rfl, patch_nil.symm⟩⟩
      rw [ht1]
      exact (update_eq_self_iff.2 hm.symm).symm
    · rw [hnode1] at hoff ht2
      refine ⟨(written m src (s.ftable f).off t done).bytes, ?_, fun hsrc => ?_⟩
      · rw [ht2, ht1, hi1]
        rfl
      · obtain ⟨rfl, -⟩ := hall hsrc
        exact ⟨t, htn, .inl hret, .inr hoff, written_bytes hoff hts⟩
  have hb1 : Base v1 (C + fileIps s.ftable) := (began_base h.base).quiet hq1 hst1
  have hb2 : Base v2 (C + fileIps s.ftable) := by
    obtain ⟨bytes, ht2, -⟩ := htree
    refine hb1.update hst2 (i := (s.vol.inode ip).inum) (m := { m with bytes := bytes }) ?_ (.inl ⟨m, ?_, rfl⟩)
    · rw [ht2]
      exact congrArg (fun t => update t _ _) hq1.tree.symm
    · rw [hq1.tree]
      exact hm
  apply wp_use (iunlock_spec h2)
  rintro _ v3 ⟨h3, hq3, hst3⟩
  have hran2 : Ran _ _ _ _ v1 v2 := ⟨hst2, hlog2⟩
  have hran := ((hq1.ran hst1).trans hran2).trans (hq3.ran hst3)
  have hran3 : Ran (C + fileIps s.ftable) 1 {(s.vol.inode ip).inum} 8 (began s.vol) v3 := by
    rw [hi1] at hran
    exact hran.mono le_rfl (by simp) (by simp) (by omega)
  apply wp_use (endOp_idle h3 h.idle hran3 (by rw [Finset.card_singleton]; decide))
  rintro _ v4 ⟨h4, hi4, hd4, ht4, hin4⟩
  have hres : Res { s with vol := v4 } C U := h.vol h4 ((hb2.quiet hq3 hst3).congr ht4 hin4) hi4 hd4
  obtain ⟨bytes, htree, hwrote⟩ := htree
  rw [← hq3.tree, ← ht4, ← hip] at htree
  refine ⟨⟨hres.off (advance_eq _ _), hd4, rfl, rfl, ⟨_, congrArg (update s.ftable f) (advance_eq _ r)⟩, bytes, htree⟩,
    fun hsrc => ?_⟩
  obtain ⟨t, htn, hret, hstart, rfl⟩ := hwrote hsrc
  refine ⟨t, htn, hret, hstart, ?_, htree⟩
  dsimp only
  rw [update_self]
  rcases hret with rfl | ⟨rfl, rfl⟩
  · split
    · rw [Int.toNat_natCast]
    · omega
  · rfl

theorem writeChunks_spec : ∀ (fuel : Nat) (src : Bytes) (n i : Nat) (s : FsState) (m : Node), Res s C U →
    (s.ftable f).type = .inode → tree s.vol (s.vol.inode (s.ftable f).ip).inum = some m →
    wp (writeChunks f (s.ftable f).ip fuel src n i) (fun _ => FileWrote C U f m s) F s
  | 0, src, n, i, s, m, h, ht, hm => FileWrote.refl h hm
  | fuel + 1, src, n, i, s, m, h, ht, hm => by
    apply wp_ite
    · intro _
      exact FileWrote.refl h hm
    intro _
    apply wp_then (writeChunk_spec h ht (min_le_right _ _) hm)
    rintro r s1 ⟨h1, -⟩
    apply wp_ite
    · intro _
      exact h1
    intro _
    obtain ⟨o, ho⟩ := h1.file
    obtain ⟨bytes, hb⟩ := h1.bytes
    have hself : s1.ftable f = { s.ftable f with off := o } := by rw [ho, update_self]
    have hip : (s1.ftable f).ip = (s.ftable f).ip := by rw [hself]
    have hm1 : tree s1.vol (s1.vol.inode (s1.ftable f).ip).inum = some { m with bytes := bytes } := by
      rw [hip, h1.did.inum _ (mem_ip (.inl ht)), hb, update_self]
    have ih := writeChunks_spec fuel (src.drop (min n writeMax)) (n - min n writeMax) (i + min n writeMax) s1 _ h1.res
      (by rw [hself]; exact ht) hm1
    rw [hip] at ih
    exact wp_use ih (fun _ s2 h2 => h1.trans h2 ht rfl)

theorem filewrite_spec (h : Inv s) (hmild : F .filewrite) :
    wp (filewrite f src n answer) (fun _ s' => Ret s s' ∧ (tree s'.vol = tree s.vol ∨ (s.ftable f).type = .inode ∧
      (s.ftable f).writable = true ∧ ∃ m bytes, tree s.vol (s.vol.inode (s.ftable f).ip).inum = some m ∧ m.type ≠ .dir ∧
        tree s'.vol = update (tree s.vol) (s.vol.inode (s.ftable f).ip).inum (some { m with bytes := bytes }))) F s := by
  unfold filewrite
  apply wp_ite
  · intro _
    exact ⟨Ret.refl h, .inl rfl⟩
  intro hw
  rw [Bool.not_eq_false] at hw
  split
  · exact ⟨Ret.refl h, .inl rfl⟩
  · exact ⟨Ret.refl h, .inl rfl⟩
  · rename_i ht
    obtain ⟨hv, hdir⟩ := h.opened f (.inl ht)
    have hm := h.mid.node (mem_ip (.inl ht)) hv
    apply wp_then (writeChunks_spec _ _ _ _ s _ h ht hm)
    intro i s' h'
    have hinv : Inv s' := by
      have hc : cwds s' = cwds s := by
        unfold cwds
        rw [h'.proc]
      have hu : uses s' = uses s := by
        unfold uses
        rw [h'.proc]
      unfold Inv
      rw [hc, hu]
      exact h'.res
    obtain ⟨bytes, hb⟩ := h'.bytes
    exact ⟨⟨hinv, h'.did.mono (Multiset.zero_le _), h'.panic⟩, .inr ⟨ht, hw, _, bytes, hm, hdir hw, hb⟩⟩
  · exact hmild

theorem sysRead_spec {room : Nat} (h : Inv s) (hF : Excused F (tree s.vol)) :
    wp (sysRead x fd room n answer) (fun r s' => Ret s s' ∧ Effect s x (.read fd room n answer) r (tree s'.vol)) F s := by
  unfold sysRead
  split
  · exact ⟨Ret.refl h, rfl⟩
  · exact fileread_spec h (hF.mild _ (by decide) (by decide) (by decide))

theorem sysFstat_spec (h : Inv s) :
    wp (sysFstat x fd copied) (fun r s' => Ret s s' ∧ Effect s x (.fstat fd copied) r (tree s'.vol)) F s := by
  unfold sysFstat
  split
  · exact ⟨Ret.refl h, rfl⟩
  · exact filestat_spec h

theorem sysWrite_spec (h : Inv s) (hF : Excused F (tree s.vol)) :
    wp (sysWrite x fd src n answer) (fun r s' => Ret s s' ∧ Effect s x (.write fd src n answer) r (tree s'.vol)) F s := by
  unfold sysWrite
  split
  · exact ⟨Ret.refl h, .inl rfl⟩
  rename_i fd' f harg
  apply wp_use (filewrite_spec h (hF.mild _ (by decide) (by decide) (by decide)))
  rintro r s' ⟨hret, he | ⟨ht, hw, m, bytes, hm, hd, he⟩⟩
  · exact ⟨hret, .inl he⟩
  · exact ⟨hret, .inr ⟨(fd', f), m, bytes, harg, ht, hw, hm, hd, he⟩⟩

/-! ## Descriptors -/

theorem Res.proc {proc : Slot → Option Proc} (h : Res s C U) : Res { s with proc := proc } C U :=
  ⟨h.mid, h.base, h.idle, h.files, h.typed, h.opened, h.pipes⟩

theorem inv_of_proc (h : Res s' C U) (hp : s'.proc = s1.proc) (hc : cwds s1 = C) (hu : uses s1 = U) : Inv s' := by
  have hc' : cwds s' = C := by
    rw [← hc]
    unfold cwds
    rw [hp]
  have hu' : uses s' = U := by
    rw [← hu]
    unfold uses
    rw [hp]
  unfold Inv
  rw [hc', hu']
  exact h

theorem sysClose_spec (h : Inv s) (hx : s.proc p = some x) :
    wp (sysClose p x fd) (fun r s' => Ret s s' ∧ Effect s x (.close fd) r (tree s'.vol)) F s := by
  unfold sysClose
  split
  · exact ⟨Ret.refl h, Shrinks.refl _⟩
  rename_i i f harg
  have hf := argfd_some harg
  unfold setOfile
  rw [wp_bind, wp_setProc, wp_bind]
  obtain ⟨s1, hs1⟩ : ∃ s1 : FsState, s1 = { s with proc := update s.proc p (some { x with
    ofile := update x.ofile i none }) } := ⟨_, rfl⟩
  obtain ⟨hc, hu⟩ := uses_ofile hx (congrArg FsState.proc hs1)
  rw [hf] at hu
  have huses : uses s = f ::ₘ uses s1 := by
    rw [← singleton_add, add_comm]
    exact (add_zero _).symm.trans hu.symm
  have hres : Res s1 (cwds s) (f ::ₘ uses s1) := by
    rw [← huses, hs1]
    exact Res.proc h
  rw [← hs1]
  apply wp_use (fileclose_spec hres)
  rintro _ s' ⟨h', hd, hsh, hp, hpan⟩
  have hinv := inv_of_proc h' hp hc rfl
  rw [hs1] at hd hsh hpan
  exact ⟨⟨hinv, hd.mono (Multiset.zero_le _), hpan⟩, hsh⟩

theorem sysDup_spec (h : Inv s) (hx : s.proc p = some x) :
    wp (sysDup p x fd) (fun r s' => Ret s s' ∧ Effect s x (.dup fd) r (tree s'.vol)) F s := by
  unfold sysDup
  split
  · exact ⟨Ret.refl h, rfl⟩
  rename_i i f harg
  have hf := argfd_some harg
  rw [wp_bind]
  apply wp_fdalloc
  · exact ⟨Ret.refl h, rfl⟩
  intro fd' hfd
  rw [wp_bind]
  obtain ⟨s1, hs1⟩ : ∃ s1 : FsState, s1 = { s with proc := update s.proc p (some { x with
    ofile := update x.ofile fd' (some f) }) } := ⟨_, rfl⟩
  obtain ⟨hc, hu⟩ := uses_ofile hx (congrArg FsState.proc hs1)
  rw [hfd] at hu
  have huses : uses s1 = f ::ₘ uses s := by
    rw [← singleton_add, add_comm]
    exact (add_zero _).symm.trans hu
  have hres : Res s1 (cwds s) (uses s) := by
    rw [hs1]
    exact Res.proc h
  rw [← hs1]
  apply wp_use (filedup_spec hres (mem_uses hx hf))
  rintro _ s' ⟨h', hv, hp, hpan⟩
  have hinv := inv_of_proc h' hp hc huses
  rw [hs1] at hv hpan
  refine ⟨⟨hinv, ?_, hpan⟩, ?_⟩
  · rw [hv]
    exact Did.refl _ _
  · rw [hv]
    rfl

end Xv6.Fs
