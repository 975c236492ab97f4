import Xv6.FsSys
/-!
# FsProc — `chdir`, `fork`, `exit`, `pipe` and `open`

The calls that give a process a directory or descriptors, or take them away. With them every call keeps what holds between two
calls, and does to the tree what `Effect` says (`program_spec`).
-/
namespace Xv6.Fs

open Multiset Function Wp
variable {s s' s1 : FsState} {C : Multiset Ip} {U : Multiset Fp} {F : Panic → Prop} {p np : Slot} {x : Proc}

/-! ## Working directories -/

theorem cwds_split (hx : s.proc p = some x) :
    ∃ C, cwds s = x.cwd ::ₘ C ∧ ∀ (s' : FsState) (y : Option Proc), s'.proc = update s.proc p y → cwds s' = cwdRef y + C := by
  obtain ⟨C, hC⟩ := Multiset.exists_cons_of_mem (mem_cwds hx)
  refine ⟨C, hC, fun s' y h => ?_⟩
  have hc := cwds_update h
  rw [hx, hC, ← singleton_add, add_assoc, add_comm] at hc
  rw [add_comm (cwdRef y)]
  exact add_left_cancel hc

variable {ip cwd : Ip} {f f0 f1 : Fp} {omode : Nat} {path : Option Bytes} {i fd : Fin 16} {v' v1 v : Vol}
  {y : File}

theorem uses_cwd (hx : s.proc p = some x)
    (h : s'.proc = update s.proc p (some { x with cwd := ip })) : uses s' = uses s := by
  have hu := uses_update h
  rw [hx] at hu
  exact add_right_cancel hu

theorem inv_of_res (h : Res s' C U) (hc : cwds s' = C) (hu : uses s' = U) : Inv s' := by
  unfold Inv
  rw [hc, hu]
  exact h

theorem sysChdir_spec (h : Inv s) (hx : s.proc p = some x) (hF : Excused F (tree s.vol)) :
    wp (sysChdir p x path) (fun r s' => Ret s s' ∧ Effect s x (.chdir path) r (tree s'.vol)) F s := by
  unfold sysChdir beginOp
  rw [wp_bind, wp_onVol, wp_modify, wp_bind, wp_onVol]
  apply wp_use (lookupDir_spec (began_mid h.mid) (began_base h.base) (mem_holders hx) hF)
  rintro r v1 ⟨h1, hq1, hst1, hdir⟩
  have hran1 : Ran (holders s) 1 ∅ 0 (began s.vol) v1 := hq1.ran hst1
  have hb1 : Base v1 (holders s) := (began_base h.base).quiet hq1 hst1
  have ht1 : tree v1 = tree s.vol := hq1.tree
  cases r with
  | none =>
    rw [wp_bind, wp_onVol]
    apply wp_use (endOp_idle h1 h.idle hran1 (by decide))
    rintro _ v2 ⟨h2, hi2, hd2, ht2, hin2⟩
    refine ⟨Ret.vol h h2 (hb1.congr ht2 hin2) hi2 hd2, ?_⟩
    rw [ht2, ht1]
    exact Shrinks.refl _
  | some ip =>
    obtain ⟨n, hn, -⟩ := hdir ip rfl
    obtain ⟨C, hC, hcwds⟩ := cwds_split hx
    have hused : tree v1 (v1.inode ip).inum ≠ none := by
      rw [ht1]
      exact fun e => by cases hn.symm.trans e
    have hall : ip ::ₘ holders s = x.cwd ::ₘ (ip ::ₘ C + fileIps s.ftable) := by
      unfold holders
      rw [hC, cons_add, cons_swap, cons_add]
    have h1' : Mid v1 (ip ::ₘ holders s) [] := h1
    have hb1' : Base v1 (ip ::ₘ holders s) := hb1.cons hused
    rw [hall] at h1' hb1'
    rw [wp_bind, wp_onVol]
    apply wp_use (iput_reap h1' hb1' (fun hm => by cases hm))
    rintro _ v2 ⟨h2, hb2, hran2, hsh, -⟩
    rw [wp_bind, wp_onVol]
    have hle : fileIps s.ftable ≤ ip ::ₘ C + fileIps s.ftable := Multiset.le_add_left _ _
    have hle' : fileIps s.ftable ≤ holders s := Multiset.le_add_left _ _
    have hran := (hran1.mono hle' le_rfl subset_rfl le_rfl).trans
      (hran2.mono hle le_rfl subset_rfl le_rfl)
    apply wp_use (endOp_idle h2 h.idle hran (by simp [maxOpBlocks]))
    rintro _ v3 ⟨h3, hi3, hd3, ht3, hin3⟩
    have hres : Res { s with vol := v3 } (ip ::ₘ C) (uses s) := Res.move h h3 (hb2.congr ht3 hin3) hi3 hd3
    refine ⟨⟨inv_of_res hres.proc ((hcwds _ _ rfl).trans (singleton_add _ _)) (uses_cwd hx rfl),
      hd3.mono (Multiset.zero_le _), rfl⟩, ?_⟩
    change Shrinks (tree s.vol) (tree v3)
    rw [ht3, ← ht1]
    exact hsh

/-! ## `fork` -/

theorem dupOfiles_spec : ∀ (l : List (Fin 16)) (s : FsState) (U : Multiset Fp), Res s C U →
    (∀ i f, x.ofile i = some f → f ∈ U) → wp (l.forM (fun i => dupOfile (x.ofile i))) (fun _ s' =>
      Res s' C ((l.map (fun i => fdRef (x.ofile i))).sum + U) ∧ s'.vol = s.vol ∧ s'.proc = s.proc ∧ s'.panic = s.panic) F s
  | [], s, U, h, _ => ⟨by rw [List.map_nil, List.sum_nil, zero_add]; exact h, rfl, rfl, rfl⟩
  | i :: l, s, U, h, hU => by
    refine wp_bind.2 ?_
    rw [List.map_cons, List.sum_cons]
    dsimp only
    cases hi : x.ofile i with
    | none =>
      have ih := dupOfiles_spec l s U h hU
      rw [← zero_add ((l.map _).sum)] at ih
      exact ih
    | some f =>
      apply wp_use (filedup_spec h (hU i f hi))
      rintro _ s1 ⟨h1, hv, hp, hpan⟩
      apply wp_use (dupOfiles_spec l s1 (f ::ₘ U) h1 (fun j g hg => Multiset.mem_cons_of_mem (hU j g hg)))
      rintro _ s2 ⟨h2, hv2, hp2, hpan2⟩
      refine ⟨?_, hv2.trans hv, hp2.trans hp, hpan2.trans hpan⟩
      rw [← singleton_add, ← add_assoc, add_comm (List.sum _)] at h2
      exact h2

theorem born_uses (s' : FsState) (hnp : s.proc np = none) (h : s'.proc = update s.proc np (some x)) :
    cwds s' = x.cwd ::ₘ cwds s ∧ uses s' = ofiles (some x) + uses s := by
  have hc := cwds_update h
  have hu := uses_update h
  rw [hnp] at hc hu
  constructor
  · rw [← singleton_add, add_comm]
    exact (add_zero _).symm.trans hc
  · rw [add_comm]
    exact (add_zero _).symm.trans hu

theorem kfork_spec (h : Inv s) (hx : s.proc p = some x) :
    wp (kfork x np) (fun r s' => Ret s s' ∧ Effect s x (.fork np) r (tree s'.vol)) F s := by
  unfold kfork
  rw [wp_bind, wp_get]
  split
  · exact ⟨Ret.refl h, rfl⟩
  rename_i hnp
  apply wp_then (dupOfiles_spec fds s (uses s) h (fun i f => mem_uses hx))
  rintro _ s1 ⟨h1, hv1, hp1, hpan1⟩
  have hcwd : x.cwd ∈ cwds s + fileIps s1.ftable := Multiset.mem_add.2 (.inl (mem_cwds hx))
  rw [wp_bind, wp_onVol]
  apply wp_use (idup_spec h1.mid hcwd)
  rintro r v2 ⟨rfl, h2, hq2, hst2⟩
  rw [← cons_add] at h2
  have hb2 : Base v2 (x.cwd ::ₘ cwds s + fileIps s1.ftable) := by
    rw [cons_add]
    refine (h1.base.quiet hq2 hst2).cons ?_
    rw [hq2.tree, hst2.inum _ hcwd]
    exact h1.base.alloc _ hcwd
  have hres := h1.move h2 hb2 (h1.idle.quiet hq2) (hst2.did.mono (Multiset.le_add_left _ _))
  obtain ⟨hc, hu⟩ := born_uses { s1 with vol := v2, proc := update s1.proc np (some x) } hnp (by rw [hp1])
  refine ⟨⟨inv_of_res hres.proc hc hu, ?_, hpan1⟩, ?_⟩
  · rw [← hv1]
    exact hst2.did.mono (Multiset.zero_le _)
  · change tree v2 = tree s.vol
    rw [hq2.tree, hv1]

/-! ## `exit` -/

theorem uses_split (hx : s.proc p = some x) (hf : x.ofile i = some f) :
    ∃ U, uses s = f ::ₘ U ∧ ∀ s' : FsState, s'.proc = update s.proc p (some { x with ofile := update x.ofile i none }) →
      cwds s' = cwds s ∧ uses s' = U := by
  obtain ⟨U, hU⟩ := Multiset.exists_cons_of_mem (mem_uses hx hf)
  refine ⟨U, hU, fun s' h => ?_⟩
  obtain ⟨hc, hu⟩ := uses_ofile hx h
  rw [hf, hU] at hu
  have hu' : uses s' + {f} = U + {f} := by
    rw [add_comm U, singleton_add]
    exact hu.trans (add_zero _)
  exact ⟨hc, add_right_cancel hu'⟩

/-- **What `exit` has done** to the process `p`, which had the directory `cwd`, when the descriptors of `l` are still to come.
-/
structure Exiting (p : Slot) (cwd : Ip) (s : FsState) (l : List (Fin 16)) (s' : FsState) : Prop where
  ret : Ret s s'
  shrinks : Shrinks (tree s.vol) (tree s'.vol)
  proc : ∃ x, s'.proc p = some x ∧ x.cwd = cwd ∧ ∀ i, i ∉ l → x.ofile i = none

theorem closeOfile_spec {l : List (Fin 16)} (h : Exiting p cwd s (i :: l) s1) :
    wp (closeOfile p i) (fun _ => Exiting p cwd s l) F s1 := by
  obtain ⟨hret, hsh, x, hx, hcwd, hdone⟩ := h
  unfold closeOfile
  rw [wp_bind, wp_get, hx]
  dsimp only
  cases hf : x.ofile i with
  | none =>
    refine ⟨hret, hsh, x, hx, hcwd, fun j hj => ?_⟩
    by_cases e : j = i
    · rw [e, hf]
    · exact hdone j (fun hm => (List.mem_cons.1 hm).elim e hj)
  | some f =>
    obtain ⟨U, hU, hset⟩ := uses_split hx hf
    have hres : Res s1 (cwds s1) (f ::ₘ U) := hU ▸ hret.inv
    apply wp_then (fileclose_spec hres)
    rintro _ s2 ⟨h2, hd2, hsh2, hp2, hpan2⟩
    unfold setOfile
    obtain ⟨hc, hu⟩ := hset { s2 with proc := update s2.proc p (some { x with ofile := update x.ofile i none }) }
      (by rw [hp2])
    refine ⟨⟨inv_of_res h2.proc hc hu, hret.did.trans (hd2.mono (Multiset.zero_le _)), hpan2.trans hret.panic⟩, hsh.trans hsh2,
      _, update_self .., hcwd, fun j hj => ?_⟩
    by_cases e : j = i
    · rw [e]
      exact update_self ..
    · dsimp only
      rw [update_of_ne e]
      exact hdone j (fun hm => (List.mem_cons.1 hm).elim e hj)

theorem ofiles_none (h : ∀ i, x.ofile i = none) : ofiles (some x) = 0 := by
  unfold ofiles
  simp only [h]
  exact List.sum_eq_zero (fun m hm => by
    obtain ⟨i, -, rfl⟩ := List.mem_map.1 hm
    rfl)

theorem kexit_spec (h : Inv s) (hx : s.proc p = some x) (hF : Excused F (tree s.vol)) :
    wp (kexit p x) (fun r s' => Ret s s' ∧ Effect s x .exit r (tree s'.vol)) F s := by
  apply wp_ite
  · intro _
    exact hF.mild _ (by decide) (by decide) (by decide)
  intro _
  rw [wp_bind]
  have hstart : Exiting p x.cwd s fds s := ⟨Ret.refl h, Shrinks.refl _, x, hx, rfl, fun i hi => absurd (mem_fds i) hi⟩
  apply wp_use (wp_forM (I := fun l s' => Exiting p x.cwd s l s') (fun i l s1 => closeOfile_spec) fds s hstart)
  rintro _ s1 ⟨hret, hsh, y, hy, hcwd, hdone⟩
  obtain ⟨C, hC, hcwds⟩ := cwds_split hy
  rw [hcwd] at hC
  have hm := hret.inv.mid
  have hb := hret.inv.base
  rw [hC, cons_add] at hm hb
  simp only [wp_bind, wp_onVol]
  apply wp_putOp hm hb hret.inv.idle
  intro v2 hm2 hb2 hi2 hd2 hsh2
  have hres : Res { s1 with vol := v2 } C (uses s1) :=
    Res.move hret.inv hm2 hb2 hi2 (hd2.mono (Multiset.le_add_left _ _))
  refine ⟨⟨inv_of_res hres.proc ?_ ?_, hret.did.trans (hd2.mono (Multiset.zero_le _)), hret.panic⟩, hsh.trans hsh2⟩
  · rw [hcwds _ none rfl]
    exact zero_add C
  have hu : ∀ s' : FsState, s'.proc = update s1.proc p none → uses s' = uses s1 := fun s' h' => by
    have he := uses_update h'
    rw [hy, ofiles_none (fun i => hdone i List.not_mem_nil), add_zero] at he
    exact he.trans (add_zero _)
  exact hu _ rfl

/-! ## `pipe` -/

theorem fileclose_pipe (h : Res s C (f ::ₘ U)) (ht : (s.ftable f).type = .pipe) : wp (fileclose f) (fun _ s' =>
    Res s' C U ∧ s'.vol = s.vol ∧ s'.proc = s.proc ∧ s'.panic = s.panic ∧ ∀ g, g ≠ f → s'.ftable g = s.ftable g) F s := by
  have hframe : wp (fileclose f) (fun _ s' => s'.vol = s.vol ∧ ∀ g, g ≠ f → s'.ftable g = s.ftable g) (fun _ => True) s := by
    unfold fileclose
    apply wp_ite
    · intro _
      trivial
    intro _
    apply wp_ite
    · intro _
      exact ⟨rfl, fun g hg => update_of_ne hg _ _⟩
    intro _
    unfold closeFile
    rw [wp_bind, wp_setFile, ht]
    exact ⟨rfl, fun g hg => update_of_ne hg _ _⟩
  apply wp_use (wp_and (fileclose_spec h) hframe)
  rintro _ s' ⟨⟨h', -, -, hp, hpan⟩, hv, hother⟩
  exact ⟨h', hv, hp, hpan, hother⟩

theorem closePipe_spec {r : Int} (h : Inv s) (hne : f0 ≠ f1) (h0 : (s.ftable f0).ref = 0) (h1 : (s.ftable f1).ref = 0) :
    wp (do fileclose f0; fileclose f1; return r) (fun _ s' => Ret s s' ∧ tree s'.vol = tree s.vol) F (withPipe s f0 f1) := by
  have hres := Res.pipe h hne h0 h1
  rw [cons_swap] at hres
  have ht0 : ((withPipe s f0 f1).ftable f0).type = .pipe := by
    unfold withPipe pipeFile
    simp [update_of_ne hne, update_self]
  have ht1 : ((withPipe s f0 f1).ftable f1).type = .pipe := by
    unfold withPipe pipeFile
    simp [update_self]
  apply wp_then (fileclose_pipe hres ht0)
  rintro _ s1 ⟨hs1, hv1, hp1, hpan1, hother⟩
  apply wp_then (fileclose_pipe hs1 (by rw [hother f1 hne.symm]; exact ht1))
  rintro _ s2 ⟨hs2, hv2, hp2, hpan2, -⟩
  have hvol : s2.vol = s.vol := hv2.trans hv1
  rw [wp_pure, hvol]
  have hp : s2.proc = s.proc := hp2.trans hp1
  refine ⟨⟨inv_of_proc hs2 hp rfl rfl, ?_, hpan2.trans hpan1⟩, rfl⟩
  rw [hvol]
  exact Did.refl _ _

theorem wp_clearOfile {Q : PUnit → FsState → Prop} (hx : s.proc p = some x)
    (hQ : Q ⟨⟩ { s with proc := update s.proc p (some { x with ofile := update x.ofile fd none }) }) :
    wp (clearOfile p fd) Q F s := by
  unfold clearOfile
  rw [wp_bind, wp_get, hx]
  exact hQ

theorem wp_pipeFds {Q : Option (Fin 16 × Fin 16) → FsState → Prop} (hx : s.proc p = some x) (hnone : Q none s)
    (hsome : ∀ fd0 fd1, fd1 ≠ fd0 → x.ofile fd0 = none → x.ofile fd1 = none → Q (some (fd0, fd1)) { s with
      proc := update s.proc p (some { x with
        ofile := update (update x.ofile fd0 (some f0)) fd1 (some f1) }) }) :
    wp (pipeFds p x f0 f1) Q F s := by
  unfold pipeFds
  rw [wp_bind]
  apply wp_fdalloc
  · exact hnone
  intro fd0 h0
  rw [wp_bind]
  apply wp_fdalloc
  · rw [wp_bind]
    apply wp_clearOfile (update_self ..)
    have hback : update (update x.ofile fd0 (some f0)) fd0 none = x.ofile := by
      rw [update_idem]
      exact update_eq_self_iff.2 h0.symm
    dsimp only
    rw [hback, update_idem, update_eq_self_iff.2 hx.symm]
    exact hnone
  · intro fd1 h1
    have hne : fd1 ≠ fd0 := by
      rintro rfl
      dsimp only at h1
      rw [update_self] at h1
      cases h1
    dsimp only at h1
    rw [update_of_ne hne] at h1
    rw [wp_pure, update_idem]
    exact hsome fd0 fd1 hne h0 h1

theorem uses_add (s' : FsState) (hx : s.proc p = some x) (hfd : x.ofile fd = none)
    (h : s'.proc = update s.proc p (some { x with ofile := update x.ofile fd (some f) })) :
    cwds s' = cwds s ∧ uses s' = f ::ₘ uses s := by
  obtain ⟨hc, hu⟩ := uses_ofile hx h
  rw [hfd] at hu
  refine ⟨hc, ?_⟩
  rw [← singleton_add, add_comm]
  exact (add_zero _).symm.trans hu

theorem sysPipe_spec {page copied : Bool} (h : Inv s) (hx : s.proc p = some x) :
    wp (sysPipe p x page copied) (fun r s' => Ret s s' ∧ Effect s x (.pipe page copied) r (tree s'.vol)) F s := by
  unfold sysPipe
  rw [wp_bind]
  apply wp_pipealloc h
  · exact ⟨Ret.refl h, rfl⟩
  intro f0 f1 hne h0 h1
  have hclose := closePipe_spec (r := -1) (F := F) h hne h0 h1
  have hx' : (withPipe s f0 f1).proc p = some x := hx
  rw [wp_bind]
  apply wp_pipeFds hx'
  · exact hclose
  intro fd0 fd1 hfd hn0 hn1
  apply wp_ite
  · intro _
    -- the two descriptors one after the other
    obtain ⟨hc1, hu1⟩ := uses_add { s with proc := update s.proc p (some { x with
      ofile := update x.ofile fd0 (some f0) }) } hx hn0 rfl
    have huse : ∀ s' : FsState, s'.proc = update s.proc p (some { x with
        ofile := update (update x.ofile fd0 (some f0)) fd1 (some f1) }) →
        cwds s' = cwds s ∧ uses s' = f1 ::ₘ f0 ::ₘ uses s := fun s' hs' => by
      rw [← hc1, ← hu1]
      have hfree : update x.ofile fd0 (some f0) fd1 = none := by
        rw [update_of_ne hfd]
        exact hn1
      refine uses_add s' (update_self _ _ _) hfree ?_
      rw [update_idem]
      exact hs'
    obtain ⟨hc, hu⟩ := huse { withPipe s f0 f1 with proc := update s.proc p (some { x with
      ofile := update (update x.ofile fd0 (some f0)) fd1 (some f1) }) } rfl
    exact ⟨⟨inv_of_res (Res.pipe h hne h0 h1).proc hc hu, Did.refl _ _, rfl⟩, rfl⟩
  · intro _
    rw [wp_bind]
    apply wp_clearOfile (update_self _ _ _)
    rw [wp_bind]
    apply wp_clearOfile (update_self _ _ _)
    have hback : update (update (update (update x.ofile fd0 (some f0)) fd1 (some f1))
        fd0 none) fd1 none = x.ofile := by
      have he0 : update x.ofile fd0 none = x.ofile := update_eq_self_iff.2 hn0.symm
      have he1 : update x.ofile fd1 none = x.ofile := update_eq_self_iff.2 hn1.symm
      rw [update_comm hfd, update_idem, update_idem, he0, he1]
    have hproc : update s.proc p (some x) = s.proc := update_eq_self_iff.2 hx.symm
    rw [hback, update_idem, update_idem]
    change wp _ _ F { withPipe s f0 f1 with proc := update s.proc p (some x) }
    rw [hproc]
    exact hclose

/-! ## `open` -/

theorem Res.open (h : Res s C U) (h0 : (s.ftable f).ref = 0) (hy : y.ref = 1)
    (hty : y.type = .inode ∨ y.type = .device) (hm : Mid v' (y.ip ::ₘ (C + fileIps s.ftable)) [])
    (hb : Base v' (y.ip ::ₘ (C + fileIps s.ftable))) (hi : Idle v') (hd : Did (C + fileIps s.ftable) s.vol v')
    (ho : Opened v' y) : Res { s with vol := v', ftable := update s.ftable f y } C (f ::ₘ U) := by
  have ht0 := (h.typed f).2 h0
  have hips : fileIps (update s.ftable f y) = y.ip ::ₘ fileIps s.ftable := by
    have he := fileIps_update s.ftable f y
    have hr : fileRef (s.ftable f) = 0 := by
      unfold fileRef
      rw [ht0]
    have hry : fileRef y = {y.ip} := by
      unfold fileRef
      rcases hty with e | e
      · rw [e]
      · rw [e]
    rw [hr, add_zero, hry, add_comm, singleton_add] at he
    exact he
  have hall : C + fileIps (update s.ftable f y) = y.ip ::ₘ (C + fileIps s.ftable) := by
    rw [hips, Multiset.add_cons]
  refine ⟨hall ▸ hm, hall ▸ hb, hi, files_new h.files h0 hy, fun g => ?_, fun g => ?_, h.pipes.update (fun i w => ?_)⟩
  · by_cases e : g = f
    · subst e
      dsimp only
      rw [update_self, hy]
      rcases hty with e | e
      · rw [e]
        decide
      · rw [e]
        decide
    · dsimp only
      rw [update_of_ne e]
      exact h.typed g
  · by_cases e : g = f
    · subst e
      dsimp only
      rw [update_self]
      exact ho
    · dsimp only
      rw [update_of_ne e]
      exact hd.opened (h.opened g) (fun ht => Multiset.mem_add.2 (.inr (mem_fileIps ht)))
  · constructor
    · rintro ⟨hp, -⟩
      rcases hty with e | e
      · rw [e] at hp
        cases hp
      · rw [e] at hp
        cases hp
    · rintro ⟨hp, -⟩
      rw [ht0] at hp
      cases hp

theorem openedFile_opened (hv : (v'.inode ip).valid = true)
    (hty : (v'.inode ip).din.type = (v.inode ip).din.type) (hdir : omode ≠ 0 → (v.inode ip).din.type ≠ .dir) :
    Opened v' (openedFile ip (v.inode ip).din omode y) := by
  intro _
  refine ⟨hv, fun hw => ?_⟩
  change (v'.inode ip).din.type ≠ .dir
  rw [hty]
  apply hdir
  rintro rfl
  cases hw

theorem openedFile_type (ip : Ip) (d : Dinode) (omode : Nat) (y : File) :
    (openedFile ip d omode y).type = .inode ∨ (openedFile ip d omode y).type = .device := by
  unfold openedFile
  split
  · exact .inr rfl
  · exact .inl rfl

/-- What `open` has done to the tree from the inode on. -/
def OpensFrom (t t' : Tree) : Prop :=
  Shrinks t t' ∨ ∃ i n, t i = some n ∧ n.type = .file ∧ t' = update t i (some { n with bytes := [] })

theorem openLocked_spec (h : Inv s) (hx : s.proc p = some x)
    (hy : Yields (holders s) 2 (began s.vol) (some ip) v1) (hdir : has omode oCreate = true → (v1.inode ip).din.type ≠ .dir) :
    wp (do let r ← openLocked p x omode ip; onVol endOp; return r)
      (fun _ s' => Ret s s' ∧ OpensFrom (tree v1) (tree s'.vol)) F { s with vol := v1 } := by
  have h1 : Mid v1 (ip ::ₘ holders s) [ip] := hy.mid
  have hb1 : Base v1 (ip ::ₘ holders s) := hy.base
  have hput : ∀ r : Int, wp (do onVol (iunlockput ip); return r)
      (fun a s2 => wp (do onVol endOp; return a) (fun _ s' => Ret s s' ∧ OpensFrom (tree v1) (tree s'.vol)) F s2) F
      { s with vol := v1 } := by
    intro r
    rw [wp_bind, wp_onVol]
    apply wp_use (iunlockput_reap h1 hb1 List.mem_cons_self)
    rintro _ v2 ⟨h2, hb2, hran2, hsh, -⟩
    rw [List.erase_cons_head] at h2
    obtain ⟨hm, hb, I, hI, hran⟩ := hy.ends hran2 (by rw [List.length_singleton]; decide) h2 hb2
    rw [wp_pure, wp_bind, wp_onVol]
    apply wp_use (endOp_idle hm h.idle hran (by unfold maxOpBlocks; omega))
    rintro _ v3 ⟨h3, hi3, hd3, ht3, hin3⟩
    refine ⟨Ret.vol h h3 (hb.congr ht3 hin3) hi3 hd3, .inl ?_⟩
    rw [ht3]
    exact hsh
  rw [wp_bind]
  unfold openLocked
  apply wp_ite
  · intro _
    exact hput (-1)
  intro hc
  apply wp_ite
  · intro _
    exact hput (-1)
  intro _
  rw [wp_bind]
  have htyped := Res.typed h
  apply wp_openFile (s := { s with vol := v1 }) htyped
  · exact hput (-1)
  intro f fd h0 hfd
  rw [wp_bind, wp_get, wp_bind, wp_setFile, wp_bind, wp_onVol]
  dsimp only
  rw [update_self, update_idem]
  apply wp_use (openTrunc_spec h1 List.mem_cons_self rfl)
  rintro _ v2 ⟨h2, hb2, hran2, ht2⟩
  rw [wp_bind, wp_onVol]
  apply wp_use (iunlock_spec h2)
  rintro _ v3 ⟨h3, hq3, hst3⟩
  have hle : holders s ≤ ip ::ₘ holders s := Multiset.le_cons_self _ _
  have hipR : ip ∈ ip ::ₘ holders s := mem_cons_self _ _
  obtain ⟨I, hI, hin, hran1⟩ := hy.ran
  have hran : Ran (holders s) 3 I 2 (began s.vol) v3 := by
    have hsub : I ∪ {(v1.inode ip).inum} ∪ ∅ ⊆ I := by
      rw [Finset.union_empty]
      exact Finset.union_subset subset_rfl (Finset.singleton_subset_iff.2 (hin ip rfl))
    exact ((hran1.trans (hran2.mono hle le_rfl subset_rfl le_rfl)).trans
      ((hq3.ran hst3).mono hle le_rfl subset_rfl le_rfl)).mono le_rfl (by simp) hsub (by simp)
  rw [wp_pure, wp_bind, wp_onVol]
  apply wp_use (endOp_idle h3 h.idle hran (by unfold maxOpBlocks; omega))
  rintro _ v4 ⟨h4, hi4, hd4, ht4, hin4⟩
  have hb4 : Base v4 (ip ::ₘ holders s) := ((hb2 _ le_rfl hb1).quiet hq3 hst3).congr ht4 hin4
  obtain ⟨hv2, hty2⟩ := hran2.stays.valid ip hipR (h1.locked ip List.mem_cons_self).2
  obtain ⟨hv3, hty3⟩ := hst3.valid ip hipR hv2
  have hopened : Opened v4 (openedFile ip (v1.inode ip).din omode { s.ftable f with ref := 1 }) := by
    refine openedFile_opened (by rw [hin4]; exact hv3) (by rw [hin4]; exact hty3.trans hty2) (fun hne => ?_)
    cases hcr : has omode oCreate with
    | true => exact hdir hcr
    | false => exact fun hd => hc ⟨hcr, hd, hne⟩
  have hres := Res.open h h0 rfl (openedFile_type ..) h4 hb4 hi4 hd4 hopened
  obtain ⟨hcw, hus⟩ := uses_add { s with vol := v4, ftable := _, proc := _ } hx hfd rfl
  refine ⟨⟨inv_of_res hres.proc hcw hus, hd4.mono (Multiset.zero_le _), rfl⟩, ?_⟩
  rw [ht4, hq3.tree]
  rcases ht2 with e | ⟨hf, e⟩
  · rw [e]
    exact .inl (Shrinks.refl _)
  · exact .inr ⟨_, _, h1.node hipR (h1.locked ip List.mem_cons_self).2, hf, e⟩

theorem sysOpen_spec (h : Inv s) (hx : s.proc p = some x) (hF : Excused F (tree s.vol)) :
    wp (sysOpen p x path omode) (fun r s' => Ret s s' ∧ Effect s x (.open path omode) r (tree s'.vol)) F s := by
  unfold sysOpen beginOp
  cases hstr : argstr path with
  | none => exact ⟨Ret.refl h, tree s.vol, .inl rfl, .inl (Shrinks.refl _)⟩
  | some str =>
    rw [wp_bind, wp_onVol, wp_modify, wp_bind, wp_onVol]
    apply wp_use (openInode_spec (began_mid h.mid) (began_base h.base) (mem_holders hx) hF)
    rintro r v1 ⟨hy, htree⟩
    have ht1 : tree v1 = tree s.vol ∨ has omode oCreate = true ∧ ∃ str o, argstr path = some str ∧
        Created (tree s.vol) (s.vol.inode x.cwd).inum str .file 0 0 o (tree v1) :=
      htree.imp And.left (fun hc => ⟨hc.1, str, _, hstr, hc.2⟩)
    cases r with
    | none =>
      obtain ⟨I, hI, -, hran⟩ := hy.ran
      rw [wp_bind, wp_onVol]
      apply wp_use (endOp_idle hy.mid h.idle hran (by unfold maxOpBlocks; omega))
      rintro _ v2 ⟨h2, hi2, hd2, ht2, hin2⟩
      refine ⟨Ret.vol h h2 (hy.base.congr ht2 hin2) hi2 hd2, tree v1, ht1, .inl ?_⟩
      rw [ht2]
      exact Shrinks.refl _
    | some ip =>
      have hnode := hy.mid.node (mem_cons_self _ _) (hy.mid.locked ip List.mem_cons_self).2
      apply wp_use (openLocked_spec h hx hy (fun hc => ?_))
      · rintro _ s' ⟨hret, hop⟩
        exact ⟨hret, tree v1, ht1, hop⟩
      · rcases htree with ⟨-, hn⟩ | ⟨-, hcr⟩
        · rw [hc] at hn
          cases hn
        · exact hcr.not_dir hnode

/-! ## Every call -/

theorem program_spec (c : Call) (h : Inv s) (hx : s.proc p = some x) (hF : Excused F (tree s.vol)) :
    wp (program p x c) (fun r s' => Ret s s' ∧ Effect s x c r (tree s'.vol)) F s := by
  cases c with
  | «open» path omode => exact sysOpen_spec h hx hF
  | close fd => exact sysClose_spec h hx
  | dup fd => exact sysDup_spec h hx
  | pipe page copied => exact sysPipe_spec h hx
  | fstat fd copied => exact sysFstat_spec h
  | read fd room n answer => exact sysRead_spec h hF
  | write fd src n answer => exact sysWrite_spec h hF
  | mkdir path => exact sysMkdir_spec h hx hF
  | mknod path major minor => exact sysMknod_spec h hx hF
  | link old new => exact sysLink_spec h hx hF
  | symlink target path => exact sysSymlink_spec h hx hF
  | unlink path => exact sysUnlink_spec h hx hF
  | chdir path => exact sysChdir_spec h hx hF
  | exec path args pt mem answer => exact sysExec_spec h hx hF
  | fork np => exact kfork_spec h hx
  | exit => exact kexit_spec h hx hF

end Xv6.Fs
