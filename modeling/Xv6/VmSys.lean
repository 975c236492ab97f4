import Xv6.VmProc
/-!
# VmSys — page accounting, and copy-on-write as eager copying

Every step keeps `Inv` (`inv_step`), so every state of a run from `kinit` has it. Read for the allocator it says that a
page's count is the number of its uses and that the free list holds the others; read for the processes it says that what
a process can read is what it would read had `fork` copied its memory.
-/
namespace Xv6.Vm

open Multiset Function Option Wp
variable [Link] {F : Panic → Prop} {s : VmState}

/-! ## User accesses -/

variable {p : Slot} {va uargv fdarray n pa v : Nat} {t t1 t2 : Pt} {s' : VmState} {k k' k1 k2 : Kmem}
  {E : Multiset Nat} {acc : Access} {file : Option (List UInt8)} {fd : Fin 16} {perm : Flags} {a : VmAct}

theorem pageFault_spec [Mild F] (h : Inv s) : wp (pageFault p va acc) (fun _ s' => Inv s') F s := by
  unfold pageFault
  rw [wp_bind, wp_get]
  dsimp only
  cases ht : (s.proc p).pagetable with
  | none => exact h
  | some t =>
    refine wp_ite (fun _ => kexit_spec h) (fun hva => ?_)
    have hv : va / 4096 < maxVpn := by
      unfold maxVpn
      omega
    rw [wp_bind]
    have hcow : wp (if acc = .store then onMem (cowfault t (va / 4096)) else pure (false, t)) (fun r s' =>
        ∃ k', s' = { s with k := k' } ∧ Acc k' (othersThan s [p] + opt (s.proc p).trapframe + uses r.2) ∧
        Keeps (othersThan s [p] + opt (s.proc p).trapframe) s.k k' ∧
        User false k' r.2 (pgs (s.proc p).sz) (refMem s.trace p)) F s := by
      refine wp_ite (fun _ => ?_) (fun _ => ⟨s.k, rfl, h.table ht, Keeps.refl _ _, (h.proc p).user t ht⟩)
      rw [wp_onMem]
      refine wp_use (cowfault_spec (.inl hv) ((h.proc p).user t ht) (h.table ht)) ?_
      rintro r k' ⟨ha, hk, hu, _⟩
      exact ⟨k', rfl, ha, hk, hu⟩
    refine wp_use hcow ?_
    rintro r s1 ⟨k1, hs1, ha1, hk1, hu1⟩
    obtain ⟨ok, t1⟩ := r
    subst hs1
    have h1 : Inv { s with k := k1, proc := update s.proc p { s.proc p with pagetable := some t1 } } :=
      h.retable ht ha1 hk1 hu1 (fun _ _ => rfl)
    rw [wp_bind, Vm.setProc, wp_modify]
    refine wp_ite (fun _ => h1) (fun _ => ?_)
    simp only [wp_bind, wp_onMem, Vm.setProc, wp_modify]
    refine wp_use (vmfault_spec hu1 ha1) ?_
    rintro r k2 ⟨ha2, hk2, hu2, _⟩
    obtain ⟨pa, a⟩ := r
    rw [update_idem]
    have h2 : Inv { s with k := k2, proc := update s.proc p { s.proc p with pagetable := some a.pt } } :=
      h.retable ht ha2 (hk1.trans hk2) hu2 (fun _ _ => rfl)
    cases pa with
    | none => exact kexit_spec h2
    | some _ => exact h2

theorem userRead_spec [Mild F] (h : Inv s) : wp (userRead p va acc) (fun _ s' => Inv s') F s := by
  unfold userRead
  rw [wp_bind, wp_get]
  dsimp only
  split
  · exact h
  · split
    · exact h
    · exact pageFault_spec h

omit [Link] in
theorem permits_some {e : Pte} (h : t.permits va acc = some e) :
    t.pte (va / 4096) = some e ∧ e.u = true ∧ acc.needs e.toFlags = true := by
  unfold Pt.permits at h
  split at h
  · rename_i e' he'
    split at h
    · rename_i hc
      cases h
      exact ⟨pte_of_slot he', hc⟩
    · cases h
  · cases h

theorem userStore_spec [Mild F] {b : UInt8} (h : Inv s) : wp (userStore p va b) (fun _ s' => Inv s') F s := by
  unfold userStore
  rw [wp_bind, wp_get]
  dsimp only
  cases ht : (s.proc p).pagetable with
  | none => exact h
  | some t =>
    dsimp only
    split
    · rename_i e he
      obtain ⟨hpte, hue, hw⟩ := permits_some he
      have hu := (h.proc p).user t ht
      have hv := hu.lt_trap hpte hue
      have hs := hu.shows _ hv
      rw [hpte] at hs
      simp only [wp_bind, wp_onMem, happens, wp_modify]
      refine wp_use (poke_spec (va % 4096) [b] hu (h.table ht) hpte hv (hs.1 (.inr hw))
        (by rw [List.length_singleton]; omega)) ?_
      rintro _ k' ⟨ha', hk', hu'⟩
      have hva : va / 4096 * 4096 + va % 4096 = va := by omega
      rw [hva] at hu'
      have hstored : User false k' t (pgs (s.proc p).sz) (refStep (refMem s.trace) (.store p va [b]) p) := by
        rw [refStep, update_self]
        exact hu'
      unfold Inv
      rw [refMem_snoc]
      exact h.stored ht ha' hk' hstored (fun q hq => update_of_ne hq _ _)
    · exact pageFault_spec h

/-! ## `exec` -/

theorem takeImage_spec (h : Inv s) (ht : (s.proc p).pagetable = some t) (r : Pt ⊕ Image)
    (hk : Keeps (othersThan s [p] + opt (s.proc p).trapframe) s.k k')
    (hr : match r with
      | .inl t => Acc k' (othersThan s [p] + opt (s.proc p).trapframe + uses t) ∧
          User false k' t (pgs (s.proc p).sz) (refMem s.trace p)
      | .inr im => Acc k' (othersThan s [p] + opt (s.proc p).trapframe + uses im.pt) ∧
          User false k' im.pt (pgs im.sz) (writeAll (fun _ => 0) im.writes)) :
    wp (takeImage p r) (fun _ s' => Inv s') F { s with k := k' } := by
  unfold takeImage
  rw [wp_bind, wp_get]
  cases r with
  | inl t' => exact h.retable ht hr.1 hk hr.2 (fun _ _ => rfl)
  | inr im =>
    simp only [wp_bind, Vm.setProc, happens, wp_modify]
    unfold Inv
    rw [refMem_snoc]
    refine h.retable ht hr.1 hk ?_ (fun q hq => update_of_ne hq _ _)
    rw [refStep, update_self]
    exact hr.2

theorem execCall_spec [Mild F] (h : Inv s) : wp (execCall p file uargv) (fun _ s' => Inv s') F s := by
  unfold execCall
  rw [wp_bind, wp_get]
  dsimp only
  split
  · rename_i t tf ht htf
    rw [wp_bind, wp_onMem]
    exact wp_use (sysExec_spec ((h.proc p).user t ht) (h.table ht)) (fun r k' ⟨hk, hr⟩ => takeImage_spec h ht r hk hr)
  · exact h

theorem execInit_spec [Mild F] (h : Inv s) : wp (execInit p file) (fun _ s' => Inv s') F s := by
  unfold execInit
  rw [wp_bind, wp_get]
  dsimp only
  split
  · rename_i t tf ht htf
    rw [wp_bind, wp_onMem]
    refine wp_use (kexec_spec ((h.proc p).user t ht) (h.table ht)) (fun r k' ⟨hk, hr⟩ => ?_)
    cases r with
    | inl _ => exact Mild.of
    | inr im => exact takeImage_spec h ht (.inr im) hk hr
  · exact h

/-! ## Files -/

theorem Inv.of (h : VmInv (refMem s.trace) s') (ht : s'.trace = s.trace) : Inv s' := by
  unfold Inv
  rw [ht]
  exact h

theorem fdalloc_spec (p : Slot) (f : Fin 100) (h : Inv s) :
    wp (fdalloc p f) (fun _ s' => Inv s' ∧ s'.file = s.file) F s := by
  unfold fdalloc
  rw [wp_bind, wp_get]
  dsimp only
  split
  · exact ⟨h, rfl⟩
  · exact ⟨VmInv.setProc h rfl rfl rfl rfl, rfl⟩

theorem clearFd_keep (p : Slot) (fd : Fin 16) (h : Inv s) : wp (clearFd p fd) (fun _ s' => Inv s') F s :=
  wp_use (clearFd_spec p fd h) (fun _ _ ⟨h', ht'⟩ => Inv.of h' ht')

theorem fileclose_keep [Mild F] (f : Fin 100) (h : Inv s) : wp (fileclose f) (fun _ s' => Inv s') F s :=
  wp_use (fileclose_spec f h) (fun _ _ h' => h'.keep)

theorem closeBoth_spec [Mild F] (f g : Fin 100) (h : Inv s) :
    wp (do fileclose f; fileclose g) (fun _ s' => Inv s') F s := by
  exact wp_then (fileclose_keep f h) (fun _ s1 => fileclose_keep g)

theorem sysPipe_spec [Mild F] (h : Inv s) : wp (sysPipe p fdarray) (fun _ s' => Inv s') F s := by
  refine wp_then (pipealloc_spec h) (fun r s1 h1 => ?_)
  have h1 := h1.keep
  cases r with
  | none => exact h1
  | some fs =>
    obtain ⟨rf, wf⟩ := fs
    refine wp_then (fdalloc_spec p rf h1) (fun r s2 ⟨h2, _⟩ => ?_)
    cases r with
    | none => exact closeBoth_spec rf wf h2
    | some fd0 =>
      refine wp_then (fdalloc_spec p wf h2) (fun r s3 ⟨h3, _⟩ => ?_)
      cases r with
      | none =>
        exact wp_then (clearFd_keep p fd0 h3) (fun _ s4 => closeBoth_spec rf wf)
      | some fd1 =>
        refine wp_then (copyoutTo_spec h3) (fun ok0 s4 ⟨h4, _⟩ => ?_)
        rw [wp_bind]
        have hsecond : wp (if ok0 then copyoutTo p (fdarray + 4) ((bytes64 fd1).take 4) else pure false)
            (fun _ => Inv) F s4 :=
          wp_ite (fun _ => wp_use (copyoutTo_spec h4) (fun _ _ h => h.1)) (fun _ => h4)
        refine wp_use hsecond (fun ok1 s5 h5 => ?_)
        refine wp_ite (fun _ => h5) (fun _ => ?_)
        refine wp_then (clearFd_keep p fd0 h5) (fun _ s6 h6 => ?_)
        exact wp_then (clearFd_keep p fd1 h6) (fun _ s7 => closeBoth_spec rf wf)

theorem sysOpen_spec [Mild F] (h : Inv s) : wp (sysOpen p) (fun _ s' => Inv s') F s := by
  refine wp_then (filealloc_spec h) (fun r s1 ⟨h1, hr⟩ => ?_)
  cases r with
  | none => exact h1.keep
  | some f =>
    obtain ⟨h0, hs1⟩ := hr
    have hinv1 := h1.keep
    have hkind : (s1.file f).kind = .none := by
      rw [hs1]
      simp only [update_self]
      exact h.ends.closed f h0
    have href : (s1.file f).ref ≠ 0 := by
      rw [hs1]
      simp
    refine wp_then (fdalloc_spec p f hinv1) (fun r s2 ⟨h2, hf2⟩ => ?_)
    cases r with
    | none => exact fileclose_keep f h2
    | some fd =>
      refine (h2.files (h2.ends.setOther (x := { s2.file f with kind := .other }) (fun _ _ => ?_) (fun _ _ => nofun)
        (fun h0 => ?_))).keep
      · rw [hf2, hkind]
        exact nofun
      · rw [hf2] at h0
        exact absurd h0 href

theorem sysClose_spec [Mild F] (h : Inv s) : wp (sysClose p fd) (fun _ s' => Inv s') F s := by
  unfold sysClose
  rw [wp_bind, wp_get]
  split
  · exact h
  · rename_i f _
    exact wp_then (clearFd_keep p fd h) (fun _ s1 => fileclose_keep f)

theorem sysDup_spec [Mild F] (h : Inv s) : wp (sysDup p fd) (fun _ s' => Inv s') F s := by
  unfold sysDup
  rw [wp_bind, wp_get]
  split
  · exact h
  rename_i f _
  refine wp_then (fdalloc_spec p f h) (fun r s1 ⟨h1, _⟩ => ?_)
  cases r with
  | none => exact h1
  | some _ => exact wp_use (filedup_spec f h1) (fun _ _ h2 => h2.keep)

/-! ## `main` -/

theorem uvmcreate_spec (ha : Acc k E) :
    wp uvmcreate (fun r k' => match r with
      | none => k' = k
      | some t => Wf t ∧ Acc k' (E + tabs t) ∧ Keeps E k k') Any k := by
  refine kalloc_use ha rfl (fun p k1 ha1 hk1 hp href => ?_)
  refine memset_use ha1 hk1 hp href (fun k2 ha2 hk2 _ _ => ?_)
  exact ⟨wf_empty p, ha2.of_eq (by rw [tabs_empty, add_comm, singleton_add]), hk2⟩

theorem kvmmap_spec (hw : Wf t)
    (ha : Acc k (E + tabs t)) : wp (kvmmap t v pa n perm) (fun t' k' => Grown E k t k' t') Any k := by
  unfold kvmmap
  refine wp_then (mappages_grows n hw ha) (fun r k' hg => ?_)
  exact wp_ite (fun _ => hg) (fun _ => trivial)

theorem mapstacks_spec : ∀ (ps : List Slot) {t : Pt} {st : List Nat} {k : Kmem}, Wf t →
    Acc k (E + (st : Multiset Nat) + tabs t) →
    wp (mapstacks t st ps) (fun r k' => Acc k' (E + (r.2 : Multiset Nat) + tabs r.1) ∧ Keeps E k k') Any k
  | [], t, st, k, hw, ha => ⟨ha, Keeps.refl _ _⟩
  | p :: ps, t, st, k, hw, ha => by
    refine kalloc_use ha trivial (fun pa k1 ha1 hk1 _ _ => ?_)
    have ha1' : Acc k1 (E + ((st ++ [pa] : List Nat) : Multiset Nat) + tabs t) := by
      refine ha1.of_eq ?_
      rw [← Multiset.coe_add, coe_singleton, ← add_assoc, ← singleton_add,
        add_comm ({pa} : Multiset Nat), add_right_comm]
    refine wp_then (kvmmap_spec hw ha1') (fun t1 k2 hg => ?_)
    refine wp_use (mapstacks_spec ps hg.wf hg.acc) (fun r k3 ⟨ha3, hk3⟩ => ⟨ha3, Keeps.trans ?_ hk3⟩)
    refine (hk1.mono ?_).trans (hg.keeps.mono (Multiset.le_add_right _ _))
    exact le_trans (Multiset.le_add_right _ _) (Multiset.le_add_right _ _)

theorem Grown.trans (h : Grown E k t k1 t1) (h' : Grown E k1 t1 k2 t2) : Grown E k t k2 t2 :=
  ⟨h'.wf, h'.acc, h.keeps.trans h'.keeps⟩

theorem kvmmap_then {α : Type} {f : Pt → KM α}
    {Q : α → Kmem → Prop} (hg : Grown E k t k1 t1) (hf : ∀ t2 k2, Grown E k t k2 t2 → wp (f t2) Q Any k2) :
    wp (kvmmap t1 v pa n perm >>= f) Q Any k1 := by
  exact wp_then (kvmmap_spec hg.wf hg.acc) (fun t2 k2 hg2 => hf t2 k2 (hg.trans hg2))

theorem kvmmake_spec (ha : Acc k E) :
    wp kvmmake (fun r k' => Acc k' (E + (r.2 : Multiset Nat) + tabs r.1) ∧ Keeps E k k') Any k := by
  refine wp_then (uvmcreate_spec ha) (fun r k1 hr => ?_)
  cases r with
  | none => trivial
  | some t =>
    obtain ⟨hw, ha1, hk1⟩ := hr
    have hg : Grown E k1 t k1 t := ⟨hw, ha1, Keeps.refl _ _⟩
    apply kvmmap_then hg
    intro _ _ hg
    apply kvmmap_then hg
    intro _ _ hg
    apply kvmmap_then hg
    intro _ _ hg
    apply kvmmap_then hg
    intro _ _ hg
    apply kvmmap_then hg
    intro _ _ hg
    apply kvmmap_then hg
    intro t2 k2 h
    refine wp_use (mapstacks_spec _ h.wf (h.acc.of_eq ?_)) (fun r k3 ⟨ha3, hk3⟩ => ⟨ha3, ?_⟩)
    · rw [coe_nil, add_zero]
    · exact (hk1.trans h.keeps).trans hk3

theorem diskPages_spec [Mild F] : ∀ (n : Nat) {l : List Nat} {k : Kmem}, Acc k (E + (l : Multiset Nat)) →
    wp (diskPages l n) (fun r k' => Acc k' (E + (r : Multiset Nat)) ∧ Keeps E k k') F k
  | 0, _, _, ha => ⟨ha, Keeps.refl _ _⟩
  | n + 1, l, k, ha => by
    refine kalloc_use ha Mild.of (fun p k1 ha1 hk1 _ _ => ?_)
    have ha1' : Acc k1 (E + ((l ++ [p] : List Nat) : Multiset Nat)) := by
      refine ha1.of_eq ?_
      rw [← Multiset.coe_add, coe_singleton, ← add_assoc, ← singleton_add, add_comm ({p} : Multiset Nat)]
    exact wp_use (diskPages_spec n ha1') (fun r k2 ⟨ha2, hk2⟩ => ⟨ha2, (hk1.mono (Multiset.le_add_right _ _)).trans hk2⟩)

theorem VmInv.kern {M : Slot → Nat → UInt8} {kpt : Option Pt} {kstack disk : List Nat} (h : VmInv M s)
    (ha : Acc k' (owners { s with kpt := kpt, kstack := kstack, disk := disk })) (hk : Keeps (owners s) s.k k')
    (hst : kpt = none → kstack = []) : VmInv M { s with k := k', kpt := kpt, kstack := kstack, disk := disk } :=
  ⟨ha, fun p => (h.proc p).frame hk (procUses_le_owners s p), h.ends, hst, h.calm⟩

theorem kvminit_spec (h : Inv s) (hno : s.kpt = none) : wp kvminit (fun _ s' => Inv s') Any s := by
  unfold kvminit
  rw [wp_bind, wp_onMem]
  refine wp_use (kvmmake_spec h.acc) (fun r k' ⟨ha, hk⟩ => ?_)
  have hacc : owners s + (r.2 : Multiset Nat) + tabs r.1 = owners { s with kpt := some r.1, kstack := r.2 } := by
    unfold owners core kernUses
    rw [hno, h.kstack hno]
    simp only [coe_nil, zero_add]
    rw [add_assoc, add_comm (r.2 : Multiset Nat), add_comm, ← add_assoc, ← add_assoc]
  have h' : VmInv (refMem s.trace) { s with k := k', kpt := some r.1, kstack := r.2 } := h.kern (ha.of_eq hacc) hk nofun
  exact h'

theorem virtioDiskInit_spec [Mild F] (h : Inv s) (hno : s.disk = []) : wp virtioDiskInit (fun _ s' => Inv s') F s := by
  unfold virtioDiskInit
  rw [wp_bind, wp_onMem]
  refine wp_use (diskPages_spec 3 (h.acc.of_eq (add_zero _).symm)) (fun r k' ⟨ha, hk⟩ => ?_)
  have hacc : owners s + (r : Multiset Nat) = owners { s with disk := r } := by
    unfold owners core kernUses
    rw [hno]
    simp only [coe_nil, add_zero]
    rw [add_right_comm, add_right_comm _ _ (r : Multiset Nat)]
  have h' : VmInv (refMem s.trace) { s with k := k', disk := r } := h.kern (ha.of_eq hacc) hk h.kstack
  exact h'

theorem userinit_spec [Mild F] (h : Inv s) : wp userinit (fun _ s' => Inv s') F s := by
  refine wp_then (allocproc_spec h) (fun r s1 ⟨h1, ht1, hr⟩ => ?_)
  cases r with
  | none => exact Mild.of
  | some np =>
    obtain ⟨-, -, -, -, t, ht⟩ := hr
    have h1' := Inv.of h1 ht1
    have hx : ProcInv s1.k { s1.proc np with state := .live } (refMem s1.trace np) :=
      (h1'.proc np).retable ht (.inr rfl) ht ((h1'.proc np).user t ht)
    exact VmInv.change h1' (h1'.acc.of_eq (owners_split s1 np)) (Keeps.refl _ _) hx (fun _ _ => rfl)

/-! ## Runs -/

/-- Not a lazy `sbrk`. -/
def VmAct.eager : VmAct → Bool
  | .sbrk _ _ lazy => !lazy
  | _ => true

/-- What a process asks for stays below `TRAPFRAME`, whether its memory comes now or later. -/
def GrowsBelow (s : VmState) : VmAct → Prop
  | .sbrk p n _ => Below s p n
  | _ => True

/-- The panics `walk` and `remap` are left open where the step may run into them: while the kernel's own table is made,
and for a process that asks for more than there is below `TRAPFRAME`. -/
def MayFail (F : Panic → Prop) (s : VmState) : VmAct → Prop
  | .kvminit => ∀ e, F e
  | .sbrk p n lazy => lazy = true ∨ Below s p n ∨ (F .walk ∧ F .remap)
  | _ => True

theorem program_spec [Mild F] {m : VM Unit} (hF : MayFail F s a) (h : Inv s) (hm : program s a = some m) :
    wp m (fun _ s' => (Fits s' ∨ a.eager = true ∨ GrowsBelow s a) → Inv s') F s := by
  have hany : ∀ {m : VM Unit} {c : VmState → Prop}, wp m (fun _ => Inv) F s →
      wp m (fun _ s' => c s' → Inv s') F s := fun hw => wp_use hw (fun _ _ h' _ => h')
  cases a <;> simp only [program, ite_none_right_eq_some, some.injEq] at hm <;> obtain ⟨hc, rfl⟩ := hm
  case kvminit =>
    exact wp_mono (kvminit_spec h (isNone_iff_eq_none.1 hc)) (fun _ _ h' _ => h') (fun e _ => hF e)
  case virtioDiskInit => exact hany (virtioDiskInit_spec h hc.2)
  case userinit => exact hany (userinit_spec h)
  case execInit => exact hany (execInit_spec h)
  case fork => exact hany (kfork_spec h hc)
  case exec => exact hany (execCall_spec h)
  case sbrk => exact wp_use (sysSbrk_spec hF h hc) (fun _ _ h' hc' => h' (hc'.imp_right (Or.imp_left (by simp [VmAct.eager]))))
  case read => exact hany (userRead_spec h)
  case store => exact hany (userStore_spec h)
  case copyout =>
    exact wp_then (copyoutTo_spec h) (fun _ _ h' _ => h'.1)
  case copyin =>
    exact wp_then (copyinFrom_spec h) (fun _ _ h' _ => h')
  case pipe => exact hany (sysPipe_spec h)
  case openFile => exact hany (sysOpen_spec h)
  case close => exact hany (sysClose_spec h)
  case dup => exact hany (sysDup_spec h)
  case exit => exact hany (kexit_spec h)
  case wait => exact hany (kwait_spec h hc)

/-- What is kept when the machine has stopped, too. -/
def Sound (s : VmState) : Prop := Inv { s with panic := none }

theorem Inv.sound (h : Inv s) : Sound s := by
  have heq : { s with panic := none } = s := by rw [← h.calm]
  unfold Sound
  rw [heq]
  exact h

theorem vmStep_cases [Mild F] (h : Sound s) (hs : vmStep s a = some s') (hF : MayFail F s a) :
    ((Fits s' ∨ a.eager = true ∨ GrowsBelow s a) → Inv s') ∨ (Inv s ∧ ∃ e, F e ∧ s' = { s with panic := some e }) := by
  unfold vmStep at hs
  split at hs
  · cases hs
  rename_i hcalm
  have hinv : Inv s := by
    have heq : { s with panic := none } = s := by rw [← not_isSome_iff_eq_none.1 hcalm]
    unfold Sound at h
    rw [heq] at h
    exact h
  obtain ⟨m, hm, hs⟩ := map_eq_some_iff.1 hs
  have hw := program_spec hF hinv hm
  split at hs
  · rename_i hrun
    subst hs
    exact .inl (wp_of_ok hw hrun)
  · rename_i e hrun
    exact .inr ⟨hinv, e, wp_of_error hw hrun, hs.symm⟩

omit [Link] in
theorem mayFail_any (s : VmState) (a : VmAct) : MayFail Any s a := by cases a <;> simp [MayFail, Any]

theorem inv_step (h : Sound s) (hs : vmStep s a = some s')
    (hfit : Fits s' ∨ a.eager = true ∨ GrowsBelow s a) : Sound s' := by
  rcases vmStep_cases h hs (mayFail_any s a) with h' | ⟨hinv, e, -, rfl⟩
  · exact (h' hfit).sound
  · exact hinv.sound

theorem inv_boot : Inv vmBoot := by
  have hk : Acc vmBoot.k 0 := by
    have hw := kinit_spec (F := fun _ => False) (k := bareMem) rfl
    unfold vmBoot
    split
    · rename_i hrun
      have hacc := wp_of_ok hw hrun
      exact hacc
    · rename_i hrun
      exact (wp_of_error hw hrun).elim
  have hproc : (procs.map (fun p => procUses (vmBoot.proc p))).sum = 0 := Sum.sum_map_zero (fun _ _ => rfl)
  have hpipes : pipes vmBoot.pipe = 0 := Sum.sum_map_zero (fun _ _ => if_pos rfl)
  refine ⟨hk.of_eq ?_, fun p => ⟨nofun, fun _ => ⟨rfl, rfl⟩, fun _ => ⟨rfl, rfl⟩, nofun, nofun⟩, ⟨fun _ _ => rfl, nofun, nofun,
    fun pi w hw => ?_, fun pi hp => absurd rfl hp⟩, fun _ => rfl, rfl⟩
  · rw [owners, core, hproc, hpipes]
    rfl
  · exact absurd rfl (ne_of_endOpen hw)

theorem inv_run (as : List VmAct) (h : Run.allStates vmStep Fits vmBoot as) : Run.allStates vmStep Sound vmBoot as :=
  Run.allStates_mono (fun _ hs => hs.1) as vmBoot
    (Run.allStates_of_allStates (fun _ _ _ hI _ hs hfit => inv_step hI hs (.inl hfit)) as vmBoot inv_boot.sound h)

theorem fits_of_sound (h : Sound s) : Fits s := fun p => fits_of_inv h p

theorem fits_of_steps (as : List VmAct) (h : Run.allSteps vmStep (fun s a => a.eager = true ∨ GrowsBelow s a) vmBoot as) :
    Run.allStates vmStep Fits vmBoot as :=
  Run.allStates_mono (fun _ => fits_of_sound) as vmBoot
    (Run.allStates_of_allSteps (fun _ _ _ hI hok hs => inv_step hI hs (.inr hok)) as vmBoot inv_boot.sound h)

theorem fits_of_eager (as : List VmAct) (h : ∀ a ∈ as, a.eager = true) : Run.allStates vmStep Fits vmBoot as :=
  fits_of_steps as (Run.allSteps_mono (fun _ _ => .inl) as vmBoot (Run.allSteps_of_forall as vmBoot h))

/-! ## Page accounting -/

/-- The leaf mappings of page `q` below `TRAPFRAME`, over all user page tables. -/
def userMappings (s : VmState) (q : Nat) : Nat :=
  (procs.map (fun p => match (s.proc p).pagetable with
    | none => 0
    | some t => (List.range trapVpn).countP (fun v => decide ((t.pte v).map Pte.pa = some q)))).sum

/-- The kernel's uses of page `q`: page-table pages, kernel stacks, the disk queue, trapframes, pipes. The buffers of
`exec` live within a step. -/
def kernelOwners (s : VmState) (q : Nat) : Nat :=
  (kernUses s).count q +
  (procs.map (fun p => (opt (s.proc p).trapframe).count q + (match (s.proc p).pagetable with
    | none => 0
    | some t => (tabs t).count q))).sum +
  (if ∃ f w, (s.file f).kind = .pipe q w then 1 else 0)

/-- **Physical pages are accounted for.** -/
structure Accounted (s : VmState) : Prop where
  /-- The count is the number of uses. -/
  count : ∀ q, InRange q → s.k.ref q = (userMappings s q + kernelOwners s q : Nat)
  /-- The free list has the pages with count 0, each once. -/
  free : ∀ q, InRange q → s.k.free.count q = if s.k.ref q = 0 then 1 else 0
  /-- `kalloc` hands out a page nobody uses. -/
  fresh : ∀ q k', kalloc.run s.k = .ok (some q, k') → userMappings s q = 0 ∧ kernelOwners s q = 0

omit [Link] in
theorem count_leaves (pte : Nat → Option Pte) (q : Nat) :
    (leaves pte).count q = (List.range trapVpn).countP (fun v => decide ((pte v).map Pte.pa = some q)) := by
  unfold leaves
  induction List.range trapVpn with
  | nil => rfl
  | cons v l ih =>
    rw [List.map_cons, List.sum_cons, count_add, ih, List.countP_cons, Nat.add_comm]
    congr 1
    unfold leaf
    cases (pte v).map Pte.pa with
    | none => rfl
    | some pa => simp [Multiset.count_singleton, eq_comm]

omit [Link] in
theorem count_pipes {file : Fin 100 → File} {pipe : Nat → Bool × Bool} (h : Ends file pipe) (q : Nat) :
    (pipes pipe).count q = if ∃ f w, (file f).kind = .pipe q w then 1 else 0 := by
  have hends : (∃ f w, (file f).kind = .pipe q w) ↔ pipe q ≠ (false, false) := by
    constructor
    · rintro ⟨f, w, hf⟩
      exact ne_of_endOpen (h.isOpen f q w hf)
    intro hne
    have hopen : endOpen (pipe q) false = true ∨ endOpen (pipe q) true = true := by
      revert hne
      generalize pipe q = o
      obtain ⟨a, b⟩ := o
      cases a <;> cases b <;> simp [endOpen]
    rcases hopen with ho | ho
    · obtain ⟨f, hf⟩ := h.hasEnd q false ho
      exact ⟨f, false, hf⟩
    · obtain ⟨f, hf⟩ := h.hasEnd q true ho
      exact ⟨f, true, hf⟩
  have hother : ∀ i, i ≠ q → (pipeUse pipe i).count q = 0 := by
    intro i hi
    unfold pipeUse
    split
    · rfl
    · exact count_eq_zero_of_notMem (fun hm => hi (Multiset.mem_singleton.1 hm).symm)
  rw [pipes, Sum.count_sum_map]
  by_cases hq : pipe q = (false, false)
  · rw [if_neg (fun he => hends.1 he hq)]
    refine Sum.sum_map_zero (fun i _ => ?_)
    by_cases e : i = q
    · rw [e, pipeUse, if_pos hq]
      rfl
    · exact hother i e
  · rw [if_pos (hends.2 hq)]
    have hsum := Sum.sum_map_change (f := fun _ => 0) (g := fun i => (pipeUse pipe i).count q) nodup_pages
      (mem_pages.2 (h.range q hq)) (fun i _ hi => hother i hi)
    rw [add_zero, Sum.sum_map_zero (fun _ _ => rfl), zero_add] at hsum
    rw [hsum, pipeUse, if_neg hq]
    exact Multiset.count_singleton_self q

theorem count_owners (h : Inv s) (q : Nat) : (owners s).count q = userMappings s q + kernelOwners s q := by
  have hsplit : ∀ l : List Slot, (l.map (fun p => (procUses (s.proc p)).count q)).sum =
      (l.map (fun p => match (s.proc p).pagetable with
        | none => 0
        | some t => (List.range trapVpn).countP (fun v => decide ((t.pte v).map Pte.pa = some q)))).sum +
      (l.map (fun p => (opt (s.proc p).trapframe).count q + (match (s.proc p).pagetable with
        | none => 0
        | some t => (tabs t).count q))).sum := by
    intro l
    induction l with
    | nil => rfl
    | cons p l ih =>
      simp only [List.map_cons, List.sum_cons]
      have hp : (procUses (s.proc p)).count q = (match (s.proc p).pagetable with
          | none => 0
          | some t => (List.range trapVpn).countP (fun v => decide ((t.pte v).map Pte.pa = some q))) +
          ((opt (s.proc p).trapframe).count q + (match (s.proc p).pagetable with
          | none => 0
          | some t => (tabs t).count q)) := by
        unfold procUses
        cases (s.proc p).pagetable with
        | none => simp [tableUses]
        | some t =>
          simp only [tableUses, uses, count_add, count_leaves]
          omega
      omega
  rw [owners, core, count_add, count_add, Sum.count_sum_map, hsplit procs, count_pipes h.ends q,
    userMappings, kernelOwners]
  omega

theorem accounted_of_inv (h : Inv s) : Accounted s := by
  have hcount : ∀ q, s.k.ref q = (userMappings s q + kernelOwners s q : Nat) := by
    intro q
    rw [h.acc.ref q, count_owners h q]
  refine ⟨fun q _ => hcount q, fun q hq => ?_, fun q k' hrun => ?_⟩
  · have hfree := h.acc.free q
    have href := h.acc.ref q
    by_cases hmem : q ∈ owners s
    · have := Multiset.count_pos.2 hmem
      rw [if_neg (by omega)]
      exact List.count_eq_zero_of_not_mem (fun hf => (hfree.1 hf).2 hmem)
    · rw [count_eq_zero_of_notMem hmem] at href
      rw [if_pos (by omega)]
      exact List.count_eq_one_of_mem h.acc.nodup (hfree.2 ⟨hq, hmem⟩)
  · have hw := wp_of_ok (kalloc_spec (F := Any) h.acc) hrun
    have h0 := count_eq_zero_of_notMem hw.2.2.1
    rw [count_owners h q] at h0
    omega

theorem accounted_of_sound (h : Sound s) : Accounted s :=
  have hacc := accounted_of_inv h
  ⟨hacc.count, hacc.free, hacc.fresh⟩

/-- **Page accounting**: in every state of every run from `kinit`, whichever calls fail and wherever. -/
theorem pages_accounted (as : List VmAct) (h : Run.allStates vmStep Fits vmBoot as) :
    Run.allStates vmStep Accounted vmBoot as :=
  Run.allStates_mono (fun _ => accounted_of_sound) as vmBoot (inv_run as h)

/-- Where a kernel image ends. -/
@[reducible] def kernelImage : Link := ⟨0x80023, 0x80007, 0x80008⟩

/-- A program without segments: it has a stack. -/
def bareProgram : List UInt8 := [0x7F, 0x45, 0x4C, 0x46] ++ List.replicate 60 0

omit [Link] in
theorem pages_accounted_forkExec :
    @Run.allStates VmState VmAct (@vmStep kernelImage) (@Accounted kernelImage) (@vmBoot kernelImage)
      [.kvminit, .virtioDiskInit, .userinit, .execInit initSlot (some bareProgram), .fork initSlot, .sbrk initSlot 4096 false,
        .pipe initSlot 0, .exit ⟨1, by decide⟩ 0, .wait initSlot 0] :=
  @pages_accounted kernelImage _ (@fits_of_eager kernelImage _ (by decide))

/-! ## Copy-on-write is eager copying -/

/-- **Every byte a process can read is the reference memory's**: `va` is mapped for the user. -/
def Eager (s : VmState) : Prop :=
  ∀ p t va e, (s.proc p).pagetable = some t → t.slot (va / 4096) = some (some e) → e.u = true →
    s.k.mem e.pa (va % 4096) = refMem s.trace p va

theorem eager_of_sound (h : Sound s) : Eager s := by
  intro p t va e ht hslot hue
  have hu := (h.proc p).user t ht
  have hpte := pte_of_slot hslot
  have hs := hu.shows _ (hu.lt_trap hpte hue)
  rw [hpte] at hs
  rw [hs.2 (va % 4096) (by omega)]
  congr 1
  omega

/-- **Copy-on-write fork behaves as an eager copy**, for every tree of processes. -/
theorem cow_is_eager (as : List VmAct) (h : Run.allStates vmStep Fits vmBoot as) :
    Run.allStates vmStep Eager vmBoot as :=
  Run.allStates_mono (fun _ => eager_of_sound) as vmBoot (inv_run as h)

omit [Link] in
theorem cow_is_eager_forkStore :
    @Run.allStates VmState VmAct (@vmStep kernelImage) Eager (@vmBoot kernelImage)
      [.kvminit, .virtioDiskInit, .userinit, .execInit initSlot (some bareProgram), .fork initSlot, .store initSlot 4096 1,
        .store ⟨1, by decide⟩ 4096 2, .copyout initSlot 4096 [3, 4], .exit ⟨1, by decide⟩ 0] :=
  @cow_is_eager kernelImage _ (@fits_of_eager kernelImage _ (by decide))

end Xv6.Vm
