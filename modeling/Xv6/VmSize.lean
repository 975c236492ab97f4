import Xv6.VmBoot
import Xv6.VmSys
/-!
# VmSize — how large a process may become

`sbrk` checks a request against nothing but the wrap-around of the address. A process whose requests stay below
`TRAPFRAME` is safe: the walks of the kernel stay below `MAXVA`, the two trap pages stay where they are, and its page
table can be taken apart. A process that asks for more stops the machine.
-/
namespace Xv6.Vm

open Multiset Wp
variable [Link] {s s' : VmState}

/-! ## Panics -/

/-- A machine that has its kernel page table has not stopped with `walk`, `remap` or `freewalk: leaf`. -/
def Tamed (s : VmState) : Prop := s.kpt.isSome = true → ∀ e, s.panic = some e → Tame e

theorem vmStep_kvminit_none (h : s.kpt.isSome = true) : vmStep s .kvminit = none := by
  have hprog : program s .kvminit = none := by
    exact if_neg (by simpa [Option.isSome_iff_ne_none] using h)
  unfold vmStep
  rw [hprog]
  split <;> rfl

theorem tamed_step {a : VmAct} (h : Sound s) (hs : vmStep s a = some s')
    (hok : a ≠ .kvminit → MayFail Tame s a) (hfit : Fits s' ∨ a.eager = true ∨ GrowsBelow s a) : Tamed s' := by
  intro hk e he
  have hne : a ≠ .kvminit ∨ s'.panic = none := by
    rcases vmStep_cases h hs (mayFail_any s a) with h' | ⟨-, e', -, rfl⟩
    · exact .inr (h' hfit).calm
    refine .inl ?_
    rintro rfl
    have hsome : s.kpt.isSome = true := hk
    rw [vmStep_kvminit_none hsome] at hs
    cases hs
  rcases hne with hne | hnone
  · rcases vmStep_cases h hs (hok hne) with h' | ⟨-, e', ht, rfl⟩
    · have hcalm := (h' hfit).calm
      rw [hcalm] at he
      cases he
    · cases he
      exact ht
  · rw [hnone] at he
    cases he

theorem tamed_boot : Tamed vmBoot := nofun

/-! ## Sizes -/

/-- **A process stays below the trap pages.** -/
structure BelowTrap (s : VmState) : Prop where
  size : ∀ p, (s.proc p).sz ≤ trapVpn * 4096
  /-- Both pages stay mapped. -/
  mapped : ∀ p t, (s.proc p).pagetable = some t →
    (t.pte trapVpn).isSome = true ∧ (t.pte trampolineVpn).isSome = true
  /-- Neither is freed. -/
  trapframe : ∀ p tf, (s.proc p).trapframe = some tf → tf ∉ s.k.free
  trampoline : Link.trampoline < Link.endPage → Link.trampoline ∉ s.k.free
  /-- No walk reaches `MAXVA` and no page is mapped twice. -/
  calm : s.kpt.isSome = true → s.panic ≠ some .walk ∧ s.panic ≠ some .remap

theorem belowTrap_of_sound (h : Sound s) (ht : Tamed s) : BelowTrap s := by
  have hinv : Inv { s with panic := none } := h
  refine ⟨fits_of_sound h, fun p t hpt => ((hinv.proc p).user t hpt).trap, fun p tf htf hfree => ?_, fun hlt hfree => ?_,
    fun hk => ⟨fun he => (ht hk _ he).1 rfl, fun he => (ht hk _ he).2.1 rfl⟩⟩
  · refine ((hinv.acc.free tf).1 hfree).2 ?_
    refine Multiset.mem_of_le (procUses_le_owners { s with panic := none } p) ?_
    refine mem_add.2 (.inl ?_)
    rw [htf, opt_some]
    exact Multiset.mem_singleton_self tf
  · have hrange := ((hinv.acc.free _).1 hfree).1.1
    omega

/-- **The user size stays below the trap pages**, where every request does. -/
theorem size_below_trapframe (as : List VmAct) (h : Run.allSteps vmStep GrowsBelow vmBoot as) :
    Run.allStates vmStep BelowTrap vmBoot as := by
  have hall : Run.allStates vmStep (fun s => Sound s ∧ Tamed s) vmBoot as := by
    refine Run.allStates_of_allSteps (fun s a s' hI hok hs => ?_) as vmBoot ⟨inv_boot.sound, tamed_boot⟩ h
    have hfit : Fits s' ∨ a.eager = true ∨ GrowsBelow s a := .inr (.inr hok)
    refine ⟨inv_step hI.1 hs hfit, tamed_step hI.1 hs (fun hne => ?_) hfit⟩
    cases a
    case kvminit => exact absurd rfl hne
    case sbrk p n lazy => exact .inr (.inl hok)
    all_goals trivial
  exact Run.allStates_mono (fun s hs => belowTrap_of_sound hs.1 hs.2) as vmBoot hall

instance (s : VmState) (p : Slot) (n : Int) : Decidable (Below s p n) := inferInstanceAs (Decidable (0 < n → _))

instance (s : VmState) : (a : VmAct) → Decidable (GrowsBelow s a)
  | .sbrk p n _ => inferInstanceAs (Decidable (Below s p n))
  | .kvminit | .virtioDiskInit | .userinit | .execInit _ _ | .fork _ | .exec _ _ _ | .read _ _ _ | .store _ _ _
  | .copyout _ _ _ | .copyin _ _ _ | .pipe _ _ | .openFile _ | .close _ _ | .dup _ _ | .exit _ _ | .wait _ _ =>
    isTrue trivial

def toInit : List VmAct := [.virtioDiskInit, .userinit, .execInit initSlot (some bareProgram)]

omit [Link] in
theorem holds_of_boot (as : List VmAct) (P : VmState → Pt → Prop) [∀ s t, Decidable (P s t)]
    (h : ((Run.run (@vmStep kernelImage) (@booted kernelImage) as).bind fun s =>
      (s.proc initSlot).pagetable.map (fun t => decide (P s t))) = some true) :
    ∃ s t, Run.run (@vmStep kernelImage) (@vmBoot kernelImage) (.kvminit :: as) = some s ∧
      (s.proc initSlot).pagetable = some t ∧ P s t := by
  obtain ⟨s, hs, h⟩ := Option.bind_eq_some_iff.1 h
  obtain ⟨t, ht, h⟩ := Option.map_eq_some_iff.1 h
  exact ⟨s, t, (@run_booted kernelImage (by decide) as).trans hs, ht, of_decide_eq_true h⟩

omit [Link] in
theorem size_below_trapframe_forkShrink :
    @Run.allStates VmState VmAct (@vmStep kernelImage) (@BelowTrap kernelImage) (@vmBoot kernelImage)
      (.kvminit :: (toInit ++ [.sbrk initSlot 4096 false, .sbrk initSlot 100000 true, .fork initSlot,
        .sbrk initSlot (-70000) false, .exit ⟨1, by decide⟩ 0, .wait initSlot 0])) :=
  @size_below_trapframe kernelImage _ (@allSteps_booted kernelImage _ (by decide) _ trivial (by decide +kernel))

omit [Link] in
/-- **Nothing stops a process from growing past `TRAPFRAME`**: 129 lazy requests do, and shrinking again then walks above
`MAXVA`. -/
theorem size_grows_past_trapframe :
    (@Run.run VmState VmAct (@vmStep kernelImage) (@vmBoot kernelImage)
      (.kvminit :: (toInit ++ List.replicate 129 (.sbrk initSlot (2 ^ 31 - 1) true) ++ [.sbrk initSlot (-4096) false]))).map
      (fun s => (decide ((s.proc initSlot).sz ≤ trapVpn * 4096), s.kpt.isSome, s.panic)) =
    some (false, true, some .walk) := by
  rw [@run_booted kernelImage (by decide)]
  decide +kernel

/-! ## Address spaces -/

/-- What a process asks for at once stays below `TRAPFRAME`. -/
def EagerBelow (s : VmState) : VmAct → Prop
  | .sbrk p n false => Below s p n
  | _ => True

/-- **The address space of a process ends at its size**, and can be given back. -/
structure Contained (s : VmState) : Prop where
  leaves : ∀ p t v e, (s.proc p).pagetable = some t → t.pte v = some e →
    v < pgs (s.proc p).sz ∨ v = trapVpn ∨ v = trampolineVpn
  calm : s.kpt.isSome = true → s.panic ≠ some .remap ∧ s.panic ≠ some .freewalkLeaf
  /-- `proc_freepagetable` ends; each page has one count less for each use the table made of it, and a page without uses
  is free. -/
  frees : ∀ p t, (s.proc p).pagetable = some t → wp (procFreepagetable t (s.proc p).sz) (fun _ k' => ∀ q,
    k'.ref q = s.k.ref q - (uses t).count q ∧ (InRange q → (q ∈ k'.free ↔ k'.ref q = 0))) (fun _ => False) s.k

theorem contained_of_sound (h : Sound s) (ht : Tamed s) : Contained s := by
  have hinv : Inv { s with panic := none } := h
  refine ⟨fun p t v e hpt he => ?_, fun hk => ⟨fun he => (ht hk _ he).2.1 rfl, fun he => (ht hk _ he).2.2 rfl⟩,
    fun p t hpt => ?_⟩
  · have hu := (hinv.proc p).user t hpt
    by_cases hv : v < trapVpn
    · exact .inl (hu.bound v e hv he)
    · exact .inr (eq_trap_or_trampoline (by omega) (hu.wf.pte v e he).2)
  have hacc := hinv.table hpt
  refine wp_use (procFreepagetable_spec ((hinv.proc p).user t hpt) hacc) (fun _ k' ⟨ha', _⟩ q => ?_)
  have hold := hacc.ref q
  have hnew := ha'.ref q
  rw [Multiset.count_add] at hold
  refine ⟨?_, fun hq => ?_⟩
  · dsimp only at hold hnew
    omega
  rw [ha'.free q, hnew]
  constructor
  · intro hfree
    rw [Multiset.count_eq_zero_of_notMem hfree.2]
    rfl
  · intro hzero
    exact ⟨hq, Multiset.count_eq_zero.1 (by exact_mod_cast hzero)⟩

/-- **The address-space invariant**: in every run in which no process is larger than what lies below `TRAPFRAME` and none
asks for more at once. -/
theorem address_space (as : List VmAct) (hfits : Run.allStates vmStep Fits vmBoot as)
    (h : Run.allSteps vmStep EagerBelow vmBoot as) : Run.allStates vmStep Contained vmBoot as := by
  have hall : Run.allStates vmStep (fun s => Sound s ∧ Tamed s) vmBoot as := by
    refine Run.allStates_of_allSteps (fun s a s' hI hok hs => ?_) as vmBoot ⟨inv_boot.sound, tamed_boot⟩
      (Run.allSteps_and as vmBoot h (Run.allSteps_next as vmBoot hfits))
    have hfit : Fits s' ∨ a.eager = true ∨ GrowsBelow s a := .inl (hok.2 s' hs)
    refine ⟨inv_step hI.1 hs hfit, tamed_step hI.1 hs (fun hne => ?_) hfit⟩
    cases a
    case kvminit => exact absurd rfl hne
    case sbrk p n lazy =>
      cases lazy with
      | true => exact .inl rfl
      | false => exact .inr (.inl hok.1)
    all_goals trivial
  exact Run.allStates_mono (fun s hs => contained_of_sound hs.1 hs.2) as vmBoot hall

instance (s : VmState) : (a : VmAct) → Decidable (EagerBelow s a)
  | .sbrk p n false => inferInstanceAs (Decidable (Below s p n))
  | .sbrk _ _ true => isTrue trivial
  | .kvminit | .virtioDiskInit | .userinit | .execInit _ _ | .fork _ | .exec _ _ _ | .read _ _ _ | .store _ _ _
  | .copyout _ _ _ | .copyin _ _ _ | .pipe _ _ | .openFile _ | .close _ _ | .dup _ _ | .exit _ _ | .wait _ _ =>
    isTrue trivial

omit [Link] in
theorem address_space_forkFault :
    @Run.allStates VmState VmAct (@vmStep kernelImage) (@Contained kernelImage) (@vmBoot kernelImage)
      (.kvminit :: (toInit ++ [.sbrk initSlot 5000 false, .sbrk initSlot 100000 true, .store initSlot 50000 1,
        .fork initSlot, .store ⟨1, by decide⟩ 50000 2, .sbrk initSlot (-70000) false, .exit ⟨1, by decide⟩ 0])) :=
  @address_space kernelImage _
    (@fits_of_steps kernelImage _ (@allSteps_booted kernelImage _ (by decide) _ (.inl rfl) (by decide +kernel)))
    (@allSteps_booted kernelImage _ (by decide) _ trivial (by decide +kernel))

omit [Link] in
/-- **A process that fits can still run into the trapframe**: it grows lazily to one page below it and then asks for two
pages at once. -/
theorem eager_growth_remaps :
    @Run.allStates VmState VmAct (@vmStep kernelImage) Fits (@vmBoot kernelImage)
      (.kvminit :: (toInit ++ List.replicate 127 (.sbrk initSlot (2 ^ 31 - 1) true) ++
        [.sbrk initSlot 2147463295 true, .sbrk initSlot 8192 false])) ∧
    (@Run.run VmState VmAct (@vmStep kernelImage) (@vmBoot kernelImage)
      (.kvminit :: (toInit ++ List.replicate 127 (.sbrk initSlot (2 ^ 31 - 1) true) ++
        [.sbrk initSlot 2147463295 true, .sbrk initSlot 8192 false]))).map
      (fun s => ((s.proc initSlot).sz, s.panic)) = some (trapVpn * 4096 - 4096, some .remap) := by
  constructor
  · exact @fits_of_steps kernelImage _ (@allSteps_booted kernelImage _ (by decide) _ (.inl rfl) (by decide +kernel))
  · rw [@run_booted kernelImage (by decide)]
    decide +kernel

end Xv6.Vm
