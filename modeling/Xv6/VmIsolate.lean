import Xv6.VmSys
/-!
# VmIsolate — what a process can store to is its own

The reference count of a page that is mapped writable is one (`User.shows`), and it counts every use of the page.
-/
namespace Xv6.Vm

open Multiset
variable [Link] {s : VmState}

/-- **A page a process can store to** is mapped nowhere else below `TRAPFRAME`, and the kernel uses it for nothing: it is
no page of a page table, no trapframe, no kernel stack, no disk queue and no pipe. -/
def Isolated (s : VmState) : Prop :=
  ∀ p t v e, (s.proc p).pagetable = some t → t.slot v = some (some e) → e.u = true → e.w = true →
    e.pa ∉ kernUses s + pipes s.pipe ∧ ∀ q, (s.proc q).trapframe ≠ some e.pa ∧
      ∀ t', (s.proc q).pagetable = some t' → e.pa ∉ tabs t' ∧
        ∀ w f, w < trapVpn → t'.slot w = some (some f) → f.pa = e.pa → q = p ∧ w = v

theorem isolated_of_sound (h : Sound s) : Isolated s := by
  intro p t v e ht hslot hue hwe
  have hp := (h.proc p).user t ht
  have hpte := pte_of_slot hslot
  have hv := hp.lt_trap hpte hue
  have hs := hp.shows v hv
  rw [hpte] at hs
  -- the one use is this mapping
  have hone : (othersThan s [p] + procUses (s.proc p)).count e.pa = 1 := by
    rw [← owners_split s p]
    exact_mod_cast (h.acc.ref e.pa).symm.trans (hs.1 (.inr hwe))
  rw [procUses, ht, tableUses, uses, leaves_remove hv hpte] at hone
  simp only [count_add, count_cons_self] at hone
  have hothers : e.pa ∉ othersThan s [p] := count_eq_zero.1 (by omega)
  have htf : e.pa ∉ opt (s.proc p).trapframe := count_eq_zero.1 (by omega)
  have htabs : e.pa ∉ tabs t := count_eq_zero.1 (by omega)
  have hrest : e.pa ∉ leaves (Function.update t.pte v none) := count_eq_zero.1 (by omega)
  refine ⟨fun hm => hothers (mem_of_le ?_ hm), fun q => ?_⟩
  · rw [othersThan, add_right_comm]
    exact le_add_right _ _
  by_cases hq : q = p
  · subst hq
    refine ⟨fun e' => htf (by simp [e', opt]), fun t' ht' => ?_⟩
    cases ht.symm.trans ht'
    refine ⟨htabs, fun w f hw hslot' hpa => ⟨rfl, ?_⟩⟩
    by_contra hne
    refine hrest (hpa ▸ mem_leaves hw ?_)
    rw [Function.update_of_ne hne]
    exact pte_of_slot hslot'
  · have hno : e.pa ∉ procUses (s.proc q) := fun hm => hothers (mem_of_le (procUses_le (by simpa using hq)) hm)
    refine ⟨fun e' => hno (by simp [procUses, e', opt]), fun t' ht' => ?_⟩
    rw [procUses, ht', tableUses, uses, mem_add, mem_add, not_or, not_or] at hno
    exact ⟨hno.2.1, fun w f hw hslot' hpa => absurd (hpa ▸ mem_leaves hw (pte_of_slot hslot')) hno.2.2⟩

/-- **Isolation**: in every state of every run from `kinit`. -/
theorem writable_pages_isolated (as : List VmAct) (h : Run.allStates vmStep Fits vmBoot as) :
    Run.allStates vmStep Isolated vmBoot as :=
  Run.allStates_mono (fun _ => isolated_of_sound) as vmBoot (inv_run as h)

omit [Link] in
theorem writable_pages_isolated_forkStore :
    @Run.allStates VmState VmAct (@vmStep kernelImage) Isolated (@vmBoot kernelImage)
      [.kvminit, .virtioDiskInit, .userinit, .execInit initSlot (some bareProgram), .fork initSlot, .store initSlot 4096 1] :=
  @writable_pages_isolated kernelImage _ (@fits_of_eager kernelImage _ (by decide))

end Xv6.Vm
