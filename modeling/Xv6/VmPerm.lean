import Xv6.VmHeirs
import Xv6.VmSize
/-!
# VmPerm — which pages stay read-only

`cowfault` takes a user page that cannot be written and is not executable for one shared by `fork`, and an executable one
for code. So the pages of a program's text stay as `exec` has mapped them, in every process that has them
(`text_stays`); a page that is read-only and not executable becomes writable by the first store (`rodata_written`).
-/
namespace Xv6.Vm

open Option Wp

/-- The process and the file of an `exec`. -/
def VmAct.runs : VmAct → Option (Slot × List UInt8)
  | .execInit p (some f) => some (p, f)
  | .exec p (some f) _ => some (p, f)
  | _ => none

variable [Link] {s s' : VmState}

/-- Page `v` of process `p`, which runs a program in `s'` that it did not run in `s`, is as its segment asks. -/
def Follows (f : List UInt8) (p : Slot) (s s' : VmState) : Prop := s'.trace ≠ s.trace → ∀ v w x, imageBits f v = some (w, x) →
  (s'.proc p).state = (s.proc p).state ∧ v < pgs (s'.proc p).sz ∧
  ∃ t pa, (s'.proc p).pagetable = some t ∧ Ages (some ⟨⟨true, w, x, true⟩, pa⟩) (t.pte v)

variable {p : Slot} {f : List UInt8} {t : Pt}

omit [Link] in
theorem takeImage_follows {k' : Kmem} (r : Pt ⊕ Image)
    (hr : ExecTables (some f) t r) : wp (takeImage p r) (fun _ s' => Follows f p s s') Any { s with k := k' } := by
  unfold takeImage
  rw [wp_bind, wp_get]
  cases r with
  | inl t' => exact fun h => absurd rfl h
  | inr im =>
    simp only [wp_bind, Vm.setProc, happens, wp_modify]
    intro _ v w x hb
    obtain ⟨hv, pa, ha⟩ := hr f rfl v w x hb
    dsimp only
    rw [Function.update_self]
    exact ⟨rfl, hv, im.pt, pa, rfl, ha⟩

section
variable (hw : ∀ t, (s.proc p).pagetable = some t → Wf t)
include hw

theorem execCall_follows {uargv : Nat} : wp (execCall p (some f) uargv) (fun _ s' => Follows f p s s') Any s := by
  unfold execCall
  rw [wp_bind, wp_get]
  dsimp only
  split
  · rename_i t tf ht htf
    rw [wp_bind, wp_onMem]
    exact wp_use (sysExec_tables (hw t ht)) (fun r k' => takeImage_follows r)
  · exact fun h => absurd rfl h

theorem execInit_follows : wp (execInit p (some f)) (fun _ s' => Follows f p s s') Any s := by
  unfold execInit
  rw [wp_bind, wp_get]
  dsimp only
  split
  · rename_i t tf ht htf
    rw [wp_bind, wp_onMem]
    refine wp_use (kexec_tables (hw t ht)) (fun r k' hr => ?_)
    cases r with
    | inl _ => trivial
    | inr im => exact takeImage_follows (.inr im) hr
  · exact fun h => absurd rfl h

end

theorem exec_follows {a : VmAct} (h : Sound s) (ha : a.runs = some (p, f))
    (hs : vmStep s a = some s') : (s.proc p).state = .live ∧ Follows f p s s' := by
  have hw : ∀ t, (s.proc p).pagetable = some t → Wf t := fun t ht => ((h.proc p).user t ht).wf
  unfold vmStep at hs
  split at hs
  · cases hs
  obtain ⟨m, hm, hs⟩ := map_eq_some_iff.1 hs
  have hprog : (s.proc p).state = .live ∧ wp m (fun _ => Follows f p s) Any s := by
    unfold VmAct.runs at ha
    split at ha <;> simp only [some.injEq, reduceCtorEq] at ha
    · obtain ⟨rfl, rfl⟩ := ha
      simp only [program, ite_none_right_eq_some, some.injEq] at hm
      obtain ⟨hc, rfl⟩ := hm
      exact ⟨hc.1, execInit_follows hw⟩
    · obtain ⟨rfl, rfl⟩ := ha
      simp only [program, ite_none_right_eq_some, some.injEq] at hm
      obtain ⟨hc, rfl⟩ := hm
      exact ⟨hc, execCall_follows hw⟩
  refine ⟨hprog.1, ?_⟩
  split at hs
  · rename_i hrun
    subst hs
    exact wp_of_ok (Q := fun _ s' => Follows f p s s') hprog.2 hrun
  · subst hs
    exact fun hne => absurd rfl hne

theorem shows_of_sound {v : Nat} {e : Pte} (h : Sound s) (ht : (s.proc p).pagetable = some t)
    (he : t.pte v = some e) (hv : v < trapVpn) : ∀ o, o < 4096 → s.k.mem e.pa o = refMem s.trace p (v * 4096 + o) := by
  have hs := ((h.proc p).user t ht).shows v hv
  rw [he] at hs
  exact hs.2

/-- **Text stays as `exec` mapped it**, in the process and in every process forked from it, until that process runs
another program, exits or gives the page up: no store, fault, copy or fork makes the page writable or changes a byte. -/
theorem text_stays (as bs : List VmAct) (a : VmAct) {p : Slot} {f : List UInt8} {v : Nat} {s s₁ s₂ : VmState}
    (hbelow : Run.allSteps vmStep (fun s a => a.eager = true ∨ GrowsBelow s a) vmBoot (as ++ a :: bs))
    (hs : Run.run vmStep vmBoot as = some s) (ha : a.runs = some (p, f)) (hs₁ : vmStep s a = some s₁)
    (hok : s₁.trace ≠ s.trace) (hbits : imageBits f v = some (false, true)) (hs₂ : Run.run vmStep s₁ bs = some s₂) :
    ∃ t₁ e₁, (s₁.proc p).pagetable = some t₁ ∧ t₁.pte v = some e₁ ∧ e₁.u = true ∧ e₁.w = false ∧
      ∀ q, heirs v (fun q => decide (q = p)) (s₂.trace.drop s₁.trace.length) q = true →
        ∃ t e, (s₂.proc q).pagetable = some t ∧ t.pte v = some e ∧ e.u = true ∧ e.w = false ∧
          ∀ o, o < 4096 → s₂.k.mem e.pa o = s₁.k.mem e₁.pa o := by
  -- the invariant where the program is run, right after, and at the end
  have hsound := Run.allStates_drop as vmBoot s (inv_run _ (fits_of_steps _ hbelow)) hs
  have h0 : Sound s := Run.allStates_head hsound
  have hsound₁ := Run.allStates_of_some hsound hs₁
  have h1 : Sound s₁ := Run.allStates_head hsound₁
  have h2 : Sound s₂ := Run.allStates_last bs s₁ s₂ hsound₁ hs₂
  obtain ⟨hlive, hfollows⟩ := exec_follows h0 ha hs₁
  obtain ⟨hstate, hlow, t₁, pa, ht₁, hages⟩ := hfollows hok v false true hbits
  have hu₁ := (h1.proc p).user t₁ ht₁
  have hv : v < trapVpn := lt_of_lt_of_le hlow hu₁.size
  have hbar : Barred (t₁.pte v) := Barred.ages hages ⟨_, rfl, rfl, rfl, rfl⟩
  obtain ⟨e₁, he₁, hue₁, hwe₁, -⟩ := id hbar
  refine ⟨t₁, e₁, ht₁, he₁, hue₁, hwe₁, fun q hq => ?_⟩
  -- the page from there on
  obtain ⟨es, htr, hkeep, hclean⟩ := run_trails hv bs hs₂
  have hstart : Holds v Barred (fun q => decide (q = p)) s₁ := by
    intro q hq
    rw [of_decide_eq_true hq]
    exact ⟨hstate.trans hlive, ⟨t₁, ht₁, hu₁.wf, hbar⟩, hlow⟩
  rw [htr, List.drop_left] at hq
  obtain ⟨t, ht, -, e, he, hue, hwe, -⟩ := (hkeep Barred lasting_barred _ hstart q hq).table
  refine ⟨t, e, ht, he, hue, hwe, fun o ho => ?_⟩
  have hbytes := heirs_refMem es _ (refMem s₁.trace) (hclean _ hstart)
    (fun q hq a _ => by rw [of_decide_eq_true hq]) q hq (v * 4096 + o) (by omega)
  rw [shows_of_sound h2 ht he hv o ho, shows_of_sound h1 ht₁ he₁ hv o ho, htr]
  unfold refMem at hbytes ⊢
  rw [List.foldl_append]
  exact hbytes

/-- A program of one segment, a page at address 0 with the given flags. -/
def oneSegment (flags : UInt8) : List UInt8 :=
  [0x7F, 0x45, 0x4C, 0x46] ++ List.replicate 28 0 ++ [64] ++ List.replicate 23 0 ++ [1] ++ List.replicate 7 0 ++
  [1, 0, 0, 0, flags, 0, 0, 0, 120] ++ List.replicate 23 0 ++ [4] ++ List.replicate 7 0 ++ [0, 16] ++
  List.replicate 14 0 ++ [1, 2, 3, 4]

/-- `main`, up to the first program. -/
def toUser : List VmAct := [.virtioDiskInit, .userinit]

omit [Link] in
theorem text_stays_forkStore : ∃ s s₁ s₂ : VmState,
    Run.run (@vmStep kernelImage) (@vmBoot kernelImage) (.kvminit :: toUser) = some s ∧
    @vmStep kernelImage s (.execInit initSlot (some (oneSegment 5))) = some s₁ ∧
    Run.run (@vmStep kernelImage) s₁ [.fork initSlot, .copyout initSlot 0 [9], .store ⟨1, by decide⟩ 8192 9] = some s₂ ∧
    heirs 0 (fun q => decide (q = initSlot)) (s₂.trace.drop s₁.trace.length) ⟨1, by decide⟩ = true ∧
    ∃ t₁ e₁, (s₁.proc initSlot).pagetable = some t₁ ∧ t₁.pte 0 = some e₁ ∧ e₁.u = true ∧ e₁.w = false ∧
      ∀ q, heirs 0 (fun q => decide (q = initSlot)) (s₂.trace.drop s₁.trace.length) q = true →
        ∃ t e, (s₂.proc q).pagetable = some t ∧ t.pte 0 = some e ∧ e.u = true ∧ e.w = false ∧
          ∀ o, o < 4096 → s₂.k.mem e.pa o = s₁.k.mem e₁.pa o := by
  have hrun : ((Run.run (@vmStep kernelImage) (@vmBoot kernelImage) (.kvminit :: toUser)).bind (fun s =>
      (@vmStep kernelImage s (.execInit initSlot (some (oneSegment 5)))).bind (fun s₁ =>
        (Run.run (@vmStep kernelImage) s₁
          [.fork initSlot, .copyout initSlot 0 [9], .store ⟨1, by decide⟩ 8192 9]).map (fun s₂ =>
          (decide (s₁.trace ≠ s.trace),
            heirs 0 (fun q => decide (q = initSlot)) (s₂.trace.drop s₁.trace.length) ⟨1, by decide⟩))))) =
      some (true, true) := by
    rw [@run_booted kernelImage (by decide)]
    decide +kernel
  obtain ⟨s, hs, hrun⟩ := bind_eq_some_iff.1 hrun
  obtain ⟨s₁, hs₁, hrun⟩ := bind_eq_some_iff.1 hrun
  obtain ⟨s₂, hs₂, hrun⟩ := map_eq_some_iff.1 hrun
  obtain ⟨hok, hheir⟩ := Prod.mk.inj hrun
  refine ⟨s, s₁, s₂, hs, hs₁, hs₂, hheir, ?_⟩
  exact @text_stays kernelImage _ _ _ _ (oneSegment 5) 0 s s₁ s₂
    (@allSteps_booted kernelImage _ (by decide) _ (.inl rfl) (by decide +kernel)) hs rfl hs₁ (of_decide_eq_true hok)
    (by decide +kernel) hs₂

def pageView (s : VmState) (p : Slot) (v : Nat) : Option (Flags × UInt8) :=
  (s.proc p).pagetable.bind (fun t => (t.pte v).map (fun e => (e.toFlags, s.k.mem e.pa 0)))

omit [Link] in
/-- **Read-only data is written**: the segment has neither the write nor the execute flag; the first store makes its page
writable and the second changes it. -/
theorem rodata_written :
    imageBits (oneSegment 4) 0 = some (false, false) ∧
    (Run.run (@vmStep kernelImage) (@vmBoot kernelImage)
      (.kvminit :: (toUser ++ [.execInit initSlot (some (oneSegment 4))]))).map (fun s => pageView s initSlot 0) =
      some (some (⟨true, false, false, true⟩, 1)) ∧
    (Run.run (@vmStep kernelImage) (@vmBoot kernelImage)
      (.kvminit :: (toUser ++ [.execInit initSlot (some (oneSegment 4)), .store initSlot 0 9, .store initSlot 0 9]))).map
      (fun s => pageView s initSlot 0) = some (some (⟨true, true, false, true⟩, 9)) := by
  rw [@run_booted kernelImage (by decide), @run_booted kernelImage (by decide)]
  decide +kernel

end Xv6.Vm
