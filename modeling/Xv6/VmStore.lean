import Xv6.VmPerm
/-!
# VmStore — a page that could be written can be written after `fork`

`fork` takes the write permission from a page and `cowfault` gives it back, unless the page is executable. A page that is
not executable can be written by its process and by every process forked from it, whenever there is memory for a copy
(`store_after_fork`); a child whose page is writable and executable is killed by its first store (`rwx_store_kills`).
-/
namespace Xv6.Vm

open List Wp

/-! ## What completes when there is memory -/

section Completes
variable {k : Kmem} {n v p pa : Nat} {t : Pt} {α : Type} {Q : α → Kmem → Prop}

theorem kalloc_completes (h : n < k.free.length) :
    wp kalloc (fun r k' => (∃ p, r = some p) ∧ n ≤ k'.free.length) Any k := by
  unfold kalloc memset
  rw [wp_bind, wp_get]
  cases hf : k.free with
  | nil =>
    rw [hf] at h
    exact absurd h (Nat.not_lt_zero _)
  | cons p rest =>
    rw [hf, length_cons] at h
    simp only [wp_bind, wp_set, wp_modify, wp_pure]
    exact ⟨⟨p, rfl⟩, by omega⟩

theorem kalloc_has {f : Option Nat → KM α} (h : n < k.free.length)
    (hf : ∀ p k', n ≤ k'.free.length → wp (f (some p)) Q Any k') : wp (kalloc >>= f) Q Any k := by
  refine wp_then (kalloc_completes h) (fun r k' ⟨⟨p, hp⟩, hn⟩ => ?_)
  subst hp
  exact hf p k' hn

variable {b : UInt8}

theorem memset_has {f : Unit → KM α}
    (h : n ≤ k.free.length) (hf : ∀ k', n ≤ k'.free.length → wp (f ()) Q Any k') : wp (memset p b >>= f) Q Any k := by
  exact hf _ h

/-- The tables that are missing on the way to page `v`. -/
def missing (t : Pt) (v : Nat) : Nat :=
  (if (t.l1 (v / 2 ^ 18)).isSome then 0 else 1) + (if (t.l0 (v / 2 ^ 9)).isSome then 0 else 1)

/-- **The pages a store to page `v` may need**: one for a copy, or one for the page and those of the tables. -/
def storeNeeds (t : Pt) (v : Nat) : Nat := if (t.pte v).isSome then 1 else missing t v + 1

theorem walkAlloc_completes (hw : Wf t) (hv : v < maxVpn) (h : missing t v ≤ k.free.length) :
    wp (walkAlloc t v) (fun r _ => r.1 = true) Any k := by
  have hlast : ∀ {t1 : Pt} {k1 : Kmem}, ((t1.l0 (v / 2 ^ 9)).isSome = false → 0 < k1.free.length) →
      wp (walkAlloc0 t1 v) (fun r _ => r.1 = true) Any k1 := by
    intro t1 k1 h1
    unfold walkAlloc0
    split
    · rfl
    · rename_i h0
      exact kalloc_has (h1 (by rw [h0]; rfl)) (fun p k2 _ => wp_skip any (fun _ _ => rfl))
  unfold missing at h
  unfold walkAlloc walkAlloc1
  rw [if_neg (by omega)]
  cases h1 : t.l1 (v / 2 ^ 18) with
  | some p =>
    refine hlast (fun h0 => ?_)
    rw [h0] at h
    simp only [Bool.false_eq_true, if_false] at h
    omega
  | none =>
    -- no table is below one that is missing, so two are needed
    have h0 : (t.l0 (v / 2 ^ 9)).isSome = false := by
      cases hq : t.l0 (v / 2 ^ 9) with
      | none => rfl
      | some q =>
        have := hw.l0 _ q hq
        rw [div_div_level, h1] at this
        cases this
    rw [h1, h0] at h
    simp only [Option.isSome_none, Bool.false_eq_true, if_false] at h
    simp only [bind_assoc]
    refine kalloc_has (n := 1) (by omega) (fun p k1 hn => ?_)
    simp only [bind_assoc]
    refine memset_has hn (fun k2 hn2 => ?_)
    exact hlast (fun _ => by omega)

theorem mappages_completes {perm : Flags} (hw : Wf t) (hv : v < maxVpn)
    (h : missing t v ≤ k.free.length) : wp (mappages t v pa perm 1) (fun r _ => r.1 = true) Any k := by
  refine wp_then (walkAlloc_completes hw hv h) (fun r k1 hr => ?_)
  obtain ⟨ok, t1⟩ := r
  dsimp only at ⊢
  subst hr
  rw [if_neg (by simp)]
  exact wp_ite (fun _ => trivial) (fun _ => by rw [if_pos rfl]; rfl)

variable [Link] {e : Pte}

theorem cowfault_completes (hw : Wf t) (he : t.pte v = some e) (hu : e.u = true)
    (hx : e.x = false) (h : 0 < k.free.length) : wp (cowfault t v) (fun r _ => r.1 = true) Any k := by
  unfold cowfault
  rw [wp_bind]
  refine walk_spec (.inr trivial) (fun _ => ?_)
  rw [hw.slot_some he]
  dsimp only
  rw [if_neg (by simp [hu]), if_neg (by simp [hx])]
  refine wp_ite (fun _ => rfl) (fun _ => ?_)
  refine wp_ite (fun _ => ?_) (fun _ => rfl)
  refine kalloc_has h (fun p k1 _ => ?_)
  refine wp_skip any (fun _ k2 => ?_)
  rw [remap_present hw he]
  exact wp_skip any (fun _ k3 => rfl)

theorem cowfault_unmapped {F : Panic → Prop} (hv : v < maxVpn) (hn : t.pte v = none) :
    wp (cowfault t v) (fun r k' => r = (false, t) ∧ k' = k) F k := by
  unfold cowfault
  rw [wp_bind]
  refine walk_spec (.inl hv) (fun _ => ?_)
  split
  · rename_i e hslot
    rw [pte_of_slot hslot] at hn
    cases hn
  · exact ⟨rfl, rfl⟩

theorem vmfault_completes {sz va : Nat} (hw : Wf t) (hv : va / 4096 < maxVpn) (hn : t.pte (va / 4096) = none)
    (hva : va < sz) (h : missing t (va / 4096) < k.free.length) :
    wp (vmfault ⟨t, none⟩ sz va) (fun r _ => ∃ pa, r.1 = some pa) Any k := by
  unfold vmfault ismapped
  rw [if_neg (by omega)]
  simp only [bind_assoc]
  rw [wp_bind]
  refine walk_spec (.inl hv) (fun _ => ?_)
  split
  · rename_i e hslot
    rw [pte_of_slot hslot] at hn
    cases hn
  simp only [pure_bind]
  refine kalloc_has h (fun p k1 hn1 => ?_)
  refine memset_has hn1 (fun k2 hn2 => ?_)
  refine wp_then (mappages_completes hw hv hn2) (fun r k3 hr => ?_)
  obtain ⟨ok, t'⟩ := r
  rw [if_pos hr]
  exact ⟨p, rfl⟩

end Completes

/-! ## Entries that can be written, now or after a fault -/

/-- A page that a store can reach, at once or after a fault: not mapped yet, or a user page that is not executable. -/
def Storable (x : Option Pte) : Prop := ∀ e, x = some e → e.u = true ∧ e.x = false

theorem lasting_storable : Lasting Storable
  | none, none, _, _ => nofun
  | none, some _, h, _ => by
    rintro e ⟨⟩
    exact h
  | some _, some _, ⟨hu, hx, _⟩, hs => by
    rintro e ⟨⟩
    exact ⟨hu.trans (hs _ rfl).1, hx.trans (hs _ rfl).2⟩

variable [Link] {s : VmState}

def Never : Panic → Prop := fun _ => False

theorem step_of_wp {a : VmAct} {m : VM Unit} {Q : Unit → VmState → Prop} (hp : s.panic = none) (hm : program s a = some m)
    (h : wp m Q Never s) : ∃ s', vmStep s a = some s' ∧ Q () s' := by
  unfold vmStep
  rw [if_neg (by rw [hp]; simp), hm, Option.map_some]
  unfold wp at h
  split at h
  · rename_i u s' hrun
    exact ⟨s', by rw [hrun], h⟩
  · exact h.elim

variable {t : Pt} {q : Slot} {va v : Nat}

theorem userStore_through (ht : (s.proc q).pagetable = some t)
    (hw : Wf t) (he : t.pte (va / 4096) = some e) (hu : e.u = true) (hwr : e.w = true) :
    wp (userStore q va b) (fun _ s' => s'.trace = s.trace ++ [.store q va [b]] ∧ s'.proc = s.proc) Never s := by
  have hper : t.permits va .store = some e := by
    unfold Pt.permits
    rw [hw.slot_some he]
    simp [hu, Access.needs, hwr]
  unfold userStore
  rw [wp_bind, wp_get]
  dsimp only
  rw [ht]
  dsimp only
  rw [hper]
  exact ⟨rfl, rfl⟩

structure Ready (q : Slot) (v : Nat) (s s' : VmState) : Prop where
  trace : s'.trace = s.trace
  state : (s'.proc q).state = (s.proc q).state
  entry : ∃ t e, (s'.proc q).pagetable = some t ∧ Wf t ∧ t.pte v = some e ∧ e.u = true ∧ e.w = true

omit [Link] in
theorem Ready.retable {k' : Kmem} (hw : Wf t) (he : t.pte v = some e)
    (hu : e.u = true) (hwr : e.w = true) : Ready q v s { s with
      k := k', proc := Function.update s.proc q { s.proc q with pagetable := some t } } := by
  constructor
  · rfl
  · simp
  · exact ⟨t, e, by simp, hw, he, hu, hwr⟩

theorem pageFault_resolves (h : Inv s) (ht : (s.proc q).pagetable = some t)
    (hst : Storable (t.pte (va / 4096))) (hva : va < 0x80000000) (hin : t.pte (va / 4096) = none → va < (s.proc q).sz)
    (hmem : storeNeeds t (va / 4096) ≤ s.k.free.length) :
    wp (pageFault q va .store) (fun _ s' => Ready q (va / 4096) s s') Never s := by
  have hv : va / 4096 < maxVpn := by
    unfold maxVpn
    omega
  have hu := (h.proc q).user t ht
  unfold pageFault
  rw [wp_bind, wp_get]
  simp only [ht, if_true]
  rw [if_neg (by omega)]
  unfold storeNeeds at hmem
  cases he : t.pte (va / 4096) with
  | some e =>
    rw [he, Option.isSome_some, if_pos rfl] at hmem
    obtain ⟨hue, hxe⟩ := hst e he
    simp only [wp_bind, wp_onMem]
    refine wp_use (wp_and (cowfault_spec (.inl hv) hu (h.table ht))
      (cowfault_completes hu.wf he hue hxe (by omega))) ?_
    rintro r k1 ⟨⟨_, _, hu1, _, hr⟩, hok⟩
    obtain ⟨ok, t1⟩ := r
    obtain ⟨e1, he1, hue1, hwe1⟩ := hr hok
    rw [if_pos hok]
    exact .retable hu1.wf he1 hue1 hwe1
  | none =>
    rw [he, Option.isSome_none, if_neg (by decide)] at hmem
    simp only [wp_bind, wp_onMem, Vm.setProc]
    refine wp_use (cowfault_unmapped hv he) ?_
    rintro r k1 ⟨hr, hk1⟩
    subst hr hk1
    simp only [Bool.false_eq_true, if_false, wp_bind, wp_onMem, wp_modify, Function.update_idem]
    refine wp_use (wp_and (vmfault_spec hu (h.table ht)) (vmfault_completes hu.wf hv he (hin he) (by omega))) ?_
    rintro r k2 ⟨⟨_, _, hu2, _, _, hr⟩, pa, hpa⟩
    obtain ⟨o, a⟩ := r
    subst hpa
    obtain ⟨e2, he2, -, hue2, hwe2⟩ := hr pa rfl
    exact .retable hu2.wf he2 hue2 hwe2

theorem store_completes (h : Inv s) (hlive : (s.proc q).state = .live)
    (ht : (s.proc q).pagetable = some t) (hst : Storable (t.pte (va / 4096))) (hva : va < 0x80000000)
    (hin : t.pte (va / 4096) = none → va < (s.proc q).sz) (hmem : storeNeeds t (va / 4096) ≤ s.k.free.length) (b : UInt8) :
    ∃ n s', n ≤ 1 ∧ Run.run vmStep s (List.replicate (n + 1) (.store q va b)) = some s' ∧
      s'.trace = s.trace ++ [.store q va [b]] ∧ (s'.proc q).state = .live := by
  have hu := (h.proc q).user t ht
  have hprog : ∀ {s : VmState}, (s.proc q).state = .live → program s (.store q va b) = some (userStore q va b) := by
    intro s hl
    simp only [program]
    rw [if_pos hl]
  cases hper : t.permits va .store with
  | some e =>
    obtain ⟨he, hue, hwe⟩ := permits_some hper
    obtain ⟨s1, hs1, htr, hproc⟩ := step_of_wp h.calm (hprog hlive) (userStore_through ht hu.wf he hue hwe)
    refine ⟨0, s1, by omega, ?_, htr, by rw [hproc, hlive]⟩
    rw [replicate_one, Run.run_cons, hs1]
    rfl
  | none =>
    -- the fault, and the store again
    have hfault : wp (userStore q va b) (fun _ => Ready q (va / 4096) s) Never s := by
      unfold userStore
      rw [wp_bind, wp_get]
      dsimp only
      rw [ht]
      dsimp only
      rw [hper]
      exact pageFault_resolves h ht hst hva hin hmem
    obtain ⟨s1, hs1, hr, h1⟩ := step_of_wp h.calm (hprog hlive) (wp_and hfault (userStore_spec (F := Any) h))
    obtain ⟨t1, e1, ht1, hw1, he1, hue1, hwe1⟩ := hr.entry
    have hlive1 := hr.state.trans hlive
    obtain ⟨s2, hs2, htr, hproc⟩ := step_of_wp h1.calm (hprog hlive1) (userStore_through ht1 hw1 he1 hue1 hwe1)
    refine ⟨1, s2, by omega, ?_, by rw [htr, hr.trace], by rw [hproc, hlive1]⟩
    rw [replicate_succ, replicate_one, Run.run_cons, hs1, Option.bind_some, Run.run_cons, hs2]
    rfl

theorem copyoutPage_completes {k : Kmem} {R : Nat → UInt8} {E : Multiset Nat} {sz : Nat}
    (hu : User false k t (pgs sz) R) (ha : Acc k (E + uses t)) (hst : Storable (t.pte v)) (hv : v < pgs sz)
    (hmem : storeNeeds t v ≤ k.free.length) : wp (copyoutPage ⟨t, none⟩ sz v) (fun r _ => ∃ pa, r.1 = some pa) Never k := by
  have hvm : v < maxVpn := lt_maxVpn (lt_of_lt_of_le hv hu.size)
  unfold storeNeeds at hmem
  unfold copyoutPage
  cases he : t.pte v with
  | some e =>
    rw [he, Option.isSome_some, if_pos rfl] at hmem
    obtain ⟨hue, hxe⟩ := hst e he
    rw [hu.wf.walkaddr_of he hue, pure_bind]
    rw [wp_bind]
    refine walk_spec (.inl hvm) (fun _ => ?_)
    rw [hu.wf.slot_some he]
    refine wp_ite (fun _ => ?_) (fun _ => ⟨_, rfl⟩)
    refine wp_then (wp_and (cowfault_spec (.inl hvm) hu ha)
      (cowfault_completes hu.wf he hue hxe (by omega))) (fun r k1 ⟨⟨_, _, hu1, _, hr⟩, hok⟩ => ?_)
    obtain ⟨e1, he1, hue1, -⟩ := hr hok
    rw [wp_pure]
    rw [if_pos hok, hu1.wf.walkaddr_of he1 hue1]
    exact ⟨_, rfl⟩
  | none =>
    rw [he, Option.isSome_none, if_neg (by decide)] at hmem
    have hno : walkaddr t v = none := by
      cases hwa : walkaddr t v with
      | none => rfl
      | some pa =>
        obtain ⟨-, e, he', -⟩ := walkaddr_some hwa
        rw [he] at he'
        cases he'
    have hdiv : v * 4096 / 4096 = v := Nat.mul_div_cancel _ (by omega)
    have hlt : v * 4096 < sz := by
      unfold pgs at hv
      omega
    rw [hno]
    refine wp_then (wp_and (vmfault_spec hu ha) (vmfault_completes hu.wf (by rw [hdiv]; exact hvm)
      (by rw [hdiv]; exact he) hlt (by rw [hdiv]; omega))) (fun r k1 ⟨⟨_, _, hu1, _, _, hr⟩, pa, hpa⟩ => ?_)
    obtain ⟨o, a⟩ := r
    subst hpa
    obtain ⟨e1, he1, -, hue1, hwe1⟩ := hr pa rfl
    rw [hdiv] at he1
    rw [wp_bind]
    refine walk_spec (.inl hvm) (fun _ => ?_)
    rw [hu1.wf.slot_some he1]
    dsimp only
    rw [if_neg (by simp [hwe1])]
    exact ⟨_, rfl⟩

theorem copyoutLoop_nil (fuel : Nat) (a : Tabs) (sz dst done : Nat) :
    copyoutLoop fuel a sz dst [] done = pure (true, a, done) := by
  cases fuel with
  | zero => rfl
  | succ fuel => rw [copyoutLoop, if_pos rfl]

theorem copyout_completes (h : Inv s) (ht : (s.proc q).pagetable = some t)
    (hst : Storable (t.pte (va / 4096))) (hv : va / 4096 < pgs (s.proc q).sz)
    (hmem : storeNeeds t (va / 4096) ≤ s.k.free.length) {bytes : List UInt8} (hlen : va % 4096 + bytes.length ≤ 4096) :
    wp (copyoutTo q va bytes) (fun ok s' => ok = true ∧ s'.trace = s.trace ++ [.store q va bytes]) Never s := by
  have hu := (h.proc q).user t ht
  have hcopy : wp (copyout ⟨t, none⟩ (s.proc q).sz va bytes) (fun r _ => r.1 = true ∧ r.2.2 = bytes.length) Never s.k := by
    unfold copyout
    cases bytes with
    | nil => exact ⟨rfl, rfl⟩
    | cons b bs =>
      have hmin : min (4096 - va % 4096) (b :: bs).length = (b :: bs).length := by omega
      have hvm : va / 4096 < maxVpn := lt_maxVpn (lt_of_lt_of_le hv hu.size)
      rw [length_cons, copyoutLoop, if_neg (by simp), if_neg (by omega)]
      refine wp_then (copyoutPage_completes hu (h.table ht) hst hv hmem) ?_
      rintro r k1 ⟨pa, hpa⟩
      obtain ⟨o, a⟩ := r
      subst hpa
      rw [wp_bind, poke, wp_modify, ← length_cons, hmin, drop_length]
      rw [copyoutLoop_nil]
      exact ⟨rfl, Nat.zero_add _⟩
  unfold copyoutTo
  rw [wp_bind, wp_get]
  dsimp only
  rw [ht]
  simp only [wp_bind, wp_onMem, happens]
  refine wp_use hcopy ?_
  rintro r k1 ⟨hok, hn⟩
  refine ⟨hok, ?_⟩
  rw [hn, take_length]

/-- **`fork` keeps a page writable**, if it is not executable: after any run in which the page goes from process to
process, a store to it by any process that has it completes and so does a copy by the kernel, whenever the memory for a
copy is there. -/
theorem store_after_fork (as bs : List VmAct) {p q : Slot} {va : Nat} {s s₂ : VmState}
    (hbelow : Run.allSteps vmStep (fun s a => a.eager = true ∨ GrowsBelow s a) vmBoot (as ++ bs))
    (hs : Run.run vmStep vmBoot as = some s) (hlive : (s.proc p).state = .live) (hva : va < (s.proc p).sz)
    (hpage : ∃ t, (s.proc p).pagetable = some t ∧ Storable (t.pte (va / 4096)))
    (hs₂ : Run.run vmStep s bs = some s₂) (hcalm : s₂.panic = none)
    (hq : heirs (va / 4096) (fun q => decide (q = p)) (s₂.trace.drop s.trace.length) q = true)
    (hmem : ∀ t, (s₂.proc q).pagetable = some t → storeNeeds t (va / 4096) ≤ s₂.k.free.length) :
    (va < 0x80000000 → va < (s₂.proc q).sz → ∀ b, ∃ n s₃, n ≤ 1 ∧
      Run.run vmStep s₂ (List.replicate (n + 1) (.store q va b)) = some s₃ ∧
      s₃.trace = s₂.trace ++ [.store q va [b]] ∧ (s₃.proc q).state = .live) ∧
    ∀ bytes, va % 4096 + bytes.length ≤ 4096 →
      wp (copyoutTo q va bytes) (fun ok s' => ok = true ∧ s'.trace = s₂.trace ++ [.store q va bytes]) Never s₂ := by
  have hsound := Run.allStates_drop as vmBoot s (inv_run _ (fits_of_steps _ hbelow)) hs
  have h0 : Sound s := Run.allStates_head hsound
  have h2 : Inv s₂ := by
    have hs2 := Run.allStates_last bs s s₂ hsound hs₂
    have heq : { s₂ with panic := none } = s₂ := by rw [← hcalm]
    unfold Sound at hs2
    rwa [heq] at hs2
  obtain ⟨t0, ht0, hst0⟩ := hpage
  have hu0 := (h0.proc p).user t0 ht0
  have hlow : va / 4096 < pgs (s.proc p).sz := by
    unfold pgs
    omega
  obtain ⟨es, htr, hkeep, -⟩ := run_trails (lt_of_lt_of_le hlow hu0.size) bs hs₂
  have hstart : Holds (va / 4096) Storable (fun q => decide (q = p)) s := by
    intro q hq
    rw [of_decide_eq_true hq]
    exact ⟨hlive, ⟨t0, ht0, hu0.wf, hst0⟩, hlow⟩
  rw [htr, drop_left] at hq
  have hhas := hkeep Storable lasting_storable _ hstart q hq
  obtain ⟨t, ht, -, hst⟩ := hhas.table
  constructor
  · intro hkern hsz b
    exact store_completes h2 hhas.live ht hst hkern (fun _ => hsz) (hmem t ht) b
  · intro bytes hlen
    exact copyout_completes h2 ht hst hhas.low (hmem t ht) hlen

omit [Link] in
theorem store_after_fork_twice : ∃ s s₂ : VmState,
    Run.run (@vmStep kernelImage) (@vmBoot kernelImage)
      (.kvminit :: (toUser ++ [.execInit initSlot (some (oneSegment 6))])) = some s ∧
    Run.run (@vmStep kernelImage) s [.fork initSlot, .fork ⟨1, by decide⟩] = some s₂ ∧
    (∀ b, ∃ n s₃, n ≤ 1 ∧
      Run.run (@vmStep kernelImage) s₂ (List.replicate (n + 1) (.store ⟨2, by decide⟩ 7 b)) = some s₃ ∧
      s₃.trace = s₂.trace ++ [.store ⟨2, by decide⟩ 7 [b]] ∧ (s₃.proc ⟨2, by decide⟩).state = .live) ∧
    wp (@copyoutTo kernelImage ⟨2, by decide⟩ 7 [1, 2])
      (fun ok s' => ok = true ∧ s'.trace = s₂.trace ++ [.store ⟨2, by decide⟩ 7 [1, 2]]) Never s₂ := by
  have hrun : ((Run.run (@vmStep kernelImage) (@vmBoot kernelImage)
      (.kvminit :: (toUser ++ [.execInit initSlot (some (oneSegment 6))]))).bind (fun s =>
        (Run.run (@vmStep kernelImage) s [.fork initSlot, .fork ⟨1, by decide⟩]).map (fun s₂ =>
          (decide ((s.proc initSlot).state = .live ∧ 7 < (s.proc initSlot).sz),
            (s.proc initSlot).pagetable.map (fun t => (t.pte 0).map Pte.toFlags),
            decide (s₂.panic = none ∧ 7 < (s₂.proc ⟨2, by decide⟩).sz),
            heirs 0 (fun q => decide (q = initSlot)) (s₂.trace.drop s.trace.length) ⟨2, by decide⟩,
            (s₂.proc ⟨2, by decide⟩).pagetable.map (fun t => decide (storeNeeds t 0 ≤ s₂.k.free.length)))))) =
      some (true, some (some ⟨true, true, false, true⟩), true, true, some true) := by
    rw [@run_booted kernelImage (by decide)]
    decide +kernel
  obtain ⟨s, hs, hrun⟩ := Option.bind_eq_some_iff.1 hrun
  obtain ⟨s₂, hs₂, hrun⟩ := Option.map_eq_some_iff.1 hrun
  simp only [Prod.mk.injEq, decide_eq_true_eq, Option.map_eq_some_iff] at hrun
  obtain ⟨⟨hlive, hva⟩, ⟨t, ht, e, he, hflags⟩, ⟨hcalm, hsz⟩, hheir, t₂, ht₂, hmem⟩ := hrun
  have hst : Storable (t.pte (7 / 4096)) := by
    rintro e' he'
    rw [show 7 / 4096 = 0 from rfl, he] at he'
    cases he'
    rw [hflags]
    exact ⟨rfl, rfl⟩
  have hall := @store_after_fork kernelImage _ _ initSlot ⟨2, by decide⟩ 7 s s₂
    (@allSteps_booted kernelImage _ (by decide) _ (.inl rfl) (by decide +kernel)) hs hlive hva ⟨t, ht, hst⟩ hs₂ hcalm
    hheir (fun t' ht' => by
      rw [ht₂] at ht'
      cases ht'
      exact hmem)
  exact ⟨s, s₂, hs, hs₂, hall.1 (by decide) hsz, hall.2 [1, 2] (by decide)⟩

omit [Link] in
/-- **A page that is writable and executable is lost by `fork`**: the process has written it, the child's first store to it
kills the child, with free pages enough. -/
theorem rwx_store_kills :
    imageBits (oneSegment 7) 0 = some (true, true) ∧
    (Run.run (@vmStep kernelImage) (@vmBoot kernelImage)
      (.kvminit :: (toUser ++ [.execInit initSlot (some (oneSegment 7)), .store initSlot 0 9, .fork initSlot]))).map
      (fun s => (s.trace.drop 1, (s.proc ⟨1, by decide⟩).state, decide (1000 ≤ s.k.free.length))) =
      some ([.store initSlot 0 [9], .fork initSlot ⟨1, by decide⟩], .live, true) ∧
    (Run.run (@vmStep kernelImage) (@vmBoot kernelImage)
      (.kvminit :: (toUser ++ [.execInit initSlot (some (oneSegment 7)), .store initSlot 0 9, .fork initSlot,
        .store ⟨1, by decide⟩ 0 8]))).map
      (fun s => (s.trace.drop 3, (s.proc ⟨1, by decide⟩).state, s.panic)) =
      some ([.exit ⟨1, by decide⟩], .zombie, none) := by
  rw [@run_booted kernelImage (by decide), @run_booted kernelImage (by decide)]
  decide +kernel

end Xv6.Vm
