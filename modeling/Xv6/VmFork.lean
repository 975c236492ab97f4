import Xv6.SchedModel
import Xv6.VmSize
/-!
# VmFork — a `fork` that fails leaves no trace

`kforkAll` is `kfork` on the whole system: the memory side is the one of `VmModel`, and with it go the process table, the ready
queue and the references to inodes. Wherever an allocation fails, the pages are given back one use each, and nothing else has
been touched. Nothing is asked of the size of the parent: where `uvmcopy` runs into the trap pages it panics.
-/
namespace Xv6.Vm

open Function
open Multiset (cons_add le_add_left le_add_right mem_add mem_of_le)
open Wp

/-- Memory and processes, the ready queue, the working directories, and the references to inodes. -/
structure ForkState where
  vm : VmState
  kern : Sched.Kern
  cwd : Slot → Option (Fin 50)
  iref : Fin 50 → Nat

abbrev KFM := StateT ForkState (Except Panic)

def onVm {α : Type} (m : VM α) : KFM α := fun s =>
  match m.run s.vm with
  | .ok (a, vm) => .ok (a, { s with vm := vm })
  | .error e => .error e

def idup (iref : Fin 50 → Nat) : Option (Fin 50) → Fin 50 → Nat
  | none => iref
  | some i => update iref i (iref i + 1)

def freeSlot (s : VmState) : Option Slot := (List.finRange nproc).find? (fun p => decide ((s.proc p).state = .unused))

variable [Link]

/-- `kfork` up to the copy of user memory; `none` is the error. -/
def forkMemory (p : Slot) : VM (Option Slot) := do
  match ← allocproc with
  | none => return none
  | some np =>
    let x := (← get).proc p
    let y := (← get).proc np
    match x.pagetable, y.pagetable with
    | some old, some new =>
      let (ok, old, new) ← onMem (uvmcopy old new x.sz)
      setProc p { x with pagetable := some old }
      setProc np { y with pagetable := some new }
      if ok then
        setProc np { y with pagetable := some new, sz := x.sz, parent := some p, state := .live }
        return some np
      else
        freeproc np
        return none
    | _, _ => return none

def forkFiles (p np : Slot) : VM Unit := do
  dupFiles p np
  happens (.fork p np)

theorem kfork_eq (p : Slot) : kfork p = (do
    match ← forkMemory p with
    | none => return ()
    | some np => forkFiles p np) := by
  unfold kfork forkMemory
  rw [bind_assoc]
  congr 1
  funext r
  cases r with
  | none => rfl
  | some np =>
    simp only [bind_assoc]
    congr 1
    funext s
    congr 1
    funext s'
    cases (s.proc p).pagetable with
    | none => rfl
    | some old =>
      cases (s'.proc np).pagetable with
      | none => rfl
      | some new =>
        simp only [bind_assoc]
        congr 1
        funext r
        obtain ⟨ok, old, new⟩ := r
        congr 1
        funext _
        congr 1
        funext _
        cases ok with
        | true => simp only [if_true, bind_assoc, pure_bind, forkFiles]
        | false => simp only [Bool.false_eq_true, if_false, bind_assoc, pure_bind, bind_pure_unit]

/-- `kfork` by `p`: the child's pid, or -1. -/
def kforkAll (p : Slot) : KFM (Option Int) := do
  match freeSlot (← get).vm with
  | none => return none
  | some np =>
    match ← onVm (forkMemory p) with
    | none =>
      modify fun s => { s with kern := Sched.forkChild s.kern p np false }
      return none
    | some np =>
      onVm (forkFiles p np)
      let pid := (← get).kern.nextpid
      modify fun s => { s with
        cwd := update s.cwd np (s.cwd p)
        iref := idup s.iref (s.cwd p)
        kern := Sched.forkReady (Sched.forkParent (Sched.forkChild s.kern p np true) p np) np }
      return some pid

variable {F : Panic → Prop} {s s' vm : VmState} {t t' : Pt} {p np q : Slot} {e : Pte} {own own' : Multiset Nat}

omit [Link] in
theorem wp_onVm {α : Type} {m : VM α} {Q : α → ForkState → Prop} {s : ForkState} :
    wp (onVm m) Q F s ↔ wp m (fun a vm => Q a { s with vm := vm }) F s.vm := by
  unfold wp onVm
  simp only [StateT.run]
  cases m s.vm with
  | ok r => rfl
  | error e => rfl

theorem allocproc_full (h : freeSlot s = none) : wp allocproc (fun r s' => r = none ∧ s' = s) F s := by
  unfold freeSlot at h
  unfold allocproc
  rw [wp_bind, wp_get, h]
  exact ⟨rfl, rfl⟩

theorem kforkAll_vm (p : Slot) (s : ForkState) :
    wp (kforkAll p) (fun _ s' => (kfork p).run s.vm = .ok ((), s'.vm)) Any s := by
  have hafter : ∀ {r vm}, (forkMemory p).run s.vm = .ok (r, vm) → (kfork p).run s.vm =
      (match r with | none => pure () | some np => forkFiles p np : VM Unit).run vm := by
    intro r vm hm
    rw [kfork_eq, StateT.run_bind, hm]
    rfl
  unfold kforkAll
  rw [wp_bind, wp_get]
  cases h : freeSlot s.vm with
  | none =>
    have hm : wp (forkMemory p) (fun r s' => r = none ∧ s' = s.vm) (fun _ => False) s.vm := by
      unfold forkMemory
      refine wp_then (allocproc_full h) (fun r s' ⟨hr, hs⟩ => ?_)
      rw [hr]
      exact ⟨rfl, hs⟩
    obtain ⟨r, vm, hrun, rfl, rfl⟩ := wp_run hm
    exact hafter hrun
  | some np =>
    rw [wp_bind, wp_onVm]
    refine wp_use (wp_self (forkMemory p) (fun _ => trivial) s.vm) (fun r vm hm => ?_)
    cases r with
    | none => exact hafter hm
    | some np =>
      rw [wp_bind, wp_onVm]
      refine wp_use (wp_self (forkFiles p np) (fun _ => trivial) vm) (fun u vm' hf => ?_)
      exact (hafter hm).trans hf

/-! ## Tables that are shared -/

omit [Link] in
/-- Table `t'` is `t` but for `PTE_W` bits that have been cleared. -/
structure Shared (t t' : Pt) : Prop where
  root : t'.root = t.root
  l1 : t'.l1 = t.l1
  l0 : t'.l0 = t.l0
  pte : ∀ v, t'.pte v = t.pte v ∨ ∃ e, t.pte v = some e ∧ t'.pte v = some { e with w := false }

omit [Link] in
theorem Shared.refl (t : Pt) : Shared t t := ⟨rfl, rfl, rfl, fun _ => Or.inl rfl⟩

section
variable (h : Shared t t')
include h
omit [Link]

theorem Shared.share {i : Nat} (he : t'.pte i = some e) : Shared t (t'.share i e) := by
  unfold Pt.share
  split
  · refine ⟨h.root, h.l1, h.l0, fun v => ?_⟩
    unfold Pt.setPte
    dsimp only
    by_cases hv : v = i
    · subst hv
      rw [update_self]
      rcases h.pte v with hp | ⟨e0, h0, hp⟩
      · exact .inr ⟨e, hp ▸ he, rfl⟩
      · rw [hp] at he
        cases he
        exact .inr ⟨e0, h0, rfl⟩
    · rw [update_of_ne hv]
      exact h.pte v
  · exact h

theorem Shared.pa (v : Nat) : (t'.pte v).map Pte.pa = (t.pte v).map Pte.pa := by
  rcases h.pte v with hp | ⟨e, h0, hp⟩
  · rw [hp]
  · rw [h0, hp]
    rfl

theorem Shared.uses : uses t' = uses t := by
  have htabs : tabs t' = tabs t := by
    unfold tabs tab1
    rw [h.root, h.l1, h.l0]
  unfold Vm.uses
  rw [htabs, leaves_congr (fun v _ => h.pa v)]

theorem Shared.wf (hw : Wf t) : Wf t' := by
  refine ⟨fun v e he => ?_, by rw [h.l0, h.l1]; exact hw.l0, by rw [h.l1]; exact hw.l1⟩
  rw [h.l0]
  rcases h.pte v with hp | ⟨e0, h0, -⟩
  · exact hw.pte v e (hp ▸ he)
  · exact hw.pte v e0 h0

theorem Shared.walkaddr (v : Nat) : walkaddr t' v = walkaddr t v := by
  unfold Vm.walkaddr Pt.slot
  rw [h.l1, h.l0]
  split
  · rfl
  by_cases hs : (t.l1 (v / 2 ^ 18)).isSome ∧ (t.l0 (v / 2 ^ 9)).isSome
  · rw [if_pos hs, if_pos hs]
    rcases h.pte v with hp | ⟨e, h0, hp⟩
    · rw [hp]
    · rw [h0, hp]
  · rw [if_neg hs, if_neg hs]

end

def Same (own : Multiset Nat) (k k' : Kmem) : Prop := ∀ p ∈ own, k'.mem p = k.mem p

omit [Link] in
theorem Same.trans {k k' k'' : Kmem} (h : Same own k k') (h' : Same own k' k'') : Same own k k'' :=
  fun p hp => (h' p hp).trans (h p hp)

omit [Link] in
theorem Keeps.same {k k' : Kmem} (h : Keeps own k k') (hle : own' ≤ own) : Same own' k k' :=
  fun p hp => (h p (mem_of_le hle hp)).1

/-- **Between two pages of `uvmcopy`**: `old0` is the table of the parent at the start, `E` what everybody else uses. -/
structure Copying (E : Multiset Nat) (k0 : Kmem) (old0 : Pt) (i : Nat) (k : Kmem) (old new : Pt) : Prop where
  shared : Shared old0 old
  acc : Acc k (E + uses old0 + uses new)
  same : Same (E + uses old0) k0 k
  wf : Wf new
  free : ∀ v, i ≤ v → v < trapVpn → new.pte v = none
  trap : (new.pte trapVpn).isSome = true ∧ (new.pte trampolineVpn).isSome = true
  high : ∀ v e, trapVpn ≤ v → new.pte v = some e → e.u = false

variable {E : Multiset Nat} {k0 k k1 : Kmem} {old0 old new new1 : Pt} {i pa v : Nat}

theorem Copying.page (h : Copying E k0 old0 i k old new) (hi : i < trapVpn)
    (he : old.pte i = some e) (hg : Grown (E + uses old0 + leaves new.pte) k new k1 new1)
    (hp : new1.pte = update new.pte i (some { e.shared with pa := e.pa })) :
    Copying E k0 old0 (i + 1) { k1 with ref := update k1.ref e.pa (k1.ref e.pa + 1) } (old.share i e) new1 := by
  have hnone := h.free i (le_refl i) hi
  have hmem : e.pa ∈ E + uses old0 + leaves new.pte + tabs new1 := by
    refine mem_add.2 (.inl (mem_add.2 (.inl (mem_add.2 (.inr ?_)))))
    rw [← h.shared.uses]
    exact mem_add.2 (.inr (mem_leaves hi he))
  have htr := trap_lt_trampoline
  refine ⟨h.shared.share he, (hg.acc.incref hmem).of_eq ?_, h.same.trans (hg.keeps.same (le_add_right _ _)), hg.wf,
    fun v h1 h2 => ?_, ?_, fun v e' hv he' => ?_⟩
  · unfold uses
    rw [hp, leaves_insert hi hnone]
    simp only [Multiset.add_cons]
    rw [add_assoc _ (leaves new.pte), add_comm (leaves new.pte)]
  · rw [hp, update_of_ne (by omega)]
    exact h.free v (by omega) h2
  · rw [hp, update_of_ne (by omega), update_of_ne (by omega)]
    exact h.trap
  · rw [hp, update_of_ne (by omega)] at he'
    exact h.high v e' hv he'

theorem Copying.back (h : Copying E k0 old0 i k old new) (hi : i < trapVpn)
    (hg : Grown (E + uses old0 + leaves new.pte) k new k1 new1) (hp : new1.pte = new.pte) :
    wp (uvmunmap new1 0 true i) (fun new2 k2 => Acc k2 (E + uses old0 + uses new2) ∧ Same (E + uses old0) k0 k2 ∧
      User false k2 new2 0 (fun _ => 0)) F k1 :=
  wp_use (uvmunmap_emptied h.free h.trap h.high hi hg hp) (fun _ _ ⟨ha2, hk, hu2⟩ => ⟨ha2, h.same.trans (hk.same le_rfl), hu2⟩)

omit [Link] in
theorem mappages_there {perm : Flags} {Q : Bool × Pt → Kmem → Prop} (hw : Wf t)
    (h : (t.pte v).isSome = true) : wp (mappages t v pa perm 1) Q Any k := by
  obtain ⟨e, he⟩ := Option.isSome_iff_exists.1 h
  obtain ⟨h0, hv⟩ := hw.pte v e he
  obtain ⟨q, hq⟩ := Option.isSome_iff_exists.1 h0
  have h1 := hw.l0 _ q hq
  rw [div_div_level] at h1
  unfold mappages
  rw [walkAlloc_there hv h1 h0, pure_bind]
  dsimp only
  rw [if_neg (by decide), if_pos h]
  exact trivial

theorem uvmcopyLoop_back (hw : Wf old0) : ∀ (m : Nat) {old new : Pt} {i : Nat} {k : Kmem}, Copying E k0 old0 i k old new →
    wp (uvmcopyLoop old new i m) (fun r k' => r.1 = false → Shared old0 r.2.1 ∧ Acc k' (E + uses old0 + uses r.2.2) ∧
      Same (E + uses old0) k0 k' ∧ User false k' r.2.2 0 (fun _ => 0)) Any k
  | 0, _, _, _, _, _ => fun h => by cases h
  | m + 1, old, new, i, k, h => by
    unfold uvmcopyLoop
    rw [wp_bind]
    refine (h.shared.wf hw).walk (.inr trivial) (fun e he => ?_) (fun hnone r hr => ?_)
    · dsimp only
      rw [wp_bind]
      by_cases hi : i < trapVpn
      · have ha : Acc k (E + uses old0 + leaves new.pte + tabs new) := h.acc.of_eq (by
          unfold uses
          rw [add_assoc _ (leaves new.pte), add_comm (leaves new.pte)])
        refine wp_use (mappages_spec ⟨.inl (lt_maxVpn hi), .inr trivial⟩ h.wf ha) ?_
        rintro r k1 ⟨hg, hr⟩
        obtain ⟨ok, new1⟩ := r
        refine wp_ite (fun hok => ?_) (fun hok => ?_)
        · rw [if_pos hok] at hr
          rw [wp_bind, incref, wp_modify]
          exact uvmcopyLoop_back hw m (h.page hi he hg hr.2.1)
        · rw [if_neg hok] at hr
          exact wp_then (h.back hi hg hr) (fun new2 k2 h2 _ => ⟨h.shared.share he, h2⟩)
      · refine mappages_there h.wf ?_
        rcases eq_trap_or_trampoline (by omega) ((h.shared.wf hw).pte i e he).2 with rfl | rfl
        · exact h.trap.1
        · exact h.trap.2
    · have hnext : Copying E k0 old0 (i + 1) k old new :=
        ⟨h.shared, h.acc, h.same, h.wf, fun v h1 h2 => h.free v (by omega) h2, h.trap, h.high⟩
      rcases hr with rfl | rfl <;> exact uvmcopyLoop_back hw m hnext

/-! ## The system -/

/-- The byte a process reads at a user address, if it has one there. -/
def byteAt (s : VmState) (q : Slot) (va : Nat) : Option UInt8 :=
  (s.proc q).pagetable.bind fun t => (walkaddr t (va / 4096)).map fun pa => s.k.mem pa (va % 4096)

/-- **What every state keeps, whatever the sizes of the processes**: the accounts, and the shape of the tables. -/
structure Tabled (s : VmState) : Prop where
  acc : Acc s.k (owners s)
  wf : ∀ q t, (s.proc q).pagetable = some t → Wf t
  high : ∀ q t v e, (s.proc q).pagetable = some t → trapVpn ≤ v → t.pte v = some e → e.u = false
  live : ∀ q, (s.proc q).state = .live → (s.proc q).pagetable ≠ none
  unused : ∀ q, (s.proc q).state = .unused → (s.proc q).pagetable = none ∧ (s.proc q).trapframe = none ∧ (s.proc q).sz = 0

theorem VmInv.tabled {M : Slot → Nat → UInt8} (h : VmInv M s) : Tabled s :=
  ⟨h.acc, fun q t ht => ((h.proc q).user t ht).wf, fun q t v e ht hv he => ((h.proc q).user t ht).high v e hv he,
    fun q hq => (h.proc q).live hq, fun q hq => by
      obtain ⟨ht, htf⟩ := (h.proc q).unused hq
      exact ⟨ht, htf, ((h.proc q).gone ht).1⟩⟩

theorem Tabled.mem_owners (h : Tabled s) (ht : (s.proc q).pagetable = some t)
    (hpa : walkaddr t v = some pa) : pa ∈ owners s := by
  obtain ⟨-, e, he, hu, rfl⟩ := walkaddr_some hpa
  have hv : v < trapVpn := by
    by_contra hge
    have := h.high q t v e ht (by omega) he
    rw [hu] at this
    cases this
  refine mem_of_le (procUses_le_owners s q) (mem_of_le (leaves_le_procUses ht) (mem_leaves hv he))

/-- The processes after the attempt: slot `np` is unused, and the parent's table has been shared. -/
structure Undone (p np : Slot) (s s' : VmState) : Prop where
  acc : Acc s'.k (owners s)
  same : Same (owners s) s.k s'.k
  file : s'.file = s.file
  slot : s'.proc np = { unusedProc with ofile := (s.proc np).ofile }
  parent : ∃ t t', (s.proc p).pagetable = some t ∧ s'.proc p = { s.proc p with pagetable := some t' } ∧ Shared t t'
  others : ∀ q, q ≠ p → q ≠ np → s'.proc q = s.proc q

theorem allocproc_back (h : Tabled s) (hnp : freeSlot s = some np)
    (hne : p ≠ np) (hold : (s.proc p).pagetable = some old) :
    wp allocproc (fun r s' => match r with
      | none => Undone p np s s'
      | some q => q = np ∧ ∃ tf t k', s' = { s with
            k := k'
            proc := update s.proc np { s.proc np with state := .used, trapframe := some tf, pagetable := some t } } ∧
          Acc k' (tf ::ₘ owners s + uses t) ∧ Same (owners s) s.k k' ∧ User true k' t 0 (fun _ => 0)) F s := by
  have hst : (s.proc np).state = .unused := by simpa using List.find?_some hnp
  obtain ⟨ht0, htf0, -⟩ := h.unused np hst
  have hun : ∀ {k' : Kmem}, Acc k' (owners s) → Same (owners s) s.k k' → Undone p np s { s with
      k := k', proc := update s.proc np { unusedProc with ofile := (s.proc np).ofile } } := by
    intro k' ha hk
    refine ⟨ha, hk, rfl, update_self .., ⟨old, old, hold, ?_, Shared.refl old⟩, fun q _ hq => update_of_ne hq _ _⟩
    rw [← hold]
    exact update_of_ne hne _ _
  unfold freeSlot at hnp
  unfold allocproc
  rw [wp_bind, wp_get, hnp]
  rw [wp_bind, wp_onMem]
  refine wp_use (kalloc_spec h.acc) (fun r k1 hr => ?_)
  cases r with
  | none =>
    have hr : k1 = s.k := hr
    subst hr
    unfold freeproc
    simp only [wp_bind, wp_get, ht0, htf0]
    exact hun h.acc (fun _ _ => rfl)
  | some tf =>
    obtain ⟨ha1, hk1, -, -⟩ := hr
    simp only [wp_bind, setProc, wp_modify, wp_onMem]
    refine wp_use (procPagetable_spec ha1) ?_
    rintro r k2 ⟨hk2, hr⟩
    have hsame : Same (owners s) s.k k2 := (hk1.same le_rfl).trans (hk2.same (Multiset.le_cons_self _ _))
    cases r with
    | none =>
      unfold freeproc
      simp only [wp_bind, wp_get, wp_onMem, update_self, ht0, freeTable, wp_pure, setProc, wp_modify, update_idem]
      refine wp_use (kfree_spec hr) ?_
      rintro _ k3 ⟨ha3, hk3⟩
      exact hun ha3 (hsame.trans (hk3.same le_rfl))
    | some t =>
      obtain ⟨ha2, hu2⟩ := hr
      simp only [wp_bind, wp_modify, wp_pure, update_idem]
      exact ⟨trivial, tf, t, k2, rfl, ha2, hsame, hu2⟩

theorem forkMemory_back (h : Tabled s) (hp : (s.proc p).state = .live) (hnp : freeSlot s = some np) :
    wp (forkMemory p) (fun r s' => r = none → Undone p np s s') Any s := by
  have hst : (s.proc np).state = .unused := by simpa using List.find?_some hnp
  have hne : p ≠ np := by
    rintro rfl
    rw [hp] at hst
    cases hst
  obtain ⟨-, -, hsz⟩ := h.unused np hst
  obtain ⟨old, hold⟩ := Option.ne_none_iff_exists'.1 (h.live p hp)
  unfold forkMemory
  refine wp_then (allocproc_back h hnp hne hold) (fun r s1 hr => ?_)
  cases r with
  | none => exact fun _ => hr
  | some q =>
    obtain ⟨rfl, tf, new, k1, rfl, ha1, hk1, hu1⟩ := hr
    simp only [wp_bind, wp_get, update_self, update_of_ne hne, hold, wp_onMem]
    -- everybody but the parent and the child
    obtain ⟨E, hE⟩ : ∃ E, E = tf ::ₘ (othersThan s [p] + opt (s.proc p).trapframe) := ⟨_, rfl⟩
    have howners : tf ::ₘ owners s = E + uses old := by
      rw [hE, owners_split s p, procUses, hold, tableUses, cons_add, add_assoc]
    have hcopy : Copying E k1 old 0 k1 old new :=
      ⟨Shared.refl old, ha1.of_eq (by rw [howners]), fun _ _ => rfl, hu1.wf,
        fun v _ hv => hu1.none_of_ge hv (Nat.zero_le v), hu1.trap, hu1.high⟩
    refine wp_use (uvmcopyLoop_back (h.wf p old hold) (pgs (s.proc p).sz) hcopy) (fun r k2 hr => ?_)
    obtain ⟨ok, old', new'⟩ := r
    refine wp_ite (fun _ h => by cases h) (fun hok => ?_)
    obtain ⟨hsh, ha2, hk2, hu2⟩ := hr (by simpa using hok)
    unfold freeproc
    simp only [wp_bind, wp_get, wp_onMem, update_self]
    have ha2' : Acc k2 (tf ::ₘ (owners s + uses new')) := ha2.of_eq (by rw [← howners, cons_add])
    refine wp_use (kfree_spec ha2') ?_
    rintro _ k3 ⟨ha3, hk3⟩
    have hu3 : User false k3 new' (pgs (s.proc q).sz) (fun _ => 0) := by
      rw [hsz]
      exact hu2.frame hk3 (le_trans (le_add_left _ _) (le_add_left _ _))
    refine wp_use (procFreepagetable_spec hu3 ha3) ?_
    rintro _ k4 ⟨ha4, hk4⟩ _
    have hsame : Same (owners s) s.k k4 := by
      refine ((hk1.trans (fun x hx => hk2 x ?_)).trans (hk3.same (le_add_right _ _))).trans (hk4.same le_rfl)
      rw [← howners]
      exact Multiset.mem_cons_of_mem hx
    refine ⟨ha4, hsame, rfl, update_self _ _ _, ⟨old, old', hold, ?_, hsh⟩, fun x hxp hxq => ?_⟩
    · simp only [update_of_ne hne, update_self]
    · simp only [update_of_ne hxq, update_of_ne hxp]

/-- **No trace**: counts, free pages, memory contents, files, inodes and the ready queue are as before, and so are the states
of the processes. -/
structure NoTrace (p : Slot) (s s' : ForkState) : Prop where
  ref : s'.vm.k.ref = s.vm.k.ref
  free : ∀ q, q ∈ s'.vm.k.free ↔ q ∈ s.vm.k.free
  bytes : ∀ q va, byteAt s'.vm q va = byteAt s.vm q va
  file : s'.vm.file = s.vm.file
  iref : s'.iref = s.iref
  rq : s'.kern.rq = s.kern.rq
  state : ∀ q, (s'.vm.proc q).state = (s.vm.proc q).state
  slot : ∀ np, freeSlot s.vm = some np → (s'.vm.proc np).state = .unused ∧ (s'.vm.proc np).pagetable = none ∧
    (s'.vm.proc np).trapframe = none ∧ (s'.kern.proc np).state = .unused
  table : ∀ q, q ≠ p → (s'.vm.proc q).pagetable = (s.vm.proc q).pagetable

theorem Undone.bytes (h : Undone p np s s') (hs : Tabled s) (hnp : (s.proc np).pagetable = none)
    (q : Slot) (va : Nat) : byteAt s' q va = byteAt s q va := by
  -- a page that is read holds what it held
  have hpage : ∀ {t t' : Pt}, (s.proc q).pagetable = some t → (s'.proc q).pagetable = some t' →
      walkaddr t' (va / 4096) = walkaddr t (va / 4096) → byteAt s' q va = byteAt s q va := by
    intro t t' ht ht' hwalk
    unfold byteAt
    rw [ht, ht', Option.bind_some, Option.bind_some, hwalk]
    cases hpa : walkaddr t (va / 4096) with
    | none => rfl
    | some pa =>
      rw [Option.map_some, Option.map_some, h.same pa (hs.mem_owners ht hpa)]
  by_cases hqn : q = np
  · subst hqn
    unfold byteAt
    rw [h.slot, hnp]
    rfl
  by_cases hqp : q = p
  · subst hqp
    obtain ⟨t, t', ht, hp', hsh⟩ := h.parent
    exact hpage ht (by rw [hp']) (hsh.walkaddr _)
  have hq := h.others q hqp hqn
  cases ht : (s.proc q).pagetable with
  | none =>
    unfold byteAt
    rw [hq, ht]
    rfl
  | some t => exact hpage ht (by rw [hq, ht]) rfl

theorem Undone.noTrace {s : ForkState} (h : Undone p np s.vm vm) (hs : Tabled s.vm)
    (hnp : freeSlot s.vm = some np) : NoTrace p s { s with vm := vm, kern := Sched.forkChild s.kern p np false } := by
  have hst : (s.vm.proc np).state = .unused := by simpa using List.find?_some hnp
  obtain ⟨ht0, -, -⟩ := hs.unused np hst
  obtain ⟨t, t', -, hp, -⟩ := h.parent
  refine ⟨funext (fun q => ?_), fun q => ?_, h.bytes hs ht0, h.file, rfl, rfl, fun q => ?_, fun np' hnp' => ?_, fun q hq => ?_⟩
  · rw [h.acc.ref q, hs.acc.ref q]
  · rw [h.acc.free q, hs.acc.free q]
  · dsimp only
    by_cases hqn : q = np
    · rw [hqn, h.slot, hst]
      rfl
    · by_cases hqp : q = p
      · rw [hqp, hp]
      · rw [h.others q hqp hqn]
  · rw [hnp] at hnp'
    cases hnp'
    rw [h.slot]
    refine ⟨rfl, rfl, rfl, ?_⟩
    simp [Sched.forkChild, Sched.freeproc, Sched.setProc, Sched.unusedProc]
  · dsimp only
    by_cases hqn : q = np
    · rw [hqn, h.slot, ht0]
      rfl
    · rw [h.others q hq hqn]

/-- **A failed `fork` leaves no trace**: for every state with right accounts and every size of the parent's address space,
wherever an allocation has failed. -/
theorem failed_fork_no_trace {s s' : ForkState} {p : Slot} (h : Tabled s.vm) (hp : (s.vm.proc p).state = .live)
    (hr : (kforkAll p).run s = .ok (none, s')) : NoTrace p s s' := by
  have hspec : wp (kforkAll p) (fun r s' => r = none → NoTrace p s s') Any s := by
    unfold kforkAll
    rw [wp_bind, wp_get]
    cases hnp : freeSlot s.vm with
    | none =>
      refine fun _ => ⟨rfl, fun _ => Iff.rfl, fun _ _ => rfl, rfl, rfl, rfl, fun _ => rfl, fun np h' => ?_, fun _ _ => rfl⟩
      rw [hnp] at h'
      cases h'
    | some np =>
      rw [wp_bind, wp_onVm]
      refine wp_use (forkMemory_back h hp hnp) (fun r vm hvm => ?_)
      cases r with
      | none => exact fun _ => (hvm rfl).noTrace h hnp
      | some np =>
        exact wp_then (wp_true _ (fun _ => trivial) _) (fun _ _ _ => nofun)
  exact wp_of_ok hspec hr rfl

omit [Link] in
/-- A kernel that ends 182 pages below `PHYSTOP`. -/
abbrev smallMemory : Link := ⟨stopPage - 182, 0x80007, 0x80008⟩

omit [Link] in
/-- With five pages left, the first program cannot be copied. -/
theorem failed_fork_no_trace_small : ∃ s s' : ForkState,
    Run.run (@vmStep smallMemory) (@vmBoot smallMemory) (.kvminit :: toInit) = some s.vm ∧ s.vm.k.free.length = 5 ∧
    (@kforkAll smallMemory initSlot).run s = .ok (none, s') ∧ NoTrace initSlot s s' := by
  have hrun : ((Run.run (@vmStep smallMemory) (@vmBoot smallMemory) (.kvminit :: toInit)).any fun s =>
      s.k.free.length = 5 ∧ (s.proc initSlot).state = .live ∧
      ((@kforkAll smallMemory initSlot).run ⟨s, Sched.boot, fun _ => none, fun _ => 0⟩).toOption.map Prod.fst = some none) =
      true := by
    rw [@run_booted smallMemory (by decide)]
    decide +kernel
  obtain ⟨s, hs, hfork⟩ := (Option.any_eq_true _ _).1 hrun
  simp only [decide_eq_true_eq] at hfork
  obtain ⟨hfree, hlive, hfork⟩ := hfork
  obtain ⟨⟨r, s'⟩, hr, hnone⟩ := Option.map_eq_some_iff.1 hfork
  cases hnone
  have hfits := @fits_of_eager smallMemory (.kvminit :: toInit) (by decide)
  have hsound : @Sound smallMemory s := Run.allStates_last _ _ _ (@inv_run smallMemory _ hfits) hs
  have hok : (@kforkAll smallMemory initSlot).run ⟨s, Sched.boot, fun _ => none, fun _ => 0⟩ = .ok (none, s') := by
    cases hk : (@kforkAll smallMemory initSlot).run ⟨s, Sched.boot, fun _ => none, fun _ => 0⟩ with
    | error e => simp [hk, Except.toOption] at hr
    | ok x => simpa [hk, Except.toOption] using hr
  have ht : @Tabled smallMemory s := by
    obtain ⟨hacc, hwf, hhigh, hall, hunused⟩ := @VmInv.tabled smallMemory _ _ hsound
    exact @Tabled.mk smallMemory s hacc hwf hhigh hall hunused
  have hno := @failed_fork_no_trace smallMemory ⟨s, Sched.boot, fun _ => none, fun _ => 0⟩ s' initSlot ht hlive hok
  exact ⟨⟨s, Sched.boot, fun _ => none, fun _ => 0⟩, s', hs, hfree, hok, hno⟩

end Xv6.Vm
