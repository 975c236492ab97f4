import Xv6.VmFiles
/-!
# VmProc — `proc.c`, `trap.c` and `main`: every step keeps the accounts and the bytes

`Inv s` is `VmInv` with the reference memory of the state's own trace. Each function of the kernel keeps it, whichever
allocation in it fails, and so every step does; only a lazy `sbrk` can make a process larger than its page table allows,
which is what `Fits` excludes.
-/
namespace Xv6.Vm

open Function Multiset Wp

theorem refMem_snoc (trace : List Effect) (e : Effect) : refMem (trace ++ [e]) = refStep (refMem trace) e := by
  rw [refMem, List.foldl_append]
  rfl

variable [Link] {F : Panic → Prop} {M M' : Slot → Nat → UInt8} {s s' : VmState}

/-- **What every state keeps.** -/
def Inv (s : VmState) : Prop := VmInv (refMem s.trace) s

theorem Filed.keep (h : Filed (refMem s.trace) s s') : Inv s' := by
  unfold Inv
  rw [h.trace]
  exact h.inv

variable {k' k : Kmem} {t t' : Pt} {x x' : Proc} {p : Slot} {n : Int} {m m' : Nat → UInt8} {trace : List Effect}
  {E : Multiset Nat} {va addr sz' sz tf status len : Nat}

omit [Link] in
theorem ProcInv.retable (h : ProcInv k x m)
    (ht : x.pagetable = some t) (hst : x'.state = x.state ∨ x'.state = .live) (ht' : x'.pagetable = some t')
    (hu : User false k' t' (pgs x'.sz) m') : ProcInv k' x' m' := by
  have hsome : x.pagetable ≠ none := by
    rw [ht]
    exact nofun
  have hstate : ∀ st, st ≠ .live → x'.state = st → x.state = st := by
    intro st hne h'
    rcases hst with h1 | h1
    · rw [← h1, h']
    · exact absurd (h'.symm.trans h1) hne
  refine ⟨fun t1 h1 => ?_, fun h1 => ?_, fun h1 => ?_, fun _ => ?_, fun h1 => ?_⟩
  · rw [ht'] at h1
    cases h1
    exact hu
  · rw [ht'] at h1
    cases h1
  · exact absurd (h.unused (hstate _ nofun h1)).1 hsome
  · rw [ht']
    exact nofun
  · exact absurd (h.zombie (hstate _ nofun h1)) hsome

theorem VmInv.retable (h : VmInv M s)
    (ht : (s.proc p).pagetable = some t) (ha : Acc k' (othersThan s [p] + opt (s.proc p).trapframe + uses t'))
    (hk : Keeps (othersThan s [p] + opt (s.proc p).trapframe) s.k k') (hu : User false k' t' (pgs sz') (M' p))
    (hM : ∀ q, q ≠ p → M' q = M q) :
    VmInv M' { s with
      k := k', proc := update s.proc p { s.proc p with pagetable := some t', sz := sz' }, trace := trace } :=
  h.change (ha.of_eq (add_assoc ..)) (hk.mono (le_add_right _ _)) ((h.proc p).retable ht (.inl rfl) rfl hu) hM

theorem VmInv.stored (h : VmInv M s)
    (ht : (s.proc p).pagetable = some t) (ha : Acc k' (othersThan s [p] + opt (s.proc p).trapframe + uses t))
    (hk : Keeps (othersThan s [p] + opt (s.proc p).trapframe) s.k k') (hu : User false k' t (pgs (s.proc p).sz) (M' p))
    (hM : ∀ q, q ≠ p → M' q = M q) : VmInv M' { s with k := k', trace := trace } := by
  have hsame : update s.proc p { s.proc p with pagetable := some t, sz := (s.proc p).sz } = s.proc := by
    rw [← ht]
    exact update_eq_self p s.proc
  have h' : VmInv M' { s with
      k := k', proc := update s.proc p { s.proc p with pagetable := some t, sz := (s.proc p).sz },
      trace := trace } := h.retable ht ha hk hu hM
  rw [hsame] at h'
  exact h'

theorem VmInv.setProc (h : VmInv M s) (hst : x.state = (s.proc p).state)
    (ht : x.pagetable = (s.proc p).pagetable) (hsz : x.sz = (s.proc p).sz) (htf : x.trapframe = (s.proc p).trapframe) :
    VmInv M { s with proc := update s.proc p x } := by
  refine h.procs (fun q => ?_)
  by_cases e : q = p
  · subst e
    rw [update_self]
    exact ⟨hst, ht, hsz, htf⟩
  · rw [update_of_ne e]
    exact ⟨rfl, rfl, rfl, rfl⟩

/-! ## Processes come and go -/

theorem freeTrapframe_spec (tf : Option Nat) (ha : Acc k (E + opt tf)) :
    wp (freeTrapframe tf) (fun _ k' => Acc k' E ∧ Keeps E k k') F k := by
  cases tf with
  | none => exact ⟨ha.of_eq (add_zero E), Keeps.refl _ _⟩
  | some tf => exact kfree_spec (ha.of_eq (by rw [opt_some, add_comm, singleton_add]))

theorem freeTable_spec (t : Option Pt)
    (ha : Acc k (E + tableUses t)) (hu : ∀ t', t = some t' → User false k t' (pgs sz) m) :
    wp (freeTable sz t) (fun _ k' => Acc k' E ∧ Keeps E k k') F k := by
  cases t with
  | none => exact ⟨ha.of_eq (add_zero E), Keeps.refl _ _⟩
  | some t => exact procFreepagetable_spec (hu t rfl) ha

theorem freeproc_spec (p : Slot) (h : VmInv M s) (hM : M p = fun _ => 0) :
    wp (freeproc p) (fun _ s' => VmInv M s' ∧ s'.trace = s.trace ∧ ∀ q, q ≠ p → s'.proc q = s.proc q) F s := by
  unfold freeproc
  simp only [wp_bind, wp_get, wp_onMem]
  have ha : Acc s.k (othersThan s [p] + tableUses (s.proc p).pagetable + opt (s.proc p).trapframe) :=
    h.acc.of_eq (by rw [owners_split s p, procUses, add_comm (opt _), add_assoc])
  refine wp_use (freeTrapframe_spec _ ha) ?_
  rintro _ k1 ⟨ha1, hk1⟩
  have hu1 : ∀ t, (s.proc p).pagetable = some t → User false k1 t (pgs (s.proc p).sz) (M p) := fun t ht =>
    ((h.proc p).user t ht).frame hk1 (by
      rw [ht]
      exact le_trans (le_add_left _ _) (le_add_left _ _))
  refine wp_use (freeTable_spec _ ha1 hu1) ?_
  rintro _ k2 ⟨ha2, hk2⟩
  have hx : ProcInv k2 { unusedProc with ofile := (s.proc p).ofile } (M p) :=
    ⟨by simp [unusedProc], fun _ => ⟨rfl, hM⟩, fun _ => ⟨rfl, rfl⟩, by simp [unusedProc], by simp [unusedProc]⟩
  refine ⟨?_, rfl, fun q hq => update_of_ne hq _ _⟩
  exact h.change (ha2.of_eq (add_zero _).symm) ((hk1.mono (le_add_right _ _)).trans hk2) hx (fun _ _ => rfl)

section
variable (h : VmInv M s)
include h

theorem VmInv.giveTable (hnone : (s.proc p).pagetable = none)
    (hst : x.state = .used) (ht : x.pagetable = some t) (htf : x.trapframe = (s.proc p).trapframe)
    (ha : Acc k' (owners s + uses t)) (hk : Keeps (owners s) s.k k') (hu : User false k' t (pgs x.sz) (M p)) :
    VmInv M { s with k := k', proc := update s.proc p x } := by
  have hsplit : owners s = othersThan s [p] + opt (s.proc p).trapframe := by
    rw [owners_split s p, procUses, hnone, tableUses, add_zero]
  rw [hsplit] at ha hk
  have hx : ProcInv k' x (M p) := by
    refine ⟨fun t' ht' => ?_, fun h0 => ?_, fun h0 => ?_, fun h0 => ?_, fun h0 => ?_⟩
    · rw [ht] at ht'
      cases ht'
      exact hu
    · rw [ht] at h0
      cases h0
    all_goals
      rw [hst] at h0
      cases h0
  refine h.change (ha.of_eq ?_) (hk.mono (le_add_right _ _)) hx (fun _ _ => rfl)
  rw [procUses, ht, htf, tableUses, add_assoc]

theorem VmInv.giveTrapframe (hst : (s.proc p).state = .unused)
    (ha : Acc k' (tf ::ₘ owners s)) (hk : Keeps (owners s) s.k k') :
    VmInv M { s with
      k := k', proc := update s.proc p { s.proc p with state := .used, trapframe := some tf } } := by
  obtain ⟨ht0, htf0⟩ := (h.proc p).unused hst
  have hsplit : owners s = othersThan s [p] := by
    rw [owners_split s p, procUses, ht0, htf0]
    exact add_zero _
  rw [hsplit] at ha hk
  have hx : ProcInv k' { s.proc p with state := .used, trapframe := some tf } (M p) := by
    refine ⟨fun t ht => ?_, fun _ => (h.proc p).gone ht0, by simp, by simp, by simp⟩
    rw [ht0] at ht
    cases ht
  refine h.change (ha.of_eq ?_) hk hx (fun _ _ => rfl)
  rw [procUses, ht0, tableUses, add_zero, opt_some, add_comm, singleton_add]

theorem allocproc_spec :
    wp allocproc (fun r s' => VmInv M s' ∧ s'.trace = s.trace ∧ match r with
      | none => True
      | some np => (s.proc np).state = .unused ∧ M np = (fun _ => 0) ∧ (∀ q, q ≠ np → s'.proc q = s.proc q) ∧
          (s'.proc np).sz = 0 ∧ ∃ t, (s'.proc np).pagetable = some t) F s := by
  unfold allocproc
  rw [wp_bind, wp_get]
  split
  · exact ⟨h, rfl, trivial⟩
  rename_i np hnp
  have hst : (s.proc np).state = .unused := by simpa using List.find?_some hnp
  have ht0 := ((h.proc np).unused hst).1
  obtain ⟨hsz0, hM⟩ := (h.proc np).gone ht0
  rw [wp_bind, wp_onMem]
  refine wp_use (kalloc_spec h.acc) (fun r k1 hr => ?_)
  cases r with
  | none =>
    subst hr
    refine wp_then (freeproc_spec np h hM) ?_
    rintro _ s' ⟨h', ht', _⟩
    exact ⟨h', ht', trivial⟩
  | some tf =>
    obtain ⟨ha1, hk1, -, -⟩ := hr
    have h1 := h.giveTrapframe hst ha1 hk1
    simp only [wp_bind, Vm.setProc, wp_modify, wp_onMem]
    refine wp_use (procPagetable_spec h1.acc) ?_
    rintro r k2 ⟨hk2, hr⟩
    cases r with
    | none =>
      have h2 : VmInv M { s with
          k := k2, proc := update s.proc np { s.proc np with state := .used, trapframe := some tf } } :=
        ⟨hr, fun q => (h1.proc q).frame hk2 (procUses_le_owners _ q), h1.ends, h1.kstack, h1.calm⟩
      refine wp_then (freeproc_spec np h2 hM) ?_
      rintro _ s' ⟨h', ht', _⟩
      exact ⟨h', ht', trivial⟩
    | some t =>
      obtain ⟨ha2, hu2⟩ := hr
      have hu : User false k2 t (pgs (s.proc np).sz) (M np) := by
        rw [hsz0, hM]
        exact hu2.weaken
      refine ⟨h1.giveTable (x := { s.proc np with state := .used, trapframe := some tf, pagetable := some t }) ?_ rfl rfl ?_
        ha2 hk2 hu, rfl, hst, hM, fun q hq => ?_, ?_, t, ?_⟩ <;> simp only [update_self]
      · exact ht0
      · rw [update_of_ne hq, update_of_ne hq]
      · exact hsz0

/-! ## `fork` -/

theorem VmInv.withTrace (trace : List Effect) : VmInv M { s with trace := trace } :=
  ⟨h.acc, h.proc, h.ends, h.kstack, h.calm⟩

end

theorem dupFiles_spec [Mild F] (p np : Slot) (h : VmInv M s) :
    wp (dupFiles p np) (fun _ s' => VmInv M s' ∧ s'.trace = s.trace) F s := by
  refine wp_forM (I := fun _ s' => VmInv M s' ∧ s'.trace = s.trace) (fun fd _ s1 ⟨h1, ht1⟩ => ?_) _ s ⟨h, rfl⟩
  rw [wp_bind, wp_get]
  split
  · exact ⟨h1, ht1⟩
  · rename_i f _
    refine wp_then (filedup_spec f h1) (fun _ s2 h2 => ?_)
    exact ⟨h2.inv.setProc rfl rfl rfl rfl, h2.trace.trans ht1⟩

theorem kfork_spec [Mild F] (h : Inv s) (hp : (s.proc p).state = .live) : wp (kfork p) (fun _ s' => Inv s') F s := by
  refine wp_then (allocproc_spec h) ?_
  rintro r s1 ⟨h1, ht1, hr⟩
  have hinv1 : Inv s1 := by
    unfold Inv
    rw [ht1]
    exact h1
  cases r with
  | none => exact hinv1
  | some np =>
    obtain ⟨hun, hM, hsame, hsz, new, hnew⟩ := hr
    have hne : p ≠ np := by
      rintro rfl
      rw [hp] at hun
      cases hun
    simp only [wp_bind, wp_get, hnew]
    cases hold : (s1.proc p).pagetable with
    | none => exact hinv1
    | some old =>
      have ha : Acc s1.k (othersThan s1 [p, np] + opt (s1.proc p).trapframe + opt (s1.proc np).trapframe + uses old +
          uses new) := by
        refine h1.acc.of_eq ?_
        have hp' : p ∉ [np] := by simpa using hne
        rw [owners_split s1 np, othersThan_cons s1 hp', procUses, procUses, hold, hnew, tableUses, tableUses]
        simp only [add_assoc]
        rw [add_left_comm (uses old)]
      have hun0 : User false s1.k new 0 (fun _ => 0) := by
        have hu := (h1.proc np).user new hnew
        rw [hsz, hM] at hu
        exact hu
      simp only [wp_bind, wp_onMem]
      refine wp_use (uvmcopy_spec ((h1.proc p).user old hold) hun0 ha) ?_
      rintro r k' ⟨ha', hk', hu', hr⟩
      obtain ⟨ok, old', new'⟩ := r
      have hk2 : Keeps (othersThan s1 [p, np]) s1.k k' :=
        hk'.mono (le_trans (le_add_right _ _) (le_add_right _ _))
      have hacc : Acc k' (othersThan s1 [p, np] + (opt (s1.proc p).trapframe + uses old') +
          (opt (s1.proc np).trapframe + uses new')) := by
        refine ha'.of_eq ?_
        simp only [add_assoc]
        rw [add_left_comm (uses old')]
      simp only [Vm.setProc]
      refine wp_ite (fun hok => ?_) (fun hok => ?_)
      · rw [if_pos hok] at hr
        simp only [wp_bind, wp_modify, update_idem]
        have hMp : refStep (refMem s.trace) (.fork p np) p = refMem s.trace p := update_of_ne hne _ _
        have hMn : refStep (refMem s.trace) (.fork p np) np = refMem s.trace p := update_self ..
        have h2 : VmInv (refStep (refMem s.trace) (.fork p np)) { s1 with
            k := k'
            proc := update (update s1.proc p { s1.proc p with pagetable := some old' }) np
              { s1.proc np with pagetable := some new', sz := (s1.proc p).sz, parent := some p, state := .live } } :=
          h1.change2 hne hacc hk2 ((h1.proc p).retable hold (.inl rfl) rfl (hMp.symm ▸ hu'))
            ((h1.proc np).retable hnew (.inr rfl) rfl (hMn.symm ▸ hr)) (fun r _ hr => update_of_ne hr _ _)
        refine wp_use (dupFiles_spec p np h2) ?_
        rintro _ s3 ⟨h3, ht3⟩
        unfold happens Inv
        rw [wp_modify]
        rw [refMem_snoc, ht3, ht1]
        exact h3.withTrace _
      · rw [if_neg hok] at hr
        have hu0 : User false k' new' (pgs (s1.proc np).sz) (refMem s.trace np) := by
          rw [hsz, hM]
          exact hr
        have h2 : VmInv (refMem s.trace) { s1 with
            k := k'
            proc := update (update s1.proc p { s1.proc p with pagetable := some old' }) np
              { s1.proc np with pagetable := some new' } } :=
          h1.change2 hne hacc hk2 ((h1.proc p).retable hold (.inl rfl) rfl hu')
            ((h1.proc np).retable hnew (.inl rfl) rfl hu0) (fun _ _ _ => rfl)
        refine wp_use (freeproc_spec np h2 hM) ?_
        rintro _ s3 ⟨h3, ht3, _⟩
        unfold Inv
        rw [ht3, ht1]
        exact h3

/-! ## `exit` and `wait` -/

theorem clearFd_spec (p : Slot) (fd : Fin 16) (h : VmInv M s) :
    wp (clearFd p fd) (fun _ s' => VmInv M s' ∧ s'.trace = s.trace) F s := ⟨h.setProc rfl rfl rfl rfl, rfl⟩

theorem closeFiles_spec [Mild F] (p : Slot) (h : VmInv M s) :
    wp (closeFiles p) (fun _ s' => VmInv M s' ∧ s'.trace = s.trace) F s := by
  refine wp_forM (I := fun _ s' => VmInv M s' ∧ s'.trace = s.trace) (fun fd _ s1 ⟨h1, ht1⟩ => ?_) _ s ⟨h, rfl⟩
  rw [wp_bind, wp_get]
  split
  · exact ⟨h1, ht1⟩
  · rename_i f _
    refine wp_then (fileclose_spec f h1) (fun _ s2 h2 => ?_)
    exact wp_use (clearFd_spec p fd h2.inv) (fun _ s3 ⟨h3, ht3⟩ => ⟨h3, ht3.trans (h2.trace.trans ht1)⟩)

theorem reparent_spec (p : Slot) (h : VmInv M s) : wp (reparent p) (fun _ s' => VmInv M s' ∧ s'.trace = s.trace) F s := by
  refine ⟨h.procs (fun q => ?_), rfl⟩
  split <;> exact ⟨rfl, rfl, rfl, rfl⟩

theorem kexit_spec [Mild F] (h : Inv s) : wp (kexit p status) (fun _ s' => Inv s') F s := by
  refine wp_ite (fun _ => Mild.of) (fun _ => ?_)
  refine wp_then (closeFiles_spec p h) ?_
  rintro _ s1 ⟨h1, ht1⟩
  refine wp_then (reparent_spec p h1) ?_
  rintro _ s2 ⟨h2, ht2⟩
  rw [wp_bind, wp_get]
  have htr : s2.trace = s.trace := ht2.trans ht1
  dsimp only
  split
  · rw [wp_pure, Inv, htr]
    exact h2
  rename_i t ht
  simp only [wp_bind, wp_onMem, setProc, happens, wp_modify]
  refine wp_use (procFreepagetable_spec ((h2.proc p).user t ht) (h2.table ht)) ?_
  rintro _ k' ⟨ha', hk'⟩
  unfold Inv
  rw [refMem_snoc, htr]
  have hx : ProcInv k' { s2.proc p with pagetable := none, sz := 0, xstate := status, state := .zombie }
      (refStep (refMem s.trace) (.exit p) p) := ⟨by simp, fun _ => ⟨rfl, update_self ..⟩, by simp, by simp, fun _ => rfl⟩
  refine h2.change (ha'.of_eq ?_) (hk'.mono (le_add_right _ _)) hx (fun q hq => update_of_ne hq _ _)
  rw [procUses, tableUses, add_zero]

theorem copyoutTo_spec {bytes : List UInt8} (h : Inv s) :
    wp (copyoutTo p va bytes) (fun _ s' => Inv s' ∧ ∀ q, q ≠ p → s'.proc q = s.proc q) F s := by
  unfold copyoutTo
  rw [wp_bind, wp_get]
  dsimp only
  cases ht : (s.proc p).pagetable with
  | none => exact ⟨h, fun _ _ => rfl⟩
  | some t =>
    simp only [wp_bind, wp_onMem]
    refine wp_use (copyout_spec ((h.proc p).user t ht) (h.table ht) (.inl ⟨rfl, rfl⟩)) ?_
    rintro r k' ⟨hk, _⟩
    refine ⟨?_, fun q hq => update_of_ne hq _ _⟩
    unfold Inv
    rw [refMem_snoc]
    refine h.retable ht hk.acc hk.keeps ?_ (fun q hq => update_of_ne hq _ _)
    rw [refStep, update_self]
    exact hk.user

theorem kwait_spec (h : Inv s) (hp : (s.proc p).state = .live) : wp (kwait p addr) (fun _ s' => Inv s') F s := by
  have hfree : ∀ {q : Slot} {s1 : VmState}, Inv s1 → (s1.proc q).state = .zombie →
      wp (freeproc q) (fun _ => Inv) F s1 := by
    intro q s1 h1 hz
    refine wp_use (freeproc_spec q h1 ((h1.proc q).gone ((h1.proc q).zombie hz)).2) (fun _ s2 ⟨h2, ht2, _⟩ => ?_)
    unfold Inv
    rw [ht2]
    exact h2
  unfold kwait
  rw [wp_bind, wp_get]
  split
  · exact h
  rename_i q hq
  have hz : (s.proc q).state = .zombie := by
    have := List.find?_some hq
    simp only [decide_eq_true_eq] at this
    exact this.2
  have hne : q ≠ p := by
    rintro rfl
    rw [hp] at hz
    cases hz
  refine wp_ite (fun _ => hfree h hz) (fun _ => ?_)
  refine wp_then (copyoutTo_spec h) (fun ok s1 ⟨h1, hsame⟩ => ?_)
  refine wp_ite (fun _ => hfree h1 (by rw [hsame q hne]; exact hz)) (fun _ => h1)

/-! ## Memory of a process -/

theorem copyinFrom_spec (h : Inv s) : wp (copyinFrom p va len) (fun _ s' => Inv s') F s := by
  unfold copyinFrom
  rw [wp_bind, wp_get]
  dsimp only
  cases ht : (s.proc p).pagetable with
  | none => exact h
  | some t =>
    simp only [wp_bind, wp_onMem]
    refine wp_use (copyin_spec ((h.proc p).user t ht) (h.table ht)) ?_
    rintro r k' ⟨hk, _⟩
    exact h.retable ht hk.acc hk.keeps hk.user (fun _ _ => rfl)

/-- A request to grow stays below `TRAPFRAME`. -/
def Below (s : VmState) (p : Slot) (n : Int) : Prop := 0 < n → (s.proc p).sz + n.toNat ≤ trapVpn * 4096

omit [Link] in
theorem Below.pgs_le (h : Below s p n) (hn : 0 < n) : pgs ((s.proc p).sz + n.toNat) ≤ trapVpn := by
  have := h hn
  unfold pgs
  omega

theorem growproc_spec (hF : Below s p n ∨ (F .walk ∧ F .remap)) (h : Inv s) :
    wp (growproc p n) (fun _ s' => Inv s') F s := by
  unfold growproc
  rw [wp_bind, wp_get]
  dsimp only
  cases ht : (s.proc p).pagetable with
  | none => exact h
  | some t =>
    refine wp_ite (fun hn => ?_) (fun _ => wp_ite (fun _ => ?_) (fun _ => h))
    · have hgrow : CanGrow F false t (pgs (s.proc p).sz)
          (pgs ((s.proc p).sz + n.toNat) - pgs (s.proc p).sz) := by
        refine hF.imp (fun hb => ?_) .inl
        have := hb.pgs_le hn
        have := ((h.proc p).user t ht).size
        omega
      simp only [wp_bind, wp_onMem]
      refine wp_use (uvmalloc_spec ((h.proc p).user t ht) hgrow (h.table ht)) ?_
      rintro r k' ⟨ha, hk, hr⟩
      refine h.retable ht ha hk ?_ (fun _ _ => rfl)
      by_cases h0 : r.1 = 0
      · rw [if_pos h0] at hr ⊢
        exact hr
      · rw [if_neg h0] at hr ⊢
        exact hr.2.1
    · simp only [wp_bind, wp_onMem, setProc, happens, wp_modify]
      refine wp_use (uvmdealloc_spec ((h.proc p).user t ht) (h.table ht)) ?_
      rintro r k' ⟨_, ha, hk, hr⟩
      unfold Inv
      rw [refMem_snoc]
      refine h.retable ht ha hk ?_ (fun q hq => update_of_ne hq _ _)
      rw [refStep, update_self]
      exact hr

def Fits (s : VmState) : Prop := ∀ p, (s.proc p).sz ≤ trapVpn * 4096

theorem fits_of_inv (h : Inv s) : Fits s := by
  intro p
  cases ht : (s.proc p).pagetable with
  | none =>
    rw [((h.proc p).gone ht).1]
    exact Nat.zero_le _
  | some t =>
    have hsz := ((h.proc p).user t ht).size
    unfold pgs at hsz
    omega

theorem sysSbrk_spec {lazy : Bool} (hF : lazy = true ∨ Below s p n ∨ (F .walk ∧ F .remap))
    (h : Inv s) (hp : (s.proc p).state = .live) :
    wp (sysSbrk p n lazy) (fun _ s' => (Fits s' ∨ lazy = false ∨ Below s p n) → Inv s') F s := by
  unfold sysSbrk
  refine wp_ite (fun hgo => ?_) (fun hlazy => ?_)
  · have hF' : Below s p n ∨ (F .walk ∧ F .remap) := by
      rcases hF with hl | hF
      · have hneg : n < 0 := hgo.resolve_left (by rw [hl]; decide)
        exact .inl (fun hn => by omega)
      · exact hF
    exact wp_use (growproc_spec hF' h) (fun _ _ h' _ => h')
  refine wp_ite (fun _ _ => h) (fun _ => ?_)
  intro hfit
  have hsz : (s.proc p).sz + n.toNat ≤ trapVpn * 4096 := by
    rcases hfit with hfit | hl | hb
    · have := hfit p
      simp only [update_self] at this
      exact this
    · exact absurd (.inl hl) hlazy
    · by_cases hn : 0 < n
      · exact hb hn
      · have := fits_of_inv h p
        omega
  obtain ⟨t, ht⟩ := Option.ne_none_iff_exists'.1 ((h.proc p).live hp)
  have hu : User false s.k t (pgs ((s.proc p).sz + n.toNat)) (refMem s.trace p) := by
    refine ((h.proc p).user t ht).grow (pgs_mono (Nat.le_add_right _ _)) ?_
    rw [← pgs_mul trapVpn]
    exact pgs_mono hsz
  have hx : ProcInv s.k { s.proc p with sz := (s.proc p).sz + n.toNat } (refMem s.trace p) :=
    (h.proc p).retable ht (.inl rfl) ht hu
  exact h.change (h.acc.of_eq (owners_split s p)) (Keeps.refl _ _) hx (fun _ _ => rfl)

end Xv6.Vm
