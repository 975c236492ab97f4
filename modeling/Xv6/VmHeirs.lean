import Xv6.VmSegments
import Xv6.VmSys
/-!
# VmHeirs — a page of a process and of the processes forked from it

Page `v` of a process is followed through a run: into every child forked from a process that has it, until the process
runs another program, exits, or gives the page up. The effects of the trace say who these processes are (`heirs`).
Whatever is true of the page's entry and survives ageing is true of it in every heir (`run_trails`), and if the page is
barred no store of an heir has reached it.
-/
namespace Xv6.Vm

open Function List Wp

/-- The processes that have page `v` from the one followed, after one more effect. -/
def heirStep (v : Nat) (H : Slot → Bool) : Effect → Slot → Bool
  | .fork p c => update H c (H p)
  | .store _ _ _ => H
  | .shrink p n => update H p (H p && decide (v < n))
  | .exec p _ => update H p false
  | .exit p => update H p false

def heirs (v : Nat) (H : Slot → Bool) (es : List Effect) : Slot → Bool := es.foldl (heirStep v) H

/-- A store by one of them does not reach the page. -/
def Spares (v : Nat) (H : Slot → Bool) : Effect → Prop
  | .store p va bytes => H p = true → ∀ b, va ≤ b → b < va + bytes.length → b / 4096 ≠ v
  | _ => True

def Clean (v : Nat) : (Slot → Bool) → List Effect → Prop
  | _, [] => True
  | H, e :: es => Spares v H e ∧ Clean v (heirStep v H e) es

theorem heirs_append (v : Nat) (H : Slot → Bool) (es fs : List Effect) :
    heirs v H (es ++ fs) = heirs v (heirs v H es) fs := List.foldl_append

theorem clean_append (v : Nat) : ∀ (es fs : List Effect) (H : Slot → Bool), Clean v H es → Clean v (heirs v H es) fs →
    Clean v H (es ++ fs)
  | [], _, _, _, h => h
  | e :: es, fs, H, ⟨he, hes⟩, h => ⟨he, clean_append v es fs (heirStep v H e) hes h⟩

variable {v : Nat}

theorem heirs_refMem {c : Nat → UInt8} : ∀ (es : List Effect) (H : Slot → Bool) (m : Slot → Nat → UInt8),
    Clean v H es → (∀ q, H q = true → ∀ a, a / 4096 = v → m q a = c a) →
    ∀ q, heirs v H es q = true → ∀ a, a / 4096 = v → es.foldl refStep m q a = c a
  | [], _, _, _, h => h
  | e :: es, H, m, ⟨he, hes⟩, h => by
    refine heirs_refMem es (heirStep v H e) (refStep m e) hes (fun q hq a ha => ?_)
    cases e with
    | fork p d =>
      simp only [heirStep, refStep] at hq ⊢
      by_cases eq : q = d
      · subst eq
        rw [update_self] at hq ⊢
        exact h p hq a ha
      · rw [update_of_ne eq] at hq ⊢
        exact h q hq a ha
    | store p va bytes =>
      simp only [refStep] at ⊢
      by_cases eq : q = p
      · subst eq
        rw [update_self, writeBytes, if_neg]
        · exact h q hq a ha
        · rintro ⟨h1, h2⟩
          exact he hq a h1 h2 ha
      · rw [update_of_ne eq]
        exact h q hq a ha
    | shrink p n =>
      simp only [heirStep, refStep] at hq ⊢
      by_cases eq : q = p
      · subst eq
        rw [update_self, Bool.and_eq_true, decide_eq_true_eq] at hq
        rw [update_self, if_pos (by omega)]
        exact h q hq.1 a ha
      · rw [update_of_ne eq] at hq ⊢
        exact h q hq a ha
    | exec p image =>
      simp only [heirStep, refStep] at hq ⊢
      by_cases eq : q = p
      · rw [eq, update_self] at hq
        cases hq
      · rw [update_of_ne eq] at hq ⊢
        exact h q hq a ha
    | exit p =>
      simp only [heirStep, refStep] at hq ⊢
      by_cases eq : q = p
      · rw [eq, update_self] at hq
        cases hq
      · rw [update_of_ne eq] at hq ⊢
        exact h q hq a ha

/-- Process `x` runs and has page `v`, with an entry of which `P` holds. -/
structure Has (P : Option Pte → Prop) (v : Nat) (x : Proc) : Prop where
  live : x.state = .live
  table : ∃ t, x.pagetable = some t ∧ Wf t ∧ P (t.pte v)
  low : v < pgs x.sz

/-- What is true of an entry stays true as it ages. -/
def Lasting (P : Option Pte → Prop) : Prop := ∀ x y, Ages x y → P x → P y

theorem lasting_barred : Lasting Barred := fun _ _ => Barred.ages

/-- Whatever lasting thing `x` has page `v` with, `y` has it with too. -/
def Ported (v : Nat) (x y : Proc) : Prop := ∀ P, Lasting P → Has P v x → Has P v y

theorem Ported.refl (v : Nat) (x : Proc) : Ported v x x := fun _ _ h => h

theorem Ported.table {v : Nat} {x y : Proc} {t t' : Pt} (ht : x.pagetable = some t) (ht' : y.pagetable = some t')
    (hst : y.state = x.state) (hsz : x.sz ≤ y.sz) (h : Wf t → Evolves t t') : Ported v x y := by
  intro P hP hx
  obtain ⟨t0, ht0, hw, hp⟩ := hx.table
  rw [ht] at ht0
  cases ht0
  exact ⟨hst.trans hx.live, ⟨t', ht', (h hw).wf, hP _ _ ((h hw).ages v) hp⟩, lt_of_lt_of_le hx.low (pgs_mono hsz)⟩

variable {s s' s1 s2 : VmState} {p : Slot} {x : Proc} {α β : Type} {t t' : Pt}

theorem Ported.update (hp : s'.proc = Function.update s.proc p x)
    (h : Ported v (s.proc p) x) (q : Slot) : Ported v (s.proc q) (s'.proc q) := by
  rw [hp]
  by_cases e : q = p
  · subst e
    rwa [update_self]
  · rw [update_of_ne e]
    exact .refl v _

theorem Ported.retable (ht : (s.proc p).pagetable = some t)
    (hp : s'.proc = Function.update s.proc p { s.proc p with pagetable := some t' }) (h : Wf t → Evolves t t') (q : Slot) :
    Ported v (s.proc q) (s'.proc q) := .update hp (.table ht rfl rfl le_rfl h) q

def Holds (v : Nat) (P : Option Pte → Prop) (H : Slot → Bool) (s : VmState) : Prop := ∀ q, H q = true → Has P v (s.proc q)

/-- **How a page fares from `s` to `s'`.** -/
def Trails (v : Nat) (s s' : VmState) : Prop := ∃ es, s'.trace = s.trace ++ es ∧
  (∀ P, Lasting P → ∀ H, Holds v P H s → Holds v P (heirs v H es) s') ∧ ∀ H, Holds v Barred H s → Clean v H es

variable {v va n : Nat} {e : Effect} {bytes : List UInt8} {m : VM α} {f : α → VM β}

theorem Trails.trans (h : Trails v s s1) (h' : Trails v s1 s2) : Trails v s s2 := by
  obtain ⟨es, ht, hk, hc⟩ := h
  obtain ⟨es', ht', hk', hc'⟩ := h'
  refine ⟨es ++ es', by rw [ht', ht, append_assoc], fun P hP H hH => ?_, fun H hH => ?_⟩
  · rw [heirs_append]
    exact hk' P hP _ (hk P hP H hH)
  · exact clean_append v es es' H (hc H hH) (hc' _ (hk Barred lasting_barred H hH))

theorem Trails.quiet (ht : s'.trace = s.trace) (h : ∀ q, Ported v (s.proc q) (s'.proc q)) : Trails v s s' :=
  ⟨[], by rw [ht, append_nil], fun P hP _ hH q hq => h q P hP (hH q hq), fun _ _ => trivial⟩

theorem Trails.refl (s : VmState) : Trails v s s := .quiet rfl (fun _ => .refl v _)

theorem Trails.effect (ht : s'.trace = s.trace ++ [e])
    (hk : ∀ P, Lasting P → ∀ H, Holds v P H s → Holds v P (heirStep v H e) s') (hc : ∀ H, Holds v Barred H s → Spares v H e) :
    Trails v s s' := ⟨[e], ht, hk, fun H hH => ⟨hc H hH, trivial⟩⟩

theorem Trails.store (ht : s'.trace = s.trace ++ [.store p va bytes]) (h : ∀ q, Ported v (s.proc q) (s'.proc q))
    (hb : Has Barred v (s.proc p) → ∀ b, va ≤ b → b < va + bytes.length → b / 4096 ≠ v) : Trails v s s' :=
  .effect ht (fun P hP _ hH q hq => h q P hP (hH q hq)) (fun _ hH hp => hb (hH p hp))

theorem Trails.gone (he : ∀ H, heirStep v H e = update H p false)
    (hs : ∀ H, Spares v H e) (ht : s'.trace = s.trace ++ [e]) (h : ∀ q, q ≠ p → Ported v (s.proc q) (s'.proc q)) :
    Trails v s s' := by
  refine .effect ht (fun P hP H hH q hq => ?_) (fun H _ => hs H)
  rw [he] at hq
  by_cases eq : q = p
  · rw [eq, update_self] at hq
    cases hq
  · rw [update_of_ne eq] at hq
    exact h q eq P hP (hH q hq)

theorem Trails.shrink (ht : s'.trace = s.trace ++ [.shrink p n])
    (hp : v < n → Ported v (s.proc p) (s'.proc p)) (h : ∀ q, q ≠ p → Ported v (s.proc q) (s'.proc q)) : Trails v s s' := by
  refine .effect ht (fun P hP H hH q hq => ?_) (fun _ _ => trivial)
  simp only [heirStep] at hq
  by_cases eq : q = p
  · subst eq
    rw [update_self, Bool.and_eq_true, decide_eq_true_eq] at hq
    exact hp hq.2 P hP (hH q hq.1)
  · rw [update_of_ne eq] at hq
    exact h q eq P hP (hH q hq)

theorem Trails.fork {c : Slot} (ht : s'.trace = s.trace ++ [.fork p c])
    (hc : Ported v (s.proc p) (s'.proc c)) (h : ∀ q, q ≠ c → Ported v (s.proc q) (s'.proc q)) : Trails v s s' := by
  refine .effect ht (fun P hP H hH q hq => ?_) (fun _ _ => trivial)
  simp only [heirStep] at hq
  by_cases eq : q = c
  · subst eq
    rw [update_self] at hq
    exact hc P hP (hH p hq)
  · rw [update_of_ne eq] at hq
    exact h q eq P hP (hH q hq)

/-! ## What leaves the memory of running processes alone -/

structure Idle (s s' : VmState) : Prop where
  trace : s'.trace = s.trace
  proc : ∀ q, (s.proc q).state = .live →
    (s'.proc q).state = .live ∧ (s'.proc q).pagetable = (s.proc q).pagetable ∧ (s'.proc q).sz = (s.proc q).sz

theorem Idle.refl (s : VmState) : Idle s s := ⟨rfl, fun _ h => ⟨h, rfl, rfl⟩⟩

theorem Idle.trans (h : Idle s s1) (h' : Idle s1 s2) : Idle s s2 := by
  refine ⟨h'.trace.trans h.trace, fun q hq => ?_⟩
  obtain ⟨hl, ht, hz⟩ := h.proc q hq
  obtain ⟨hl', ht', hz'⟩ := h'.proc q hl
  exact ⟨hl', ht'.trans ht, hz'.trans hz⟩

theorem Idle.ported (h : Idle s s') (q : Slot) : Ported v (s.proc q) (s'.proc q) := by
  intro P _ hx
  obtain ⟨hl, ht, hz⟩ := h.proc q hx.live
  exact ⟨hl, by rw [ht]; exact hx.table, by rw [hz]; exact hx.low⟩

theorem Idle.trails (h : Idle s s') : Trails v s s' := .quiet h.trace h.ported

theorem Idle.same (ht : s'.trace = s.trace) (hp : s'.proc = update s.proc p x) (hx : (s.proc p).state = .live →
      x.state = .live ∧ x.pagetable = (s.proc p).pagetable ∧ x.sz = (s.proc p).sz) : Idle s s' := by
  refine ⟨ht, fun q hq => ?_⟩
  rw [hp]
  by_cases e : q = p
  · subst e
    rw [update_self]
    exact hx hq
  · rw [update_of_ne e]
    exact ⟨hq, rfl, rfl⟩

theorem Idle.outside (ht : s'.trace = s.trace)
    (hp : s'.proc = update s.proc p x) (hl : (s.proc p).state ≠ .live) : Idle s s' :=
  .same ht hp (fun h => absurd h hl)

theorem Idle.then (hm : Does Idle Any m) (hf : ∀ a, Does Idle Any (f a)) :
    Does Idle Any (m >>= f) := Does.bind (fun _ _ _ => Idle.trans) hm hf

theorem Idle.none (a : α) : Does Idle Any (pure a : VM α) := Does.pure Idle.refl a

theorem onMem_idle (m : KM α) : Does Idle Any (onMem m) := by
  intro s
  rw [wp_onMem]
  exact wp_use (wp_true m any s.k) (fun _ k' _ => ⟨rfl, fun q h => ⟨h, rfl, rfl⟩⟩)

theorem setFile_idle (f : Fin 100) (x : File) : Does Idle Any (setFile f x) :=
  fun _ => ⟨rfl, fun _ h => ⟨h, rfl, rfl⟩⟩

theorem filedup_idle (f : Fin 100) : Does Idle Any (filedup f) := by
  refine .read (fun s => wp_ite (fun _ => trivial) (fun _ => setFile_idle f _ s))

theorem fdalloc_idle (p : Slot) (f : Fin 100) : Does Idle Any (fdalloc p f) := by
  refine .read (fun s => ?_)
  dsimp only
  split
  · exact Idle.refl s
  · exact Idle.same rfl rfl (fun h => ⟨h, rfl, rfl⟩)

theorem clearFd_idle (p : Slot) (fd : Fin 16) : Does Idle Any (clearFd p fd) :=
  .read (fun _ => Idle.same rfl rfl (fun h => ⟨h, rfl, rfl⟩))

theorem reparent_idle (p : Slot) : Does Idle Any (reparent p) := by
  intro s
  refine ⟨rfl, fun q hq => ?_⟩
  dsimp only
  split
  · exact ⟨hq, rfl, rfl⟩
  · exact ⟨hq, rfl, rfl⟩

theorem dupFiles_idle (p np : Slot) : Does Idle Any (dupFiles p np) := by
  refine .forM Idle.refl (fun _ _ _ => Idle.trans) (fun fd => .read (fun s => ?_)) _
  split
  · exact Idle.refl s
  · refine Idle.then (filedup_idle _) (fun _ => .read (fun s1 => ?_)) s
    exact Idle.same rfl rfl (fun h => ⟨h, rfl, rfl⟩)

theorem trails_of_idle (h : Does Idle Any m) : Does (Trails v) Any m := Does.mono h (fun _ _ h => h.trails)

theorem Trails.then (hm : Does (Trails v) Any m)
    (hf : ∀ a, Does (Trails v) Any (f a)) : Does (Trails v) Any (m >>= f) := Does.bind (fun _ _ _ => Trails.trans) hm hf

variable [Link] {a : VmAct}

theorem pipeclose_idle (pi : Nat) (writable : Bool) : Does Idle Any (pipeclose pi writable) := by
  refine .read (fun s => ?_)
  rw [wp_bind, wp_set]
  have hset : Idle s { s with pipe := update s.pipe pi (closeEnd (s.pipe pi) writable) } :=
    ⟨rfl, fun _ h => ⟨h, rfl, rfl⟩⟩
  refine wp_ite (fun _ => ?_) (fun _ => hset)
  exact wp_use (onMem_idle _ _) (fun _ _ => hset.trans)

theorem fileclose_idle (f : Fin 100) : Does Idle Any (fileclose f) := by
  refine .read (fun s => wp_ite (fun _ => trivial) (fun _ => wp_ite (fun _ => setFile_idle f _ s) (fun _ => ?_)))
  refine Idle.then (setFile_idle f _) (fun _ => ?_) s
  split
  · exact pipeclose_idle _ _
  · exact Idle.none _

omit [Link] in
theorem filealloc_idle : Does Idle Any filealloc := by
  refine .read (fun s => ?_)
  split
  · exact Idle.refl s
  · exact Idle.then (setFile_idle _ _) (fun _ => Idle.none _) s

theorem pipealloc_idle : Does Idle Any pipealloc := by
  refine Idle.then filealloc_idle (fun r => ?_)
  cases r with
  | none => exact Idle.none _
  | some f0 =>
    refine Idle.then filealloc_idle (fun r => ?_)
    cases r with
    | none => exact Idle.then (fileclose_idle _) (fun _ => Idle.none _)
    | some f1 =>
      refine Idle.then (onMem_idle _) (fun r => ?_)
      cases r with
      | none =>
        refine Idle.then (fileclose_idle _) (fun _ => ?_)
        exact Idle.then (fileclose_idle _) (fun _ => Idle.none _)
      | some pi => exact fun s => ⟨rfl, fun _ h => ⟨h, rfl, rfl⟩⟩

theorem closeFiles_idle (p : Slot) : Does Idle Any (closeFiles p) := by
  refine .forM Idle.refl (fun _ _ _ => Idle.trans) (fun fd => .read (fun s => ?_)) _
  split
  · exact Idle.refl s
  · exact Idle.then (fileclose_idle _) (fun _ => clearFd_idle p fd) s

theorem freeproc_idle (h : (s.proc p).state ≠ .live) : wp (freeproc p) (fun _ s' => Idle s s') Any s := by
  unfold freeproc
  simp only [wp_bind, wp_get, wp_onMem]
  refine wp_use (wp_true _ any _) (fun _ k1 _ => ?_)
  refine wp_use (wp_true _ any _) (fun _ k2 _ => ?_)
  exact .outside rfl rfl h

theorem allocproc_idle : wp allocproc (fun r s' => Idle s s' ∧ ∀ np, r = some np →
    (s'.proc np).state = .used ∧ ∀ t, (s'.proc np).pagetable = some t → Wf t ∧ ∀ v, v < trapVpn → t.pte v = none) Any s := by
  unfold allocproc
  rw [wp_bind, wp_get]
  split
  · exact ⟨.refl s, nofun⟩
  rename_i np hnp
  have hun : (s.proc np).state = .unused := by simpa using find?_some hnp
  have hnl : (s.proc np).state ≠ .live := by rw [hun]; decide
  rw [wp_bind, wp_onMem]
  refine wp_use (wp_true _ any _) (fun r k1 _ => ?_)
  cases r with
  | none =>
    refine wp_then (freeproc_idle hnl) (fun _ s' h => ⟨⟨h.trace, h.proc⟩, nofun⟩)
  | some tf =>
    simp only [wp_bind, wp_onMem, Vm.setProc, wp_modify]
    refine wp_use procPagetable_blank (fun r k2 hr => ?_)
    cases r with
    | none =>
      rw [wp_bind]
      have h1 : Idle s { s with
          k := k2, proc := update s.proc np { s.proc np with state := .used, trapframe := some tf } } :=
        .outside rfl rfl hnl
      refine wp_use (freeproc_idle ?_) (fun _ s' h => ⟨h1.trans h, nofun⟩)
      simp
    | some t =>
      simp only [wp_bind, wp_modify, update_idem]
      refine ⟨.outside rfl rfl hnl, ?_⟩
      rintro np' ⟨⟩
      simp only [update_self]
      exact ⟨trivial, fun t' ht' => hr t' ht'⟩

/-! ## Steps -/

theorem kexit_trails (p : Slot) (status : Nat) : Does (Trails v) Any (kexit p status) := by
  refine .ite (fun _ => .throw trivial) (fun _ => ?_)
  refine Trails.then (trails_of_idle (closeFiles_idle p)) (fun _ => ?_)
  refine Trails.then (trails_of_idle (reparent_idle p)) (fun _ => .read (fun s => ?_))
  dsimp only
  split
  · exact Trails.refl s
  simp only [wp_bind, wp_onMem]
  refine wp_use (wp_true _ any _) (fun _ k1 _ => ?_)
  refine .gone (e := .exit p) (fun _ => rfl) (fun _ => trivial) rfl (fun q hq => ?_)
  dsimp only
  rw [update_of_ne hq]
  exact .refl v _

theorem copyoutTo_trails :
    wp (copyoutTo p va bytes) (fun _ s' => Trails v s s' ∧ ∀ q, (s'.proc q).state = (s.proc q).state) Any s := by
  unfold copyoutTo
  rw [wp_bind, wp_get]
  dsimp only
  cases ht : (s.proc p).pagetable with
  | none => exact ⟨.refl s, fun _ => rfl⟩
  | some t =>
    simp only [wp_bind, wp_onMem, Vm.setProc, happens, wp_modify, wp_pure]
    have hcopy : wp (copyout ⟨t, none⟩ (s.proc p).sz va bytes) (fun r _ => Wf t → Evolves t r.2.1.pt ∧
        (Barred (t.pte v) → ∀ b, va ≤ b → b < va + r.2.2 → b / 4096 ≠ v)) Any s.k := by
      refine wp_imp any (fun hw => ?_)
      have hmove : wp (copyout ⟨t, none⟩ (s.proc p).sz va bytes) (fun r _ => Moves ⟨t, none⟩ r.2.1) Any s.k :=
        copyout_moves hw hw
      have hstop : wp (copyout ⟨t, none⟩ (s.proc p).sz va bytes) (fun r _ => Barred (t.pte v) →
          ∀ b, va ≤ b → b < va + r.2.2 → b / 4096 ≠ v) Any s.k := wp_imp any (fun hb => copyout_barred hw hw hb)
      exact wp_use (wp_and hmove hstop) (fun r _ h => ⟨h.1.pt, h.2⟩)
    refine wp_use hcopy (fun r k1 hr => ?_)
    obtain ⟨ok, a, n⟩ := r
    dsimp only at hr ⊢
    refine ⟨?_, fun q => ?_⟩
    · refine .store rfl (fun q => ?_) (fun hb b h1 h2 => ?_)
      · exact .retable ht rfl (fun hw => (hr hw).1) q
      obtain ⟨t0, ht0, hw, hbar⟩ := hb.table
      rw [ht] at ht0
      cases ht0
      rw [length_take] at h2
      exact (hr hw).2 hbar b h1 (by omega)
    · by_cases e : q = p
      · subst e
        rw [update_self]
      · rw [update_of_ne e]

theorem copyoutTo_does (p : Slot) (va : Nat) (bytes : List UInt8) : Does (Trails v) Any (copyoutTo p va bytes) :=
  fun _ => wp_use copyoutTo_trails (fun _ _ h => h.1)

theorem copyinFrom_trails (p : Slot) (va len : Nat) : Does (Trails v) Any (copyinFrom p va len) := by
  refine .read (fun s => ?_)
  dsimp only
  cases ht : (s.proc p).pagetable with
  | none => exact Trails.refl s
  | some t =>
    simp only [wp_bind, wp_onMem]
    have hcopy : wp (copyin ⟨t, none⟩ (s.proc p).sz va len) (fun r _ => Wf t → Moves ⟨t, none⟩ r.2) Any s.k :=
      wp_imp any (fun hw => copyin_moves hw hw)
    refine wp_use hcopy (fun r k1 hr => ?_)
    exact .quiet rfl (Ported.retable ht rfl (fun hw => (hr hw).pt))

theorem pageFault_trails (p : Slot) (va : Nat) (acc : Access) : Does (Trails v) Any (pageFault p va acc) := by
  refine .read (fun s => ?_)
  dsimp only
  cases ht : (s.proc p).pagetable with
  | none => exact Trails.refl s
  | some t =>
    refine wp_ite (fun _ => kexit_trails p _ s) (fun _ => ?_)
    rw [wp_bind]
    have hcow : wp (if acc = .store then onMem (cowfault t (va / 4096)) else pure (false, t)) (fun r s' =>
        ∃ k', s' = { s with k := k' } ∧ (Wf t → Evolves t r.2)) Any s := by
      refine wp_ite (fun _ => ?_) (fun _ => ⟨s.k, rfl, fun hw => .refl hw⟩)
      rw [wp_onMem]
      exact wp_use (wp_imp any cowfault_evolves) (fun r k' h => ⟨k', rfl, h⟩)
    refine wp_use hcow (fun r s1 ⟨k1, hs1, h1⟩ => ?_)
    obtain ⟨ok, t1⟩ := r
    subst hs1
    have hport : ∀ {t' : Pt} {k' : Kmem}, (Wf t → Evolves t t') → Trails v s { s with
        k := k', proc := update s.proc p { s.proc p with pagetable := some t' } } :=
      fun h => .quiet rfl (Ported.retable ht rfl h)
    refine wp_ite (fun _ => hport h1) (fun _ => ?_)
    simp only [wp_bind, wp_onMem, Vm.setProc, wp_modify, update_idem]
    have hfault : wp (vmfault ⟨t1, none⟩ (s.proc p).sz va) (fun r _ => Wf t1 → Moves ⟨t1, none⟩ r.2) Any k1 :=
      wp_imp any (fun hw => vmfault_moves hw hw)
    refine wp_use hfault (fun r k2 hr => ?_)
    obtain ⟨pa, a⟩ := r
    have hall : Wf t → Evolves t a.pt := fun hw => (h1 hw).trans (hr (h1 hw).wf).pt
    have h2 : Trails v s { s with
        k := k2, proc := update s.proc p { s.proc p with pagetable := some a.pt } } := hport hall
    cases pa with
    | none => exact wp_use (kexit_trails p _ _) (fun _ _ => h2.trans)
    | some _ => exact h2

theorem userRead_trails (p : Slot) (va : Nat) (acc : Access) : Does (Trails v) Any (userRead p va acc) := by
  refine .read (fun s => ?_)
  dsimp only
  split
  · exact Trails.refl s
  · split
    · exact Trails.refl s
    · exact pageFault_trails p va acc s

theorem userStore_trails (p : Slot) (va : Nat) (b : UInt8) : Does (Trails v) Any (userStore p va b) := by
  refine .read (fun s => ?_)
  dsimp only
  cases ht : (s.proc p).pagetable with
  | none => exact Trails.refl s
  | some t =>
    dsimp only
    split
    · rename_i e he
      obtain ⟨hpte, -, hwr⟩ := permits_some he
      simp only [wp_bind, wp_onMem]
      refine wp_use (wp_true _ any _) (fun _ k1 _ => ?_)
      refine .store rfl (fun q => .refl v _) (fun hb a h1 h2 => ?_)
      -- the hardware has let the store through, so the entry is writable
      obtain ⟨t0, ht0, -, e', he', -, hw', -⟩ := hb.table
      rw [ht] at ht0
      cases ht0
      rw [length_singleton] at h2
      have ha : a = va := by omega
      rintro rfl
      rw [ha, hpte] at he'
      cases he'
      rw [Access.needs, hw'] at hwr
      cases hwr
    · exact pageFault_trails p va .store s

omit [Link] in
theorem takeImage_trails {file : Option (List UInt8)} {k' : Kmem}
    (ht : (s.proc p).pagetable = some t) (r : Pt ⊕ Image) (hr : Wf t → ExecTables file t r) :
    wp (takeImage p r) (fun _ s' => Trails v s s') Any { s with k := k' } := by
  unfold takeImage
  rw [wp_bind, wp_get]
  cases r with
  | inl t' => exact .quiet rfl (Ported.retable ht rfl hr)
  | inr im =>
    simp only [wp_bind, Vm.setProc, happens, wp_modify]
    refine .gone (e := .exec p im.writes) (fun _ => rfl) (fun _ => trivial) rfl (fun q hq => ?_)
    dsimp only
    rw [update_of_ne hq]
    exact .refl v _

theorem execCall_trails (p : Slot) (file : Option (List UInt8)) (uargv : Nat) :
    Does (Trails v) Any (execCall p file uargv) := by
  refine .read (fun s => ?_)
  dsimp only
  split
  · rename_i t tf ht htf
    rw [wp_bind, wp_onMem]
    exact wp_use (wp_imp any sysExec_tables) (fun r k' => takeImage_trails ht r)
  · exact Trails.refl s

theorem execInit_trails (p : Slot) (file : Option (List UInt8)) : Does (Trails v) Any (execInit p file) := by
  refine .read (fun s => ?_)
  dsimp only
  split
  · rename_i t tf ht htf
    rw [wp_bind, wp_onMem]
    refine wp_use (wp_imp any kexec_tables) (fun r k' hr => ?_)
    cases r with
    | inl _ => trivial
    | inr im => exact takeImage_trails ht (.inr im) hr
  · exact Trails.refl s

theorem growproc_trails (p : Slot) (n : Int) : Does (Trails v) Any (growproc p n) := by
  refine .read (fun s => ?_)
  dsimp only
  cases ht : (s.proc p).pagetable with
  | none => exact Trails.refl s
  | some t =>
    refine wp_ite (fun _ => ?_) (fun _ => wp_ite (fun _ => ?_) (fun _ => Trails.refl s))
    · simp only [wp_bind, wp_onMem]
      refine wp_use (wp_imp any uvmalloc_laid) (fun r k1 hr => ?_)
      obtain ⟨sz, t'⟩ := r
      have hev : Wf t → Evolves t t' := by
        intro hw
        obtain ⟨hw', h | h | h⟩ := hr hw
        · exact .ofPte hw' h.2
        · exact .ofPte hw' h.2.2
        · exact h.2.2.evolves hw'
      refine .quiet rfl (Ported.update rfl (fun P hP hx => ?_))
      obtain ⟨t0, ht0, hw, hp⟩ := hx.table
      have hsz : (s.proc p).sz ≤ if sz = 0 then (s.proc p).sz else sz := by
        rw [ht] at ht0
        cases ht0
        split
        · exact le_refl _
        · obtain ⟨-, h | h | h⟩ := hr hw <;> omega
      refine Ported.table ht ?_ ?_ ?_ hev P hP hx
      · rfl
      · rfl
      · exact hsz
    · simp only [wp_bind, wp_onMem]
      refine wp_use (wp_imp any uvmdealloc_pte) (fun r k1 hr => ?_)
      obtain ⟨sz, t'⟩ := r
      refine .shrink rfl (fun hv => ?_) (fun q hq => ?_)
      · intro P hP hx
        obtain ⟨t0, ht0, hw, hp⟩ := hx.table
        rw [ht] at ht0
        cases ht0
        obtain ⟨hw', hpte⟩ := hr hw
        dsimp only
        rw [update_self]
        exact ⟨hx.live, ⟨t', rfl, hw', by rw [hpte v hv]; exact hp⟩, hv⟩
      · dsimp only
        rw [update_of_ne hq]
        exact .refl v _

theorem sysSbrk_trails (p : Slot) (n : Int) (lazy : Bool) : Does (Trails v) Any (sysSbrk p n lazy) := by
  refine .ite (fun _ => growproc_trails p n) (fun _ => .read (fun s => ?_))
  refine wp_ite (fun _ => Trails.refl s) (fun _ => ?_)
  refine .quiet rfl (Ported.update rfl ?_)
  intro P _ hx
  exact ⟨hx.live, hx.table, lt_of_lt_of_le hx.low (pgs_mono (Nat.le_add_right _ _))⟩

theorem kfork_trails (hv : v < trapVpn) (p : Slot) : Does (Trails v) Any (kfork p) := by
  intro s
  refine wp_then allocproc_idle (fun r s1 ⟨h1, hnew⟩ => ?_)
  cases r with
  | none => exact h1.trails
  | some np =>
    obtain ⟨hused, hblank⟩ := hnew np rfl
    have hnl : (s1.proc np).state ≠ .live := by rw [hused]; decide
    dsimp only
    rw [wp_bind, wp_get, wp_bind, wp_get]
    split
    · rename_i old new hold hnew
      obtain ⟨hwn, hbn⟩ := hblank new hnew
      simp only [wp_bind, wp_onMem, Vm.setProc]
      refine wp_use (wp_imp any (fun ho => uvmcopy_copied ho hwn hbn)) (fun r k1 hr => ?_)
      obtain ⟨ok, old', new'⟩ := r
      -- the parent, with its pages shared, and whatever the slot of the child holds
      have hparent : ∀ {s' : VmState} {y : Proc}, s'.proc = update (update s1.proc p
          { s1.proc p with pagetable := some old' }) np y → ∀ q, q ≠ np → Ported v (s1.proc q) (s'.proc q) := by
        intro s' y hs' q hq
        rw [hs', update_of_ne hq]
        by_cases e : q = p
        · subst e
          rw [update_self]
          exact .table hold rfl rfl le_rfl (fun hw => (hr hw).1)
        · rw [update_of_ne e]
          exact .refl v _
      refine wp_ite (fun hok => ?_) (fun hok => ?_)
      · simp only [wp_bind, wp_modify, update_idem]
        refine wp_use (dupFiles_idle p np _) (fun _ s3 h3 => h1.trails.trans ?_)
        refine .fork (congrArg (· ++ [Effect.fork p np]) h3.trace) ?_ (fun q hq P hP hx => ?_)
        · intro P hP hx
          obtain ⟨t0, ht0, hw, hp⟩ := hx.table
          rw [hold] at ht0
          cases ht0
          have hc := (hr hw).2 hok
          refine h3.ported np P hP ?_
          dsimp only
          rw [update_self]
          exact ⟨rfl, ⟨new', rfl, hc.wf, hP _ _ (hc.ages v hx.low hv) hp⟩, hx.low⟩
        · exact h3.ported q P hP (hparent rfl q hq P hP hx)
      · refine wp_use (freeproc_idle (by simpa using hnl)) (fun _ s3 h3 => h1.trails.trans ?_)
        refine .quiet h3.trace (fun q P hP hx => ?_)
        have hq : q ≠ np := by
          rintro rfl
          exact hnl hx.live
        exact h3.ported q P hP (hparent rfl q hq P hP hx)
    · exact h1.trails

theorem kwait_trails (p : Slot) (addr : Nat) : Does (Trails v) Any (kwait p addr) := by
  refine .read (fun s => ?_)
  split
  · exact Trails.refl s
  rename_i q hq
  have hz : (s.proc q).state = .zombie := by
    have := find?_some hq
    simp only [decide_eq_true_eq] at this
    exact this.2
  have hnl : (s.proc q).state ≠ .live := by rw [hz]; decide
  refine wp_ite (fun _ => wp_use (freeproc_idle hnl) (fun _ _ h => h.trails)) (fun _ => ?_)
  refine wp_then (copyoutTo_trails (v := v)) (fun ok s1 ⟨h1, hst⟩ => ?_)
  refine wp_ite (fun _ => ?_) (fun _ => h1)
  exact wp_use (freeproc_idle (by rw [hst]; exact hnl)) (fun _ _ h => h1.trans h.trails)

theorem sysPipe_trails (p : Slot) (fdarray : Nat) : Does (Trails v) Any (sysPipe p fdarray) := by
  have hboth : ∀ f g, Does (Trails v) Any (do fileclose f; fileclose g) := fun f g =>
    trails_of_idle (Idle.then (fileclose_idle f) (fun _ => fileclose_idle g))
  refine Trails.then (trails_of_idle pipealloc_idle) (fun r => ?_)
  cases r with
  | none => exact trails_of_idle (Idle.none _)
  | some fs =>
    obtain ⟨rf, wf⟩ := fs
    refine Trails.then (trails_of_idle (fdalloc_idle p rf)) (fun r => ?_)
    cases r with
    | none => exact hboth rf wf
    | some fd0 =>
      refine Trails.then (trails_of_idle (fdalloc_idle p wf)) (fun r => ?_)
      cases r with
      | none => exact Trails.then (trails_of_idle (clearFd_idle p fd0)) (fun _ => hboth rf wf)
      | some fd1 =>
        refine Trails.then (copyoutTo_does p _ _) (fun ok0 => ?_)
        refine Trails.then (.ite (fun _ => copyoutTo_does p _ _) (fun _ => trails_of_idle (Idle.none _))) (fun ok1 => ?_)
        refine .ite (fun _ => trails_of_idle (Idle.none _)) (fun _ => ?_)
        refine Trails.then (trails_of_idle (clearFd_idle p fd0)) (fun _ => ?_)
        exact Trails.then (trails_of_idle (clearFd_idle p fd1)) (fun _ => hboth rf wf)

theorem sysOpen_idle (p : Slot) : Does Idle Any (sysOpen p) := by
  refine Idle.then filealloc_idle (fun r => ?_)
  cases r with
  | none => exact Idle.none _
  | some f =>
    refine Idle.then (fdalloc_idle p f) (fun r => ?_)
    cases r with
    | none => exact fileclose_idle f
    | some _ => exact .read (fun s => setFile_idle f _ s)

theorem sysClose_idle (p : Slot) (fd : Fin 16) : Does Idle Any (sysClose p fd) := by
  refine .read (fun s => ?_)
  split
  · exact Idle.refl s
  · exact Idle.then (clearFd_idle p fd) (fun _ => fileclose_idle _) s

omit [Link] in
theorem sysDup_idle (p : Slot) (fd : Fin 16) : Does Idle Any (sysDup p fd) := by
  refine .read (fun s => ?_)
  split
  · exact Idle.refl s
  rename_i f _
  refine Idle.then (fdalloc_idle p f) (fun r => ?_) s
  cases r with
  | none => exact Idle.none _
  | some _ => exact filedup_idle f

theorem kvminit_idle : Does Idle Any kvminit := Idle.then (onMem_idle _) (fun _ _ => ⟨rfl, fun _ h => ⟨h, rfl, rfl⟩⟩)

omit [Link] in
theorem virtioDiskInit_idle : Does Idle Any virtioDiskInit :=
  Idle.then (onMem_idle _) (fun _ _ => ⟨rfl, fun _ h => ⟨h, rfl, rfl⟩⟩)

theorem userinit_idle : Does Idle Any userinit := by
  intro s
  refine wp_then allocproc_idle (fun r s1 ⟨h1, hnew⟩ => ?_)
  cases r with
  | none => trivial
  | some p =>
    have hnl : (s1.proc p).state ≠ .live := by rw [(hnew p rfl).1]; decide
    exact h1.trans (.outside rfl rfl hnl)

theorem program_trails (hv : v < trapVpn) {m : VM Unit} (h : program s a = some m) : Does (Trails v) Any m := by
  cases a <;> simp only [program, Option.ite_none_right_eq_some, Option.some.injEq] at h <;> obtain ⟨-, rfl⟩ := h
  case kvminit => exact trails_of_idle kvminit_idle
  case virtioDiskInit => exact trails_of_idle virtioDiskInit_idle
  case userinit => exact trails_of_idle userinit_idle
  case execInit p file => exact execInit_trails p file
  case fork p => exact kfork_trails hv p
  case exec p file uargv => exact execCall_trails p file uargv
  case sbrk p n lazy => exact sysSbrk_trails p n lazy
  case read p va acc => exact userRead_trails p va acc
  case store p va b => exact userStore_trails p va b
  case copyout p va bytes => exact Trails.then (copyoutTo_does p va bytes) (fun _ => trails_of_idle (Idle.none _))
  case copyin p va len => exact Trails.then (copyinFrom_trails p va len) (fun _ => trails_of_idle (Idle.none _))
  case pipe p fdarray => exact sysPipe_trails p fdarray
  case openFile p => exact trails_of_idle (sysOpen_idle p)
  case close p fd => exact trails_of_idle (sysClose_idle p fd)
  case dup p fd => exact trails_of_idle (sysDup_idle p fd)
  case exit p status => exact kexit_trails p status
  case wait p addr => exact kwait_trails p addr

theorem step_trails (hv : v < trapVpn) (h : vmStep s a = some s') : Trails v s s' := by
  unfold vmStep at h
  split at h
  · cases h
  obtain ⟨m, hm, rfl⟩ := Option.map_eq_some_iff.1 h
  split
  · rename_i hrun
    exact wp_of_ok (Q := fun _ s' => Trails v s s') (program_trails hv hm s) hrun
  · exact .quiet rfl (fun _ => .refl v _)

theorem run_trails (hv : v < trapVpn) : ∀ (as : List VmAct) {s s' : VmState}, Run.run vmStep s as = some s' → Trails v s s'
  | [], s, s', h => by
    cases h
    exact .refl s
  | a :: as, s, s', h => by
    obtain ⟨s1, h1, h2⟩ := Option.bind_eq_some_iff.1 h
    exact (step_trails hv h1).trans (run_trails hv as h2)

end Xv6.Vm
