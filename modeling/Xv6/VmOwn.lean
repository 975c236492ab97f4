import Xv6.VmLoad
import Xv6.VmModel
/-!
# VmOwn — who uses which page, and what every state keeps

`owners s` lists the uses of pages in a state: the kernel's own, those of every process and those of the pipes.
`VmInv M s` is what the functions of `proc.c`, `file.c` and `pipe.c` keep: the accounts are right, every process shows the
bytes `M` gives it, and the pipes are the ones the open files are ends of.
-/
namespace Xv6.Vm

open Function List Wp

@[irreducible] def pages : List Nat := List.range stopPage

variable {q : Nat} {p : Slot} {ps : List Slot} {s s' : VmState} {x y : Proc} {k' k : Kmem}
  {M M' : Slot → Nat → UInt8}

theorem mem_pages : q ∈ pages ↔ q < stopPage := by
  unfold pages
  exact mem_range

theorem nodup_pages : pages.Nodup := by
  unfold pages
  exact nodup_range

def tableUses : Option Pt → Multiset Nat
  | none => 0
  | some t => uses t

def procUses (x : Proc) : Multiset Nat := opt x.trapframe + tableUses x.pagetable

def pipeUse (pipe : Nat → Bool × Bool) (q : Nat) : Multiset Nat := if pipe q = (false, false) then 0 else {q}

def pipes (pipe : Nat → Bool × Bool) : Multiset Nat := (pages.map (pipeUse pipe)).sum

def kernUses (s : VmState) : Multiset Nat :=
  (match s.kpt with | none => 0 | some t => tabs t) + (s.kstack : Multiset Nat) + (s.disk : Multiset Nat)

def core (s : VmState) : Multiset Nat := kernUses s + (procs.map (fun p => procUses (s.proc p))).sum

def owners (s : VmState) : Multiset Nat := core s + pipes s.pipe

section

local instance lawful : LawfulBEq Slot := inferInstance

/-- The uses other than those of the processes `ps`. -/
def othersThan (s : VmState) (ps : List Slot) : Multiset Nat :=
  kernUses s + (procs.map (fun q => if q ∈ ps then 0 else procUses (s.proc q))).sum + pipes s.pipe

end

theorem othersThan_cons (s : VmState) (hp : p ∉ ps) : othersThan s ps = othersThan s (p :: ps) + procUses (s.proc p) := by
  have h := Sum.sum_map_change (f := fun q => if q ∈ p :: ps then 0 else procUses (s.proc q))
    (g := fun q => if q ∈ ps then 0 else procUses (s.proc q)) nodup_procs (mem_procs p)
    (fun q _ hq => by simp [mem_cons, hq, false_or])
  simp only [mem_cons_self, if_true, add_zero, if_neg hp] at h
  rw [othersThan, othersThan, h, ← add_assoc, add_right_comm]

theorem owners_split (s : VmState) (p : Slot) : owners s = othersThan s [p] + procUses (s.proc p) := by
  rw [← othersThan_cons s not_mem_nil]
  simp [owners, core, othersThan]

theorem procUses_le {q : Slot} (h : q ∉ ps) : procUses (s.proc q) ≤ othersThan s ps := by
  rw [othersThan_cons s h]
  exact Multiset.le_add_left _ _

theorem othersThan_congr (hkern : kernUses s' = kernUses s) (hpipe : s'.pipe = s.pipe)
    (h : ∀ q, q ∉ ps → s'.proc q = s.proc q) : othersThan s' ps = othersThan s ps := by
  unfold othersThan
  rw [hkern, hpipe, Sum.sum_map_congr (fun q _ => ?_)]
  by_cases hq : q ∈ ps
  · rw [if_pos hq, if_pos hq]
  · rw [if_neg hq, if_neg hq, h q hq]

theorem leaves_le_procUses {t : Pt} (h : x.pagetable = some t) : leaves t.pte ≤ procUses x := by
  rw [procUses, h]
  exact le_trans (Multiset.le_add_left _ _) (Multiset.le_add_left _ _)

theorem mem_pipes {pipe : Nat → Bool × Bool} (h : pipe q ≠ (false, false)) (hq : q < stopPage) : q ∈ pipes pipe := by
  refine Sum.mem_sum_map.2 ⟨q, mem_pages.2 hq, ?_⟩
  rw [pipeUse, if_neg h]
  exact Multiset.mem_singleton_self q

theorem pipes_update (pipe : Nat → Bool × Bool) (o : Bool × Bool) (hq : q < stopPage) :
    pipes (update pipe q o) + pipeUse pipe q = pipes pipe + pipeUse (update pipe q o) q :=
  Sum.sum_map_change nodup_pages (mem_pages.2 hq) (fun r _ hr => by
    rw [pipeUse, pipeUse, update_of_ne hr])

/-! ## The invariant -/

/-- The end of a pipe a file of kind `.pipe pi writable` is. -/
def endOpen (o : Bool × Bool) (writable : Bool) : Bool := if writable then o.2 else o.1

/-- **The pipes are the ones the open files are ends of.** -/
structure Ends (file : Fin 100 → File) (pipe : Nat → Bool × Bool) : Prop where
  closed : ∀ f, (file f).ref = 0 → (file f).kind = .none
  isOpen : ∀ f pi w, (file f).kind = .pipe pi w → endOpen (pipe pi) w = true
  only : ∀ f g pi w, (file f).kind = .pipe pi w → (file g).kind = .pipe pi w → f = g
  hasEnd : ∀ pi w, endOpen (pipe pi) w = true → ∃ f, (file f).kind = .pipe pi w
  range : ∀ pi, pipe pi ≠ (false, false) → pi < stopPage

variable [Link] {proc : Slot → Proc} {trace : List Effect}

/-- What a process is to show, `m` being the bytes it has. -/
structure ProcInv (k : Kmem) (x : Proc) (m : Nat → UInt8) : Prop where
  user : ∀ t, x.pagetable = some t → User false k t (pgs x.sz) m
  gone : x.pagetable = none → x.sz = 0 ∧ m = fun _ => 0
  unused : x.state = .unused → x.pagetable = none ∧ x.trapframe = none
  live : x.state = .live → x.pagetable ≠ none
  zombie : x.state = .zombie → x.pagetable = none

structure VmInv (M : Slot → Nat → UInt8) (s : VmState) : Prop where
  acc : Acc s.k (owners s)
  proc : ∀ p, ProcInv s.k (s.proc p) (M p)
  ends : Ends s.file s.pipe
  kstack : s.kpt = none → s.kstack = []
  calm : s.panic = none

omit [Link] in
theorem ProcInv.frame {m : Nat → UInt8} {own : Multiset Nat} (h : ProcInv k x m)
    (hk : Keeps own k k') (hle : procUses x ≤ own) : ProcInv k' x m :=
  ⟨fun t ht => (h.user t ht).frame hk (le_trans (leaves_le_procUses ht) hle), h.gone, h.unused, h.live, h.zombie⟩

theorem VmInv.table {M : Slot → Nat → UInt8} {s : VmState} {p : Slot} {t : Pt} (h : VmInv M s)
    (ht : (s.proc p).pagetable = some t) : Acc s.k (othersThan s [p] + opt (s.proc p).trapframe + uses t) :=
  h.acc.of_eq (by rw [owners_split s p, procUses, ht, tableUses, add_assoc])

theorem VmInv.changes (ps : List Slot) (h : VmInv M s) (hoff : ∀ q, q ∉ ps → proc q = s.proc q ∧ M' q = M q)
    (ha : Acc k' (owners { s with k := k', proc := proc, trace := trace })) (hk : Keeps (othersThan s ps) s.k k')
    (hx : ∀ q ∈ ps, ProcInv k' (proc q) (M' q)) : VmInv M' { s with k := k', proc := proc, trace := trace } := by
  refine ⟨ha, fun q => ?_, h.ends, h.kstack, h.calm⟩
  by_cases hq : q ∈ ps
  · exact hx q hq
  · obtain ⟨hp, hm⟩ := hoff q hq
    simp only [hp, hm]
    exact (h.proc q).frame hk (procUses_le hq)

theorem VmInv.change (h : VmInv M s) (ha : Acc k' (othersThan s [p] + procUses x)) (hk : Keeps (othersThan s [p]) s.k k')
    (hx : ProcInv k' x (M' p)) (hM : ∀ q, q ≠ p → M' q = M q) :
    VmInv M' { s with k := k', proc := update s.proc p x, trace := trace } := by
  have hoff : ∀ q, q ∉ [p] → update s.proc p x q = s.proc q := fun q hq =>
    update_of_ne (ne_of_not_mem_cons hq) _ _
  refine h.changes [p] (fun q hq => ⟨hoff q hq, hM q (ne_of_not_mem_cons hq)⟩) ?_ hk (fun q hq => ?_)
  · have hothers : othersThan { s with k := k', proc := update s.proc p x, trace := trace } [p] =
        othersThan s [p] := othersThan_congr rfl rfl hoff
    rw [owners_split _ p, hothers]
    simp only [update_self]
    exact ha
  · rw [mem_singleton.1 hq, update_self]
    exact hx

theorem VmInv.change2 {q : Slot}
    (h : VmInv M s) (hpq : p ≠ q) (ha : Acc k' (othersThan s [p, q] + procUses x + procUses y))
    (hk : Keeps (othersThan s [p, q]) s.k k') (hx : ProcInv k' x (M' p)) (hy : ProcInv k' y (M' q))
    (hM : ∀ r, r ≠ p → r ≠ q → M' r = M r) :
    VmInv M' { s with k := k', proc := update (update s.proc p x) q y, trace := trace } := by
  have hoff : ∀ r, r ∉ [p, q] → update (update s.proc p x) q y r = s.proc r := by
    intro r hr
    simp only [mem_cons, not_mem_nil, or_false, not_or] at hr
    rw [update_of_ne hr.2, update_of_ne hr.1]
  refine h.changes [p, q] (fun r hr => ⟨hoff r hr, ?_⟩) ?_ hk (fun r hr => ?_)
  · simp only [mem_cons, not_mem_nil, or_false, not_or] at hr
    exact hM r hr.1 hr.2
  · have hothers : othersThan { s with
        k := k', proc := update (update s.proc p x) q y, trace := trace } [p, q] =
        othersThan s [p, q] := othersThan_congr rfl rfl hoff
    have hp : p ∉ [q] := by simpa using hpq
    rw [owners_split _ q, othersThan_cons _ hp, hothers]
    simp only [update_self, update_of_ne hpq]
    exact ha
  · rcases mem_cons.1 hr with rfl | hr
    · rw [update_of_ne hpq, update_self]
      exact hx
    · rw [mem_singleton.1 hr, update_self]
      exact hy

theorem VmInv.procs (h : VmInv M s)
    (hp : ∀ q, (proc q).state = (s.proc q).state ∧ (proc q).pagetable = (s.proc q).pagetable ∧
      (proc q).sz = (s.proc q).sz ∧ (proc q).trapframe = (s.proc q).trapframe) : VmInv M { s with proc := proc } := by
  have huses : ∀ q, procUses (proc q) = procUses (s.proc q) := by
    intro q
    obtain ⟨-, ht, -, htf⟩ := hp q
    rw [procUses, procUses, ht, htf]
  refine ⟨h.acc.of_eq ?_, fun q => ?_, h.ends, h.kstack, h.calm⟩
  · unfold owners core kernUses
    simp [huses]
  obtain ⟨hs, ht, hz, htf⟩ := hp q
  have hq := h.proc q
  refine ⟨fun t h' => ?_, fun h' => ?_, fun h' => ?_, fun h' => ?_, fun h' => ?_⟩ <;>
    simp only [hs, ht, hz, htf] at h' ⊢
  · exact hq.user t h'
  · exact hq.gone h'
  · exact hq.unused h'
  · exact hq.live h'
  · exact hq.zombie h'

omit [Link] in
@[simp] theorem wp_onMem {α : Type} {m : KM α} {Q : α → VmState → Prop} {F : Panic → Prop} :
    wp (onMem m) Q F s ↔ wp m (fun a k' => Q a { s with k := k' }) F s.k := by
  unfold wp onMem
  simp only [StateT.run]
  cases m s.k with
  | ok r => rfl
  | error e => rfl

end Xv6.Vm
