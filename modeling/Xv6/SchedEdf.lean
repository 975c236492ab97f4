import Xv6.SchedModel
/-!
# SchedEdf — earliest deadline first, on one hart

On one hart nothing comes between the sections of `yield`, and a scheduler pass is one step: between `intr_off` and the
switch no interrupt is taken. A process inside `kfork` holds no lock between its sections, so those are steps of their
own.

The queue is ordered by deadline, then priority, then the time of insertion (`before`), and a pass finds in it exactly the
runnable processes whose start time has come (`scheduler_edf`).
-/
namespace Xv6.Sched

open Function List

/-! ## One hart -/

structure Uni where
  k : Kern
  cur : Option Slot
  fork : Slot → Option (Slot × Bool)

inductive UniAct where
  | tick
  | yield
  | sleep (chan : Chan)
  | wakeup (chan : Chan)
  | kill (pid : Int)
  | fork (mem : Bool)
  | forkParent
  | forkReady
  | exit (status : Int)
  | wait (copied : Bool)
  | setSchedAttr (deadline priority startTime : Int)
  | schedule
  deriving DecidableEq, Repr

def scanOne (t : Int) (k : Kern) (c : Slot) : Kern := if activates k t c then rqInsert k c else k

@[irreducible] def activateAll (k : Kern) : Kern := (List.finRange nproc).foldl (scanOne (now k)) k

/-- One pass of `scheduler`, up to the switch. -/
def scheduler (k : Kern) : Option Slot × Kern :=
  match rqDequeue (activateAll k) with
  | none => (none, activateAll k)
  | some (p, k1) =>
    if (k1.proc p).state = .runnable then (some p, setProc k1 p { k1.proc p with state := .running, chan := none })
    else (none, k1)

def kexit (k : Kern) (p : Slot) (status : Int) : Kern :=
  zombify (wakeParent ((List.finRange nproc).foldl (reparentOne p) k) p) p status

/-- What the running process does. Inside `kfork` it goes on with `kfork` or is made to yield. -/
def uniCall (s : Uni) (p : Slot) (a : UniAct) : Option Uni :=
  match s.fork p, a with
  | _, .yield => some { s with k := rqInsert (setState s.k p .runnable) p, cur := none }
  | some (np, false), .forkParent =>
    some { s with k := forkParent s.k p np, fork := update s.fork p (some (np, true)) }
  | some (np, true), .forkReady => some { s with k := forkReady s.k np, fork := update s.fork p none }
  | some _, _ => none
  | none, .sleep chan => some { s with k := sleepOn s.k p chan, cur := none }
  | none, .kill pid => some { s with k := kkill s.k pid }
  | none, .fork mem =>
    match firstUnused s.k with
    | none => some s
    | some np => some { s with
        k := forkChild s.k p np mem, fork := update s.fork p (if mem then some (np, false) else none) }
  | none, .exit status =>
    if p = initSlot then some { s with k := { s.k with panic := some .initExiting } }
    else some { s with k := kexit s.k p status, cur := none }
  | none, .wait copied =>
    match reapable s.k p with
    | none => some s
    | some pp => some (if copied then { s with k := freeproc s.k pp } else s)
  | none, .setSchedAttr d pr st => some { s with k := setSchedAttr s.k p d pr st }
  | none, _ => none

def uniStep (s : Uni) (a : UniAct) : Option Uni :=
  if s.k.panic.isSome then none
  else
    match a, s.cur with
    | .tick, _ => some { s with k := clockintr s.cur s.k }
    | .wakeup chan, _ => some { s with k := wakeup s.cur chan s.k }
    | .schedule, none => some { s with k := (scheduler s.k).2, cur := (scheduler s.k).1 }
    | _, none => none
    | a, some p => uniCall s p a

def uniBoot : Uni := { k := boot, cur := none, fork := fun _ => none }

def Eligible (k : Kern) (p : Slot) : Prop := (k.proc p).state = .runnable ∧ (k.proc p).startTime ≤ k.ticks

/-- The order of dispatch: deadline, then priority, then insertion. -/
def before (k : Kern) (p q : Slot) : Prop :=
  (k.proc p).deadline < (k.proc q).deadline ∨
  ((k.proc p).deadline = (k.proc q).deadline ∧
    ((k.proc p).priority < (k.proc q).priority ∨
      ((k.proc p).priority = (k.proc q).priority ∧ k.stamp p < k.stamp q)))

/-- **A scheduler decision**: the activation loop does not panic and leaves in the queue each eligible process once and
nothing else, with `in_rq` set exactly for them; the process the pass then switches to is eligible and comes before every
other eligible one, and there is one as soon as any process is eligible. -/
structure Decision (k : Kern) : Prop where
  panic : (activateAll k).panic = none
  nodup : (activateAll k).rq.Nodup
  members : ∀ p, p ∈ (activateAll k).rq ↔ Eligible k p
  flags : ∀ p, ((activateAll k).proc p).inRq = true ↔ p ∈ (activateAll k).rq
  first : ∀ p, (scheduler k).1 = some p → Eligible k p ∧ ∀ q, Eligible k q → q ≠ p → before (activateAll k) p q
  busy : ∀ q, Eligible k q → (scheduler k).1 ≠ none

/-- **Earliest deadline first**: the queue has not overflowed, and a pass begun here decides rightly. -/
def Edf (s : Uni) : Prop := s.k.panic ≠ some .overflow ∧ (s.cur = none → s.k.panic = none → Decision s.k)

/-! ## The ready queue -/

structure Queue (k : Kern) : Prop where
  nodup : k.rq.Nodup
  flags : ∀ p, (k.proc p).inRq = true ↔ p ∈ k.rq
  members : ∀ p ∈ k.rq, (k.proc p).state = .runnable ∧ (k.proc p).startTime ≤ now k
  sorted : k.rq.Pairwise (before k)
  stamps : ∀ p ∈ k.rq, k.stamp p < k.seq

variable {p q : Slot} {k' k : Kern} {x : Proc} {np r : Slot}

theorem before_of_behind (h : (k.proc q).behind (k.proc p) = true) : before k p q := by
  simp only [Proc.behind, Bool.or_eq_true, Bool.and_eq_true, decide_eq_true_eq] at h
  unfold before
  omega

theorem not_behind (h : (k.proc q).behind (k.proc p) = false) (hs : k.stamp q < k.stamp p) : before k q p := by
  simp only [Proc.behind, Bool.or_eq_false_iff, Bool.and_eq_false_iff, decide_eq_false_iff_not] at h
  unfold before
  omega

theorem not_behind_of_before (hb : before k q r) : (k.proc q).behind (k.proc r) = false := by
  simp only [Proc.behind, Bool.or_eq_false_iff, Bool.and_eq_false_iff, decide_eq_false_iff_not]
  unfold before at hb
  omega

theorem not_behind_trans {y z : Proc} (h : x.behind y = false) (h' : y.behind z = false) : x.behind z = false := by
  simp only [Proc.behind, Bool.or_eq_false_iff, Bool.and_eq_false_iff, decide_eq_false_iff_not] at h h' ⊢
  omega

theorem rqPos_spec (k : Kern) (p : Slot) : ∀ i, i ≤ k.rq.length → rqPos k p i ≤ i ∧
      (∀ j q, rqPos k p i ≤ j → j < i → k.rq[j]? = some q → (k.proc q).behind (k.proc p) = true) ∧
      (∀ q, 0 < rqPos k p i → k.rq[rqPos k p i - 1]? = some q → (k.proc q).behind (k.proc p) = false)
  | 0, _ => ⟨le_refl 0, fun j q _ hj => by omega, fun q h => by simp [rqPos] at h⟩
  | i + 1, hi => by
    have ih := rqPos_spec k p i (by omega)
    unfold rqPos
    split
    · rename_i h
      refine ⟨by omega, fun j q hj hji hq => ?_, ih.2.2⟩
      by_cases e : j = i
      · subst e
        simpa [hq] using h
      · exact ih.2.1 j q hj (by omega) hq
    · rename_i h
      refine ⟨Nat.le_refl _, fun j q hj hji => by omega, fun q _ hq => ?_⟩
      simp only [Nat.add_sub_cancel] at hq
      simpa [hq] using h

theorem behind_of_mem_drop (k : Kern) (p q : Slot) (h : q ∈ k.rq.drop (rqPos k p k.rq.length)) :
    (k.proc q).behind (k.proc p) = true := by
  obtain ⟨j, hj⟩ := mem_iff_getElem?.1 h
  rw [getElem?_drop] at hj
  exact (rqPos_spec k p k.rq.length le_rfl).2.1 _ q (Nat.le_add_right _ _)
    ((List.getElem?_eq_some_iff.1 hj).1) hj

theorem not_behind_of_mem_take (hs : k.rq.Pairwise (fun q r => (k.proc q).behind (k.proc r) = false)) (p q : Slot)
    (h : q ∈ k.rq.take (rqPos k p k.rq.length)) : (k.proc q).behind (k.proc p) = false := by
  obtain ⟨hle, -, hlast⟩ := rqPos_spec k p k.rq.length le_rfl
  obtain ⟨j, hj⟩ := List.mem_iff_getElem?.1 h
  rw [List.getElem?_take] at hj
  split at hj
  · have hl : rqPos k p k.rq.length - 1 < k.rq.length := by omega
    have hr := hlast _ (by omega) (List.getElem?_eq_getElem hl)
    obtain ⟨hjl, hjq⟩ := List.getElem?_eq_some_iff.1 hj
    by_cases e : j = rqPos k p k.rq.length - 1
    · subst e
      rw [← hjq]
      exact hr
    · refine not_behind_trans ?_ hr
      rw [← hjq]
      exact List.pairwise_iff_getElem.1 hs j _ hjl hl (by omega)
  · cases hj

theorem sorted_congr {l : List Slot} (h : l.Pairwise (before k))
    (hp : ∀ p ∈ l, (k'.proc p).deadline = (k.proc p).deadline ∧ (k'.proc p).priority = (k.proc p).priority ∧
      k'.stamp p = k.stamp p) : l.Pairwise (before k') := by
  refine h.imp_of_mem (fun {p q} hpl hql hb => ?_)
  obtain ⟨h1, h2, h3⟩ := hp p hpl
  obtain ⟨g1, g2, g3⟩ := hp q hql
  unfold before
  rw [h1, h2, h3, g1, g2, g3]
  exact hb

section
variable (hq : Queue k)
include hq

theorem Queue.not_mem (h : (k.proc p).state ≠ .runnable) : p ∉ k.rq := fun hm => h (hq.members p hm).1

theorem Queue.setProc (hp : p ∉ k.rq) (hx : x.inRq = false) : Queue (setProc k p x) := by
  have hne : ∀ q ∈ k.rq, q ≠ p := by
    rintro q hm rfl
    exact hp hm
  have hproc : ∀ q ∈ k.rq, (Sched.setProc k p x).proc q = k.proc q :=
    fun q hm => by rw [setProc_proc, if_neg (hne q hm)]
  refine ⟨hq.nodup, fun q => ?_, fun q hm => ?_, sorted_congr hq.sorted (fun q hm => ?_), hq.stamps⟩
  · rw [setProc_proc]
    split
    · rename_i e
      simp only [hx, Bool.false_eq_true, false_iff, e]
      exact hp
    · exact hq.flags q
  · rw [hproc q hm]
    exact hq.members q hm
  · rw [hproc q hm]
    exact ⟨rfl, rfl, rfl⟩

theorem Queue.setState (hp : p ∉ k.rq) (st : ProcState) : Queue (setState k p st) :=
  hq.setProc hp (by rw [← Bool.not_eq_true, hq.flags p]; exact hp)

theorem Queue.length_lt (hp : p ∉ k.rq) : k.rq.length < nproc := by
  have h := (nodup_cons.2 ⟨hp, hq.nodup⟩).length_le_card
  simp only [length_cons, Fintype.card_fin] at h
  omega

/-- **`rq_insert` of a runnable process keeps the queue**, without a panic; the members stay, and the process is among
them if its start time has come. -/
theorem Queue.insert (hr : (k.proc p).state = .runnable) : Queue (rqInsert k p) ∧ (rqInsert k p).panic = k.panic ∧
    (∀ q, q ∈ (rqInsert k p).rq ↔ q ∈ k.rq ∨ (q = p ∧ (k.proc p).startTime ≤ now k)) := by
  rcases rqInsert_cases k p with ⟨e, h⟩ | ⟨hf, hl, -⟩ | ⟨hf, ht, -, e⟩
  · rw [e]
    refine ⟨hq, rfl, fun q => ⟨.inl, ?_⟩⟩
    rintro (hm | ⟨rfl, ht⟩)
    · exact hm
    · rcases h with h | h
      · exact (hq.flags q).1 h
      · omega
  · have hp : p ∉ k.rq := by rw [← hq.flags p, hf]; simp
    have := hq.length_lt hp
    omega
  have hp : p ∉ k.rq := by rw [← hq.flags p, hf]; simp
  rw [e]
  set i := rqPos k p k.rq.length with hi
  have hperm : (k.rq.take i ++ p :: k.rq.drop i).Perm (p :: k.rq) := by
    have h := @perm_middle _ p (k.rq.take i) (k.rq.drop i)
    rwa [take_append_drop] at h
  have hmem : ∀ q, q ∈ k.rq.take i ++ p :: k.rq.drop i ↔ q ∈ k.rq ∨ q = p := by
    intro q
    rw [hperm.mem_iff, mem_cons, or_comm]
  have hne : ∀ q ∈ k.rq, q ≠ p := by
    rintro q hm rfl
    exact hp hm
  refine ⟨⟨?_, fun q => ?_, fun q hm => ?_, ?_, fun q hm => ?_⟩, rfl, fun q => by simp [hmem, ht]⟩
  · exact hperm.nodup_iff.2 (nodup_cons.2 ⟨hp, hq.nodup⟩)
  · by_cases eq : q = p
    · simp [eq]
    · simp only [update_of_ne eq, hmem, eq, or_false]
      exact hq.flags q
  · rcases (hmem q).1 hm with h | rfl
    · simp only [update_of_ne (hne q h)]
      exact hq.members q h
    · simp only [update_self]
      exact ⟨hr, ht⟩
  · -- the new stamp is the latest, so what is not behind `p` comes before it
    have hsplit := pairwise_append.1 (show (k.rq.take i ++ k.rq.drop i).Pairwise (before k) by
      rw [take_append_drop]; exact hq.sorted)
    have hkeep : ∀ q ∈ k.rq, (update k.proc p { k.proc p with inRq := true } q) = k.proc q ∧
        update k.stamp p k.seq q = k.stamp q :=
      fun q hm => ⟨update_of_ne (hne q hm) _ _, update_of_ne (hne q hm) _ _⟩
    have htake : ∀ q ∈ k.rq.take i, q ∈ k.rq := fun q => mem_of_mem_take
    have hdrop : ∀ q ∈ k.rq.drop i, q ∈ k.rq := fun q => mem_of_mem_drop
    rw [pairwise_append, pairwise_cons]
    refine ⟨sorted_congr hsplit.1 (fun q hm => ?_), ⟨fun q hm => ?_, sorted_congr hsplit.2.1 (fun q hm => ?_)⟩,
      fun q hm r hr => ?_⟩
    · simp [hkeep q (htake q hm)]
    · refine before_of_behind ?_
      simpa [hkeep q (hdrop q hm), Proc.behind] using behind_of_mem_drop k p q hm
    · simp [hkeep q (hdrop q hm)]
    rcases mem_cons.1 hr with rfl | hr
    · refine not_behind ?_ ?_
      · simpa [hkeep q (htake q hm), Proc.behind] using
          not_behind_of_mem_take (hq.sorted.imp not_behind_of_before) r q hm
      · simpa [hkeep q (htake q hm)] using hq.stamps q (htake q hm)
    · have := hsplit.2.2 q hm r hr
      simpa [before, hkeep q (htake q hm), hkeep r (hdrop r hr)] using this
  · rcases (hmem q).1 hm with h | rfl
    · simp only [update_of_ne (hne q h)]
      have := hq.stamps q h
      omega
    · simp

theorem Queue.leave (p : Slot) :
    Queue { k with rq := k.rq.erase p, proc := update k.proc p { k.proc p with inRq := false } } := by
  have hmem : ∀ q, q ∈ k.rq.erase p ↔ q ≠ p ∧ q ∈ k.rq := fun q => hq.nodup.mem_erase_iff
  refine ⟨hq.nodup.erase p, fun q => ?_, fun q hm => ?_, ?_, fun q hm => hq.stamps q ((hmem q).1 hm).2⟩
  · by_cases e : q = p
    · simp [e, hq.nodup.mem_erase_iff]
    · simp only [update_of_ne e, hmem, e, ne_eq, not_false_eq_true, true_and]
      exact hq.flags q
  · obtain ⟨hne, hm'⟩ := (hmem q).1 hm
    simp only [update_of_ne hne]
    exact hq.members q hm'
  · refine sorted_congr (hq.sorted.sublist erase_sublist) (fun q hm => ?_)
    simp [update_of_ne ((hmem q).1 hm).1]

theorem Queue.dequeue (h : rqDequeue k = some (p, k')) :
    Queue k' ∧ p ∉ k'.rq ∧ p ∈ k.rq ∧ ∀ q ∈ k.rq, q ≠ p → before k p q := by
  unfold rqDequeue at h
  split at h
  · cases h
  rename_i r rest hrq
  cases h
  have hl := hq.leave p
  have hs := hq.sorted
  have hn := hq.nodup
  rw [hrq] at hl hs hn ⊢
  rw [erase_cons_head] at hl
  refine ⟨hl, (nodup_cons.1 hn).1, mem_cons_self, fun q hm hne => ?_⟩
  exact (pairwise_cons.1 hs).1 q ((mem_cons.1 hm).resolve_left hne)

end

theorem now_congr (h : k'.ticks = k.ticks) : now k' = now k := by
  unfold now
  rw [h]

theorem now_of_lt (h : k.ticks < 2 ^ 31) : now k = k.ticks := if_pos h

theorem Queue.later (hq : Queue k) {t : Nat} (ht : now k ≤ now { k with ticks := t }) : Queue { k with ticks := t } :=
  ⟨hq.nodup, hq.flags, fun p hm => ⟨(hq.members p hm).1, Int.le_trans (hq.members p hm).2 ht⟩, hq.sorted, hq.stamps⟩

/-! ## The invariant -/

structure UniInv (k : Kern) (cur : Option Slot) (fork : Slot → Option (Slot × Bool)) : Prop where
  queue : Queue k
  running : ∀ p, (k.proc p).state = .running ↔ cur = some p
  forks : Forks k fork
  panic : k.panic ≠ some .overflow

variable {k : Kern} {cur : Option Slot} {fork f : Slot → Option (Slot × Bool)} {b : Bool} {a : UniAct}
  {s s' : Uni}

section
variable (hI : UniInv k cur fork)
include hI

theorem UniInv.kern (hq : Queue k') (hp : k'.panic ≠ some .overflow) (hst : ∀ p, (k'.proc p).state = (k.proc p).state ∨
      ((k.proc p).state ≠ .running ∧ (k'.proc p).state ≠ .running ∧ (k.proc p).state ≠ .used)) : UniInv k' cur fork := by
  refine ⟨hq, fun p => ?_, hI.forks.keep (fun p hu => ?_), hp⟩
  · rcases hst p with h | ⟨h1, h2, -⟩
    · rw [h]
      exact hI.running p
    · exact ⟨fun h => absurd h h2, fun h => absurd ((hI.running p).2 h) h1⟩
  · rcases hst p with h | ⟨-, -, h⟩
    · exact h.trans hu
    · exact absurd hu h

theorem UniInv.ready (hs : (k.proc p).state = .sleeping) : UniInv (rqInsert (setState k p .runnable) p) cur fork := by
  have hp : p ∉ k.rq := hI.queue.not_mem (by simp [hs])
  have hr : ((setState k p .runnable).proc p).state = .runnable := by rw [setState_state, if_pos rfl]
  obtain ⟨hq, hpan, -⟩ := (hI.queue.setState hp .runnable).insert hr
  refine hI.kern hq ?_ (fun q => ?_)
  · rw [hpan]
    exact hI.panic
  rw [rqInsert_state, setState_state]
  split
  · rename_i e
    subst e
    simp [hs]
  · exact .inl rfl

theorem UniInv.wakeOne (me : Option Slot) (chan : Chan) (p : Slot) : UniInv (wakeOne me chan k p) cur fork := by
  unfold Sched.wakeOne
  split
  · rename_i h
    exact hI.ready h.2.1
  · exact hI

theorem UniInv.wakeup (me : Option Slot) (chan : Chan) : UniInv (wakeup me chan k) cur fork :=
  foldlRecOn (motive := fun k => UniInv k cur fork) _ _ hI (fun _ hb p _ => hb.wakeOne me chan p)

theorem UniInv.setProc (hp : p ∉ k.rq) (hx : x.inRq = false)
    (hs : x.state = (k.proc p).state) : UniInv (setProc k p x) cur fork := by
  refine hI.kern (hI.queue.setProc hp hx) hI.panic (fun q => .inl ?_)
  rw [setProc_proc]
  split
  · rename_i e
    rw [e, hs]
  · rfl

theorem UniInv.same (hi : x.inRq = (k.proc p).inRq)
    (hs : x.state = (k.proc p).state) (ht : x.startTime = (k.proc p).startTime) (hd : x.deadline = (k.proc p).deadline)
    (hpr : x.priority = (k.proc p).priority) : UniInv (Sched.setProc k p x) cur fork := by
  have hst : ∀ q, ((Sched.setProc k p x).proc q).state = (k.proc q).state := by
    intro q
    rw [setProc_proc]
    split
    · rename_i e; rw [e, hs]
    · rfl
  refine hI.kern ⟨hI.queue.nodup, fun q => ?_, fun q hm => ⟨?_, ?_⟩, sorted_congr hI.queue.sorted (fun q _ => ?_),
    hI.queue.stamps⟩ hI.panic (fun q => .inl (hst q))
  · refine Iff.trans ?_ (hI.queue.flags q)
    rw [setProc_proc]
    split
    · rename_i e; rw [e, hi]
    · rfl
  · rw [hst]
    exact (hI.queue.members q hm).1
  · rw [setProc_proc]
    split
    · rename_i e; rw [ht, ← e]; exact (hI.queue.members q hm).2
    · exact (hI.queue.members q hm).2
  · rw [setProc_proc]
    split
    · rename_i e; rw [e, hd, hpr]; exact ⟨rfl, rfl, rfl⟩
    · exact ⟨rfl, rfl, rfl⟩

theorem UniInv.killOne (p : Slot) : UniInv (killOne k p) cur fork := by
  have h1 : UniInv (Sched.setProc k p { k.proc p with killed := true }) cur fork := hI.same rfl rfl rfl rfl rfl
  unfold Sched.killOne
  simp only
  split
  · rename_i h
    exact h1.ready (by rw [setProc_proc, if_pos rfl]; exact h)
  · exact h1

theorem UniInv.kkill (pid : Int) : UniInv (kkill k pid) cur fork := by
  unfold Sched.kkill
  split
  · exact hI
  · exact hI.killOne _

theorem UniInv.reparentOne (p pp : Slot) : UniInv (reparentOne p k pp) cur fork := by
  have h1 : UniInv (Sched.setProc k pp { k.proc pp with parent := some initSlot }) cur fork :=
    hI.same rfl rfl rfl rfl rfl
  unfold Sched.reparentOne
  split
  · exact h1.wakeup (some p) (.proc initSlot)
  · exact hI

theorem UniInv.wakeParent (p : Slot) : UniInv (wakeParent k p) cur fork := by
  unfold Sched.wakeParent
  split
  · exact hI
  · exact hI.wakeup _ _

end

section
variable (hI : UniInv k (some p) fork)
include hI

theorem UniInv.leave (hx : x.inRq = false) (hr : x.state ≠ .running) : UniInv (Sched.setProc k p x) none fork := by
  have hcur : (k.proc p).state = .running := (hI.running p).2 rfl
  refine ⟨hI.queue.setProc (hI.queue.not_mem (by simp [hcur])) hx, fun q => ?_,
    hI.forks.keep (fun q hu => ?_), hI.panic⟩
  · rw [setProc_proc]
    simp only [reduceCtorEq, iff_false]
    split
    · exact hr
    · rename_i hne
      intro h
      exact hne (Option.some.inj ((hI.running q).1 h)).symm
  · rw [setProc_proc, if_neg]
    · exact hu
    · rintro rfl
      simp [hcur] at hu

theorem UniInv.inRq_cur : (k.proc p).inRq = false := by
  rw [← Bool.not_eq_true, hI.queue.flags p]
  exact hI.queue.not_mem (by simp [(hI.running p).2 rfl])

theorem UniInv.sleepOn (chan : Chan) : UniInv (sleepOn k p chan) none fork := by
  have hr := (hI.running p).2 rfl
  unfold Sched.sleepOn
  simp only [hr]
  exact hI.leave hI.inRq_cur (by simp)

theorem UniInv.zombify (status : Int) : UniInv (zombify k p status) none fork := by
  have hr := (hI.running p).2 rfl
  unfold Sched.zombify
  simp only [hr]
  exact hI.leave hI.inRq_cur (by simp)

theorem UniInv.kexit (status : Int) : UniInv (kexit k p status) none fork := by
  have h1 : UniInv ((finRange nproc).foldl (Sched.reparentOne p) k) (some p) fork :=
    foldlRecOn (motive := fun k => UniInv k (some p) fork) _ _ hI (fun _ hb pp _ => hb.reparentOne p pp)
  exact (h1.wakeParent p).zombify status

end

theorem UniInv.insert (hI : UniInv k cur fork) (hr : (k.proc p).state = .runnable) : UniInv (rqInsert k p) cur fork := by
  obtain ⟨hq, hpan, -⟩ := hI.queue.insert hr
  exact hI.kern hq (by rw [hpan]; exact hI.panic) (fun q => .inl (rqInsert_state k p q))

theorem UniInv.yield (hI : UniInv k (some p) fork) : UniInv (rqInsert (setState k p .runnable) p) none fork :=
  (hI.leave (x := { k.proc p with state := .runnable }) hI.inRq_cur (by simp)).insert (by rw [setProc_proc, if_pos rfl])

theorem firstUnused_some (h : firstUnused k = some np) : (k.proc np).state = .unused := by
  have := find?_some h
  simpa using this

theorem UniInv.inFork (hI : UniInv k cur fork) (hq : Queue k') (hF : Forks k' f) (hp : k'.panic ≠ some .overflow)
    (hst : ∀ p, (k'.proc p).state = .running ↔ (k.proc p).state = .running) : UniInv k' cur f :=
  ⟨hq, fun p => (hst p).trans (hI.running p), hF, hp⟩

theorem queue_allocproc (hq : Queue k) (hn : np ∉ k.rq) : Queue (allocproc k np) :=
  Queue.setProc ⟨hq.nodup, hq.flags, hq.members, hq.sorted, hq.stamps⟩ hn rfl

section
variable (hI : UniInv k cur fork)
include hI

theorem UniInv.forkChild (mem : Bool) (hu : (k.proc np).state = .unused) :
    UniInv (forkChild k p np mem) cur (update fork p (if mem then some (np, false) else none)) := by
  have hn : np ∉ k.rq := hI.queue.not_mem (by simp [hu])
  have hq : Queue (allocproc k np) := queue_allocproc hI.queue hn
  refine hI.inFork ?_ (hI.forks.child mem hu) ?_ (fun q => ?_)
  · unfold Sched.forkChild
    simp only
    split
    · exact hq.setProc hn (by rw [allocproc, setProc_proc, if_pos rfl])
    · exact hq.setProc hn rfl
  · unfold Sched.forkChild
    simp only
    split <;> exact hI.panic
  · rw [forkChild_state]
    split
    · rename_i e
      cases mem <;> simp [e, hu]
    · rfl

theorem UniInv.forkParent (hf : fork p = some (np, b)) :
    UniInv (forkParent k p np) cur (update fork p (some (np, true))) := by
  have h1 : UniInv (Sched.forkParent k p np) cur fork := hI.same rfl rfl rfl rfl rfl
  exact h1.inFork h1.queue (hI.forks.parent hf) h1.panic (fun _ => Iff.rfl)

theorem UniInv.forkReady (hf : fork p = some (np, b)) : UniInv (forkReady k np) cur (update fork p none) := by
  have hu := hI.forks.used p np b hf
  have hn : np ∉ k.rq := hI.queue.not_mem (by simp [hu])
  obtain ⟨hq, hpan, -⟩ := (hI.queue.setState hn .runnable).insert (by rw [setState_state, if_pos rfl])
  refine hI.inFork hq (hI.forks.ready hf) ?_ (fun q => ?_)
  · rw [Sched.forkReady, hpan]
    exact hI.panic
  rw [forkReady_state]
  split
  · rename_i e
    simp [e, hu]
  · rfl

theorem UniInv.reap {me pp : Slot} (h : reapable k me = some pp) : UniInv (freeproc k pp) cur fork := by
  have hz : (k.proc pp).state = .zombie := by
    have := find?_some h
    simp only [decide_eq_true_eq] at this
    exact this.2
  refine hI.kern (hI.queue.setProc (hI.queue.not_mem (by simp [hz])) rfl) hI.panic (fun q => ?_)
  rw [freeproc, setProc_proc]
  split
  · rename_i e
    simp [e, hz, unusedProc]
  · exact .inl rfl

end

theorem wakeup_ticks (me : Option Slot) (chan : Chan) (k : Kern) : (wakeup me chan k).ticks = k.ticks := by
  refine foldlRecOn (motive := fun k' : Kern => k'.ticks = k.ticks) _ _ rfl (fun k' hk' p _ => ?_)
  unfold wakeOne
  split
  · exact (rqInsert_ticks _ p).trans hk'
  · exact hk'

theorem UniInv.clock (hI : UniInv k cur fork) (hlt : k.ticks < 2 ^ 31) (hlt' : (clockintr cur k).ticks < 2 ^ 31) :
    UniInv (clockintr cur k) cur fork := by
  have hmod : (k.ticks + 1) % 2 ^ 32 = k.ticks + 1 := Nat.mod_eq_of_lt (by omega)
  rw [clockintr, wakeup_ticks, hmod] at hlt'
  have h1 : UniInv { k with ticks := (k.ticks + 1) % 2 ^ 32 } cur fork := by
    refine hI.kern (hI.queue.later ?_) hI.panic (fun _ => .inl rfl)
    rw [hmod, now_of_lt hlt, now_of_lt hlt']
    simp
  exact h1.wakeup cur .ticks

/-! ## The scheduler pass -/

theorem scanOne_keep (t : Int) (k : Kern) (c : Slot) :
    (scanOne t k c).ticks = k.ticks ∧ ∀ q, ((scanOne t k c).proc q).state = (k.proc q).state ∧
      ((scanOne t k c).proc q).startTime = (k.proc q).startTime := by
  unfold scanOne
  split
  · exact ⟨rqInsert_ticks k c, fun q => ⟨rqInsert_state k c q, rqInsert_startTime k c q⟩⟩
  · exact ⟨rfl, fun q => ⟨rfl, rfl⟩⟩

theorem scanOne_eligible (t : Int) (k : Kern) (c p : Slot) : Eligible (scanOne t k c) p ↔ Eligible k p := by
  obtain ⟨h1, h2⟩ := scanOne_keep t k c
  unfold Eligible
  rw [h1, (h2 p).1, (h2 p).2]

theorem UniInv.scanOne (hI : UniInv k cur fork) (ht : k.ticks < 2 ^ 31) (c : Slot) :
    UniInv (scanOne (now k) k c) cur fork ∧ (scanOne (now k) k c).panic = k.panic ∧
    (∀ q ∈ k.rq, q ∈ (scanOne (now k) k c).rq) ∧ (Eligible k c → c ∈ (scanOne (now k) k c).rq) := by
  unfold Sched.scanOne
  split
  · rename_i h
    simp only [activates, Bool.and_eq_true, decide_eq_true_eq] at h
    obtain ⟨-, hpan, hmem⟩ := hI.queue.insert h.1.1
    exact ⟨hI.insert h.1.1, hpan, fun q hq => (hmem q).2 (.inl hq), fun _ => (hmem c).2 (.inr ⟨rfl, h.2⟩)⟩
  rename_i h
  refine ⟨hI, rfl, fun q hq => hq, fun he => ?_⟩
  by_contra hc
  have hf : (k.proc c).inRq = false := by
    rw [← Bool.not_eq_true, hI.queue.flags c]
    exact hc
  refine h ?_
  simp only [activates, hf, now_of_lt ht, Bool.and_eq_true, decide_eq_true_eq, Bool.not_false, and_true]
  exact he

theorem UniInv.scan : ∀ (l : List Slot) (k : Kern), UniInv k cur fork → k.ticks < 2 ^ 31 →
    UniInv (l.foldl (Sched.scanOne (now k)) k) cur fork ∧ (l.foldl (Sched.scanOne (now k)) k).panic = k.panic ∧
    (l.foldl (Sched.scanOne (now k)) k).ticks = k.ticks ∧
    (∀ p, Eligible (l.foldl (Sched.scanOne (now k)) k) p ↔ Eligible k p) ∧
    (∀ q ∈ k.rq, q ∈ (l.foldl (Sched.scanOne (now k)) k).rq) ∧
    (∀ c ∈ l, Eligible k c → c ∈ (l.foldl (Sched.scanOne (now k)) k).rq)
  | [], k, hI, _ => ⟨hI, rfl, rfl, fun _ => Iff.rfl, fun _ hq => hq, nofun⟩
  | c :: l, k, hI, ht => by
    obtain ⟨h1, hpan, hmem, hc⟩ := hI.scanOne ht c
    have htick := (scanOne_keep (now k) k c).1
    have hnow : now (Sched.scanOne (now k) k c) = now k := now_congr htick
    obtain ⟨g1, gpan, gt, ge, gmem, gl⟩ := UniInv.scan l (Sched.scanOne (now k) k c) h1 (by rw [htick]; exact ht)
    rw [hnow] at g1 gpan gt ge gmem gl
    refine ⟨g1, gpan.trans hpan, gt.trans htick, fun p => (ge p).trans (scanOne_eligible _ k c p),
      fun q hq => gmem q (hmem q hq), fun d hd he => ?_⟩
    rcases mem_cons.1 hd with rfl | hd
    · exact gmem d (hc he)
    · exact gl d hd ((scanOne_eligible _ k c d).2 he)

theorem UniInv.activateAll (hI : UniInv k cur fork) (ht : k.ticks < 2 ^ 31) :
    UniInv (activateAll k) cur fork ∧ (activateAll k).panic = k.panic ∧ ∀ p, p ∈ (activateAll k).rq ↔ Eligible k p := by
  obtain ⟨h1, hpan, htick, he, -, hall⟩ := UniInv.scan (finRange nproc) k hI ht
  unfold Sched.activateAll
  refine ⟨h1, hpan, fun p => ⟨fun hm => (he p).1 ?_, fun hp => hall p (mem_finRange p) hp⟩⟩
  have hnow := (now_congr htick).trans (now_of_lt ht)
  have hmem := h1.queue.members p hm
  rw [hnow] at hmem
  exact ⟨hmem.1, by rw [htick]; exact hmem.2⟩

theorem rqDequeue_none (h : rqDequeue k = none) : k.rq = [] := by
  unfold rqDequeue at h
  split at h
  · assumption
  · cases h

theorem UniInv.scheduler (hI : UniInv k none fork) (ht : k.ticks < 2 ^ 31) (hp : k.panic = none) :
    Decision k ∧ UniInv (scheduler k).2 (scheduler k).1 fork := by
  obtain ⟨h1, hpan, hmem⟩ := hI.activateAll ht
  cases hd : rqDequeue (Sched.activateAll k) with
  | none =>
    have hsched : Sched.scheduler k = (none, Sched.activateAll k) := by
      unfold Sched.scheduler
      rw [hd]
    have hnil := rqDequeue_none hd
    refine ⟨⟨hpan.trans hp, h1.queue.nodup, hmem, h1.queue.flags, fun p h => ?_, fun q hq => ?_⟩, ?_⟩
    · rw [hsched] at h
      cases h
    · have := (hmem q).2 hq
      simp [hnil] at this
    · rw [hsched]
      exact h1
  | some r =>
    obtain ⟨p, k1⟩ := r
    obtain ⟨hq1, hn1, hm, hfirst⟩ := h1.queue.dequeue hd
    have hk1 : ∀ q, (k1.proc q).state = ((Sched.activateAll k).proc q).state := by
      intro q
      unfold rqDequeue at hd
      split at hd
      · cases hd
      · cases hd
        by_cases e : q = p
        · simp [e]
        · simp [e]
    have hpan1 : k1.panic = (Sched.activateAll k).panic := by
      unfold rqDequeue at hd
      split at hd
      · cases hd
      · cases hd
        rfl
    have hrun : (k1.proc p).state = .runnable := (hk1 p).trans (h1.queue.members p hm).1
    have hsched : Sched.scheduler k = (some p, Sched.setProc k1 p { k1.proc p with state := .running, chan := none }) := by
      unfold Sched.scheduler
      rw [hd]
      exact if_pos hrun
    have hflag : (k1.proc p).inRq = false := by
      rw [← Bool.not_eq_true, hq1.flags p]
      exact hn1
    refine ⟨⟨hpan.trans hp, h1.queue.nodup, hmem, h1.queue.flags, fun q h => ?_, fun q _ => by rw [hsched]; simp⟩, ?_⟩
    · rw [hsched] at h
      cases h
      exact ⟨(hmem p).1 hm, fun q hq hne => hfirst q ((hmem q).2 hq) hne⟩
    rw [hsched]
    refine ⟨hq1.setProc hn1 hflag, fun q => ?_, h1.forks.keep (fun q hu => ?_), ?_⟩
    · rw [setProc_proc]
      split
      · rename_i e
        simp [e]
      · rename_i e
        rw [hk1, h1.running q]
        simp [Ne.symm e]
    · rw [setProc_proc, if_neg]
      · exact (hk1 q).trans hu
      · rintro rfl
        rw [hk1, hu] at hrun
        cases hrun
    · rw [← hpan1] at hpan
      exact fun e => hI.panic (hpan.symm.trans e)

/-! ## Runs -/

theorem uniInv_call (hI : UniInv s.k (some p) s.fork)
    (h : uniCall s p a = some s') (hc : s.cur = some p) : UniInv s'.k s'.cur s'.fork := by
  unfold uniCall at h
  split at h
  · cases h
    exact hI.yield
  · rename_i np hf
    cases h
    rw [hc]
    exact hI.forkParent hf
  · rename_i np hf
    cases h
    rw [hc]
    exact hI.forkReady hf
  · cases h
  · cases h
    exact hI.sleepOn _
  · cases h
    rw [hc]
    exact hI.kkill _
  · split at h
    · cases h
      rw [hc]
      exact hI
    · rename_i hu
      cases h
      rw [hc]
      exact hI.forkChild _ (firstUnused_some hu)
  · split at h
    · cases h
      rw [hc]
      exact ⟨⟨hI.queue.nodup, hI.queue.flags, hI.queue.members, hI.queue.sorted, hI.queue.stamps⟩, hI.running,
        ⟨hI.forks.used, hI.forks.inj⟩, by simp⟩
    · cases h
      exact hI.kexit _
  · split at h
    · cases h
      rw [hc]
      exact hI
    · rename_i hr
      cases h
      split
      · exact hc ▸ hI.reap hr
      · exact hc ▸ hI
  · cases h
    rw [hc]
    exact hI.setProc (hI.queue.not_mem (by simp [(hI.running p).2 rfl])) hI.inRq_cur rfl
  · cases h

theorem uniInv_step (hI : UniInv s.k s.cur s.fork) (ht : s.k.ticks < 2 ^ 31)
    (h : uniStep s a = some s') (ht' : s'.k.ticks < 2 ^ 31) : UniInv s'.k s'.cur s'.fork := by
  unfold uniStep at h
  split at h
  · cases h
  rename_i hp
  have hp : s.k.panic = none := by simpa using hp
  split at h
  · cases h
    exact hI.clock ht ht'
  · cases h
    exact hI.wakeup _ _
  · rename_i hc
    cases h
    rw [hc] at hI
    exact (hI.scheduler ht hp).2
  · cases h
  · rename_i p _ _ _ hc
    rw [hc] at hI
    exact uniInv_call hI h hc

theorem uniInv_boot : UniInv uniBoot.k uniBoot.cur uniBoot.fork := by
  have h0 : Queue procinit :=
    ⟨nodup_nil, fun p => by simp [procinit, unusedProc], by simp [procinit], List.Pairwise.nil, by simp [procinit]⟩
  have h1 : Queue (allocproc procinit initSlot) := queue_allocproc h0 not_mem_nil
  obtain ⟨h2, h3, -⟩ := (h1.setState (p := initSlot) not_mem_nil .runnable).insert
    (by rw [setState_state, if_pos rfl])
  refine ⟨h2, fun p => ?_, ⟨by simp [uniBoot], by simp [uniBoot]⟩, fun e => ?_⟩
  · rw [show uniBoot.k = boot from rfl, boot, rqInsert_state, setState_state]
    split
    · simp [uniBoot]
    · rename_i hne
      rw [allocproc, setProc_proc, if_neg hne]
      simp [uniBoot, procinit, unusedProc]
  · cases h3.symm.trans e

theorem edf_of_inv (hI : UniInv s.k s.cur s.fork) (ht : s.k.ticks < 2 ^ 31) : Edf s :=
  ⟨hI.panic, fun hc hp => ((hc ▸ hI : UniInv s.k none s.fork).scheduler ht hp).1⟩

/-- **Earliest deadline first.**  In every state of every run in which the clock stays below `2^31`, the ready queue has
not overflowed, and a scheduler pass begun there finds in the queue exactly the runnable processes whose start time has
come and switches to the one with the least deadline, priority and time of insertion, in this order. -/
theorem scheduler_edf (acts : List UniAct)
    (ht : Run.allStates uniStep (fun s => s.k.ticks < 2 ^ 31) uniBoot acts) :
    Run.allStates uniStep Edf uniBoot acts := by
  refine Run.allStates_mono (fun s (h : UniInv s.k s.cur s.fork ∧ s.k.ticks < 2 ^ 31) => edf_of_inv h.1 h.2) acts uniBoot ?_
  exact Run.allStates_of_allStates
    (fun s a s' hI hP h => uniInv_step hI hP h) acts uniBoot uniInv_boot ht

/-- `init` forks a child, which inherits its attributes, takes a later deadline itself and yields: the next pass runs the
child. -/
def yieldToChild : List UniAct :=
  [.schedule, .fork true, .forkParent, .tick, .forkReady, .setSchedAttr 5 0 0, .yield, .schedule]

theorem scheduler_edf_yieldToChild :
    Run.allStates uniStep (fun s => s.k.ticks < 2 ^ 31) uniBoot yieldToChild ∧
    (Run.run uniStep uniBoot yieldToChild).map Uni.cur = some (some ⟨1, by decide⟩) ∧
    Run.allStates uniStep Edf uniBoot yieldToChild :=
  have ht : Run.allStates uniStep (fun s => s.k.ticks < 2 ^ 31) uniBoot yieldToChild := by decide +kernel
  ⟨ht, by decide +kernel, scheduler_edf yieldToChild ht⟩

end Xv6.Sched
