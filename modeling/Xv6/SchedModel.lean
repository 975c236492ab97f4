import Xv6.LibRun
import Xv6.Param
/-!
# SchedModel — the process table and the ready queue of `proc.c`

A process is its slot in `proc[]`. `rq.procs[0..count)` is a list of slots; `rq_insert`, `rq_remove` and `rq_dequeue`
are functions of the shared data `Kern`, each one critical section under `rq_lock`. The parts of `sleep`, `wakeup`,
`kkill`, `kfork`, `kexit` and `kwait` that run under a process's lock are functions of `Kern` as well; which of them run
in one step is up to the modules that use them (`SchedEdf` for one hart, `SchedHarts` for several).

`seq` and `stamp` record the order of insertions; nothing reads them.
-/
namespace Xv6.Sched

open Function

inductive ProcState where
  | unused
  | used
  | sleeping
  | runnable
  | running
  | zombie
  deriving DecidableEq, Repr

/-- Sleep channels: `&ticks`, a `struct proc *`, any other address. -/
inductive Chan where
  | ticks
  | proc (p : Slot)
  | other (n : Nat)
  deriving DecidableEq, Repr

structure Proc where
  state : ProcState
  chan : Option Chan
  killed : Bool
  xstate : Int
  pid : Int
  deadline : Int
  priority : Int
  startTime : Int
  inRq : Bool
  parent : Option Slot
  deriving DecidableEq, Repr

inductive Panic where
  | overflow
  | schedRunning
  | initExiting
  deriving DecidableEq, Repr

structure Kern where
  proc : Slot → Proc
  rq : List Slot
  ticks : Nat
  nextpid : Int
  panic : Option Panic
  seq : Nat
  stamp : Slot → Nat

def now (s : Kern) : Int := if s.ticks < 2 ^ 31 then s.ticks else (s.ticks : Int) - 2 ^ 32

def setProc (s : Kern) (p : Slot) (x : Proc) : Kern := { s with proc := update s.proc p x }

def setState (s : Kern) (p : Slot) (st : ProcState) : Kern := setProc s p { s.proc p with state := st }

/-! ## The ready queue -/

/-- The test of `rq_insert`'s loop: a queued `q` moves up to make room for `p`. -/
def Proc.behind (q p : Proc) : Bool :=
  decide (q.deadline > p.deadline) || (decide (q.deadline = p.deadline) && decide (q.priority > p.priority))

/-- Where the loop of `rq_insert` stops, going down from `i`. -/
def rqPos (s : Kern) (p : Slot) : Nat → Nat
  | 0 => 0
  | i + 1 => if (s.rq[i]?).any (fun q => (s.proc q).behind (s.proc p)) then rqPos s p i else i + 1

def rqInsert (s : Kern) (p : Slot) : Kern :=
  if (s.proc p).inRq then s
  else if (s.proc p).startTime > now s then s
  else if s.rq.length ≥ nproc then { s with panic := some .overflow }
  else
    let i := rqPos s p s.rq.length
    { s with
      rq := s.rq.take i ++ p :: s.rq.drop i
      proc := update s.proc p { s.proc p with inRq := true }
      seq := s.seq + 1
      stamp := update s.stamp p s.seq }

def rqRemove (s : Kern) (p : Slot) : Kern :=
  if p ∈ s.rq then
    { s with rq := s.rq.erase p, proc := update s.proc p { s.proc p with inRq := false } }
  else s

def rqDequeue (s : Kern) : Option (Slot × Kern) :=
  match s.rq with
  | [] => none
  | p :: rest => some (p, { s with rq := rest, proc := update s.proc p { s.proc p with inRq := false } })

/-! ## Processes -/

def wakeOne (me : Option Slot) (chan : Chan) (s : Kern) (p : Slot) : Kern :=
  if me ≠ some p ∧ (s.proc p).state = .sleeping ∧ (s.proc p).chan = some chan then
    rqInsert (setState s p .runnable) p
  else s

def wakeup (me : Option Slot) (chan : Chan) (s : Kern) : Kern := (List.finRange nproc).foldl (wakeOne me chan) s

def killOne (s : Kern) (p : Slot) : Kern :=
  let s1 := setProc s p { s.proc p with killed := true }
  if (s.proc p).state = .sleeping then rqInsert (setState s1 p .runnable) p else s1

def kkill (s : Kern) (pid : Int) : Kern :=
  match (List.finRange nproc).find? (fun p => decide ((s.proc p).pid = pid)) with
  | none => s
  | some p => killOne s p

def clockintr (me : Option Slot) (s : Kern) : Kern := wakeup me .ticks { s with ticks := (s.ticks + 1) % 2 ^ 32 }

def sleepOn (s : Kern) (p : Slot) (chan : Chan) : Kern :=
  let s1 := if (s.proc p).state = .runnable then rqRemove s p else s
  setProc s1 p { s1.proc p with chan := some chan, state := .sleeping }

def unusedProc : Proc := ⟨.unused, none, false, 0, 0, 0, 0, 0, false, none⟩

def freeproc (s : Kern) (p : Slot) : Kern := setProc s p unusedProc

def firstUnused (s : Kern) : Option Slot :=
  (List.finRange nproc).find? (fun p => decide ((s.proc p).state = .unused))

/-- `allocproc` from `found:` on. -/
def allocproc (s : Kern) (p : Slot) : Kern :=
  setProc { s with nextpid := s.nextpid + 1 } p
    { s.proc p with state := .used, pid := s.nextpid, deadline := 0, priority := 0, startTime := 0, inRq := false }

/-- `kfork` up to the release of the child's lock; without memory for the child it is freed again. -/
def forkChild (s : Kern) (me np : Slot) (mem : Bool) : Kern :=
  let s1 := allocproc s np
  if mem then
    setProc s1 np { s1.proc np with deadline := (s1.proc me).deadline, priority := (s1.proc me).priority }
  else freeproc s1 np

/-- `kfork` under `wait_lock`. -/
def forkParent (s : Kern) (me np : Slot) : Kern := setProc s np { s.proc np with parent := some me }

/-- `kfork`'s last section: the child becomes runnable. -/
def forkReady (s : Kern) (np : Slot) : Kern := rqInsert (setState s np .runnable) np

def reparentOne (p : Slot) (s : Kern) (pp : Slot) : Kern :=
  if (s.proc pp).parent = some p then
    wakeup (some p) (.proc initSlot) (setProc s pp { s.proc pp with parent := some initSlot })
  else s

def wakeParent (s : Kern) (p : Slot) : Kern :=
  match (s.proc p).parent with
  | none => s
  | some pp => wakeup (some p) (.proc pp) s

def zombify (s : Kern) (p : Slot) (status : Int) : Kern :=
  let s1 := if (s.proc p).state = .runnable then rqRemove s p else s
  setProc s1 p { s1.proc p with xstate := status, state := .zombie }

/-- The child `kwait` reaps: the first exited one. -/
def reapable (s : Kern) (me : Slot) : Option Slot :=
  (List.finRange nproc).find? (fun pp => decide ((s.proc pp).parent = some me ∧ (s.proc pp).state = .zombie))

def setSchedAttr (s : Kern) (p : Slot) (deadline priority startTime : Int) : Kern :=
  setProc s p { s.proc p with deadline := deadline, priority := priority, startTime := startTime }

/-- One turn of the scheduler's activation loop: the test under the candidate's lock. -/
def activates (s : Kern) (t : Int) (c : Slot) : Bool :=
  decide ((s.proc c).state = .runnable) && !(s.proc c).inRq && decide ((s.proc c).startTime ≤ t)

def procinit : Kern :=
  { proc := fun _ => unusedProc, rq := [], ticks := 0, nextpid := 1, panic := none, seq := 0, stamp := fun _ => 0 }

def boot : Kern := rqInsert (setState (allocproc procinit initSlot) initSlot .runnable) initSlot

variable {p np : Slot}

/-! ## What each does to the processes -/

section
variable (s : Kern)

theorem rqInsert_cases (p : Slot) :
    (rqInsert s p = s ∧ ((s.proc p).inRq = true ∨ (s.proc p).startTime > now s)) ∨
    ((s.proc p).inRq = false ∧ nproc ≤ s.rq.length ∧ rqInsert s p = { s with panic := some .overflow }) ∨
    ((s.proc p).inRq = false ∧ (s.proc p).startTime ≤ now s ∧ s.rq.length < nproc ∧ rqInsert s p = { s with
        rq := s.rq.take (rqPos s p s.rq.length) ++ p :: s.rq.drop (rqPos s p s.rq.length)
        proc := update s.proc p { s.proc p with inRq := true }
        seq := s.seq + 1
        stamp := update s.stamp p s.seq }) := by
  unfold rqInsert
  split
  · rename_i h
    exact .inl ⟨rfl, .inl h⟩
  rename_i h
  have hf : (s.proc p).inRq = false := by simpa using h
  split
  · rename_i ht
    exact .inl ⟨rfl, .inr ht⟩
  split
  · rename_i hl
    exact .inr (.inl ⟨hf, hl, rfl⟩)
  · exact .inr (.inr ⟨hf, by omega, by omega, rfl⟩)

theorem rqInsert_proc (p q : Slot) : (rqInsert s p).proc q = { s.proc q with inRq := ((rqInsert s p).proc q).inRq } := by
  rcases rqInsert_cases s p with ⟨h, -⟩ | ⟨-, -, h⟩ | ⟨-, -, -, h⟩
  · rw [h]
  · rw [h]
  · rw [h]
    by_cases hq : q = p
    · subst hq; simp
    · simp [hq]

@[simp] theorem rqInsert_state (p q : Slot) : ((rqInsert s p).proc q).state = (s.proc q).state := by
  rw [rqInsert_proc]

@[simp] theorem rqInsert_startTime (p q : Slot) : ((rqInsert s p).proc q).startTime = (s.proc q).startTime := by
  rw [rqInsert_proc]

theorem rqInsert_ticks (p : Slot) : (rqInsert s p).ticks = s.ticks := by
  rcases rqInsert_cases s p with ⟨h, -⟩ | ⟨-, -, h⟩ | ⟨-, -, -, h⟩ <;> rw [h]

theorem rqRemove_proc (p q : Slot) : (rqRemove s p).proc q = { s.proc q with inRq := ((rqRemove s p).proc q).inRq } := by
  unfold rqRemove
  split
  · by_cases hq : q = p
    · subst hq; simp
    · simp [hq]
  · rfl

@[simp] theorem rqRemove_state (p q : Slot) : ((rqRemove s p).proc q).state = (s.proc q).state := by
  rw [rqRemove_proc]

theorem setProc_proc (p q : Slot) (x : Proc) : (setProc s p x).proc q = if q = p then x else s.proc q := by
  by_cases h : q = p
  · subst h; simp [setProc]
  · simp [setProc, h]

theorem setState_state (p q : Slot) (st : ProcState) :
    ((setState s p st).proc q).state = if q = p then st else (s.proc q).state := by
  unfold setState
  rw [setProc_proc]
  split <;> rfl

end

theorem wakeOne_state (me : Option Slot) (chan : Chan) (s : Kern) (p q : Slot) :
    ((wakeOne me chan s p).proc q).state = (s.proc q).state ∨
    (q = p ∧ (s.proc q).state = .sleeping ∧ ((wakeOne me chan s p).proc q).state = .runnable) := by
  unfold wakeOne
  split
  · rename_i h
    rw [rqInsert_state, setState_state]
    by_cases hq : q = p
    · subst hq
      exact .inr ⟨rfl, h.2.1, if_pos rfl⟩
    · exact .inl (if_neg hq)
  · exact .inl rfl

theorem killOne_state (s : Kern) (p q : Slot) : ((killOne s p).proc q).state = (s.proc q).state ∨
    (q = p ∧ (s.proc q).state = .sleeping ∧ ((killOne s p).proc q).state = .runnable) := by
  unfold killOne
  simp only
  split
  · rename_i h
    rw [rqInsert_state, setState_state]
    by_cases hq : q = p
    · subst hq
      exact .inr ⟨rfl, h, if_pos rfl⟩
    · rw [if_neg hq, setProc_proc, if_neg hq]
      exact .inl rfl
  · rw [setProc_proc]
    split
    · rename_i hq
      subst hq
      exact .inl rfl
    · exact .inl rfl

theorem forkChild_state (s : Kern) (me np q : Slot) (mem : Bool) :
    ((forkChild s me np mem).proc q).state = if q = np then (if mem then .used else .unused) else (s.proc q).state := by
  unfold forkChild
  cases mem with
  | true =>
    by_cases e : q = np
    · simp [e, allocproc, setProc_proc]
    · simp [e, allocproc, setProc_proc]
  | false =>
    simp only [Bool.false_eq_true, if_false, freeproc, setProc_proc]
    by_cases e : q = np
    · simp [e, unusedProc]
    · simp [e, allocproc, setProc_proc]

/-! ## Processes inside `kfork` -/

/-- `fork p` is the child that `p`, inside `kfork`, has made and not yet released to run, and whether it has its parent:
such a child is `USED` and belongs to one process. -/
structure Forks (k : Kern) (fork : Slot → Option (Slot × Bool)) : Prop where
  used : ∀ p np b, fork p = some (np, b) → (k.proc np).state = .used
  inj : ∀ p q np b b', fork p = some (np, b) → fork q = some (np, b') → p = q

variable {k k' : Kern} {fork : Slot → Option (Slot × Bool)} {b : Bool}

section
variable (hF : Forks k fork)
include hF

theorem Forks.keep (hk : ∀ q, (k.proc q).state = .used → (k'.proc q).state = .used) : Forks k' fork :=
  ⟨fun p np b hf => hk np (hF.used p np b hf), hF.inj⟩

theorem Forks.set {f : Option (Slot × Bool)}
    (hf : ∀ np b, f = some (np, b) → (k.proc np).state = .used ∧ ∀ q b', q ≠ p → fork q ≠ some (np, b')) :
    Forks k (update fork p f) := by
  refine ⟨fun q np b hq => ?_, fun q q' np b b' hq hq' => ?_⟩
  · by_cases e : q = p
    · subst e
      exact (hf np b (by simpa using hq)).1
    · exact hF.used q np b (by simpa [e] using hq)
  · by_cases e : q = p <;> by_cases e' : q' = p
    · rw [e, e']
    · subst e
      exact absurd (by simpa [e'] using hq') ((hf np b (by simpa using hq)).2 q' b' e')
    · subst e'
      exact absurd (by simpa [e] using hq) ((hf np b' (by simpa using hq')).2 q b e)
    · exact hF.inj q q' np b b' (by simpa [e] using hq) (by simpa [e'] using hq')

theorem Forks.parent (hf : fork p = some (np, b)) : Forks (forkParent k p np) (update fork p (some (np, true))) := by
  have h1 : Forks (forkParent k p np) fork := by
    refine hF.keep (fun q hq => ?_)
    rw [forkParent, setProc_proc]
    split
    · rename_i e
      rw [← e]
      exact hq
    · exact hq
  refine h1.set (fun np' b' e => ?_)
  cases e
  exact ⟨h1.used p np b hf, fun q b' hq hq' => hq (hF.inj q p np b' b hq' hf)⟩

theorem Forks.child (mem : Bool) (hu : (k.proc np).state = .unused) :
    Forks (forkChild k p np mem) (update fork p (if mem then some (np, false) else none)) := by
  have h1 : Forks (forkChild k p np mem) fork := by
    refine hF.keep (fun q hq => ?_)
    rw [forkChild_state, if_neg]
    · exact hq
    · rintro rfl
      simp [hu] at hq
  refine h1.set (fun np' b e => ?_)
  cases mem with
  | false => simp at e
  | true =>
    cases e
    refine ⟨by simp only [forkChild_state, if_pos], fun q b' _ hq => ?_⟩
    have := hF.used q np b' hq
    simp [hu] at this

end

theorem forkReady_state (s : Kern) (np q : Slot) :
    ((forkReady s np).proc q).state = if q = np then .runnable else (s.proc q).state := by
  rw [forkReady, rqInsert_state, setState_state]

theorem Forks.ready (hF : Forks k fork) (hf : fork p = some (np, b)) : Forks (forkReady k np) (update fork p none) := by
  have h1 : Forks k (update fork p none) := hF.set (fun _ _ e => by cases e)
  refine ⟨fun q np' b' hq => ?_, h1.inj⟩
  have hne : q ≠ p := by
    rintro rfl
    simp at hq
  rw [forkReady_state, if_neg]
  · exact h1.used q np' b' hq
  · rintro rfl
    exact hne (hF.inj q p np' b' b (by simpa [hne] using hq) hf)

end Xv6.Sched
