import Xv6.SchedModel
/-!
# LifeModel — processes from `fork` to `wait`, and the kernel's mutexes

Every process runs its own kernel thread; a step is one critical section of one of them. A section under a process's
lock that is over before another lock is let go is one step; where `sleep` and `kexit` give one lock up inside the
section of another, each of the two is a step of its own and `held` says whose `p->lock` is taken. The loops of
`wakeup`, `reparent`, `kkill` and `kwait` go through the table one step a slot. The scheduler may switch to any
runnable process.

The fields of `St` from `hist` on record what has happened; no step reads them.
-/
namespace Xv6.Life

open Function Sched

def nmutex : Nat := 64

abbrev Mid := Fin nmutex

/-- `struct mutex`, its spinlock apart. -/
structure Mutex where
  used : Bool
  locked : Bool
  owner : Option Slot
  deriving DecidableEq, Repr

/-- The locks a process sleeps with: `wait_lock`, a mutex's spinlock. -/
inductive Lk where
  | wait
  | mtx (m : Mid)
  deriving DecidableEq, Repr

/-- What `p` sleeps on with it: itself in `kwait`, the mutex in `sys_mtx_lock`. -/
def Lk.chan (p : Slot) : Lk → Chan
  | .wait => .proc p
  | .mtx m => .other m

/-- Where a process's thread is. -/
inductive Pc where
  | user
  | lockAcquire (m : Mid)
  | sleepLock (l : Lk)
  | sleepRelease (l : Lk)
  | sleepSwitch (l : Lk)
  | asleep (l : Lk)
  | relock (l : Lk)
  | unlockWake (m : Mid) (i : Nat)
  | forkParent (np : Slot)
  | forkReady (np : Slot)
  | kill (pid : Int) (i : Nat)
  | exitAcquire (status : Int)
  | reparent (status : Int) (i : Nat)
  | reparentWake (status : Int) (i j : Nat)
  | exitWake (status : Int) (parent : Slot) (j : Nat)
  | exitZombie (status : Int)
  | exitRelease
  | exitSwitch
  | waitAcquire
  | waitScan (i : Nat) (havekids : Bool)
  deriving DecidableEq, Repr

/-- What is known of a process by its birth number: who made it, what it passed to `exit`, whether it has become a
zombie. -/
structure Record where
  creator : Nat
  status : Option Int
  zombie : Bool
  deriving DecidableEq, Repr

/-- A `kwait` that returned a child. -/
structure Reap where
  child : Nat
  reaper : Nat
  pid : Int
  status : Int
  deriving DecidableEq, Repr

/-- The history of the processes: whose turn each slot has, by birth number. -/
structure Hist where
  uid : Slot → Nat
  births : Nat
  life : Nat → Record
  reaps : List Reap

structure St where
  k : Kern
  pc : Slot → Pc
  held : Slot → Bool
  waitLock : Option Slot
  mtx : Mid → Mutex
  spin : Mid → Option Slot
  hist : Hist
  /-- the process that acquired each mutex, by birth number -/
  acquired : Mid → Nat
  /-- the process that last returned from `mtx_lock`, or created the mutex locked -/
  last : Mid → Option Slot
  /-- the processes between that return and their `mtx_unlock` -/
  inside : Mid → List Slot

inductive Call where
  | create (locked : Bool)
  | lock (id : Int)
  | unlock (id : Int)
  | fork (np : Slot) (mem : Bool)
  | kill (pid : Int)
  | setkilled
  | exit (status : Int)
  | wait
  deriving DecidableEq, Repr

/-- Actions: a process enters the kernel, its thread takes its next step (`fail`: a `copyout` of that step fails), a
scheduler switches to it. -/
inductive Act where
  | start (p : Slot) (c : Call)
  | advance (p : Slot) (fail : Bool)
  | dispatch (p : Slot)
  deriving DecidableEq, Repr

/-! ## Parts of a step -/

def goto (s : St) (p : Slot) (c : Pc) : St := { s with pc := update s.pc p c }

def withKern (s : St) (k : Kern) : St := { s with k := k }

def holding (s : St) (p : Slot) (b : Bool) : St := { s with held := update s.held p b }

def setSpin (s : St) (m : Mid) (o : Option Slot) : St := { s with spin := update s.spin m o }

def setWait (s : St) (o : Option Slot) : St := { s with waitLock := o }

def setMutex (s : St) (m : Mid) (x : Mutex) : St := { s with mtx := update s.mtx m x }

def release (s : St) : Lk → St
  | .wait => setWait s none
  | .mtx m => setSpin s m none

def mutexOf (id : Int) : Option Mid :=
  if h : 0 ≤ id ∧ id < nmutex then some ⟨id.toNat, by omega⟩ else none

def firstFree (s : St) : Option Mid := (List.finRange nmutex).find? (fun m => !(s.mtx m).used)

def noteOwner (s : St) (p : Slot) (m : Mid) : St :=
  { s with
    acquired := update s.acquired m (s.hist.uid p)
    last := update s.last m (some p)
    inside := update s.inside m (p :: s.inside m) }

def sysMtxCreate (s : St) (p : Slot) (locked : Bool) : St :=
  match firstFree s with
  | none => s
  | some m =>
    if locked then noteOwner (setMutex s m ⟨true, true, some p⟩) p m
    else setMutex s m ⟨true, false, none⟩

/-- `sys_mtx_lock` with the mutex's spinlock just taken: the test of the loop, and what follows it. -/
def lockTest (s : St) (p : Slot) (m : Mid) : St :=
  if (s.mtx m).locked then goto (setSpin s m (some p)) p (.sleepLock (.mtx m))
  else goto (noteOwner (setMutex s m { s.mtx m with locked := true, owner := some p }) p m) p .user

/-- `sys_mtx_unlock` up to its `wakeup`. -/
def sysMtxUnlock (s : St) (p : Slot) (m : Mid) : Option St :=
  if (s.spin m).isSome then none
  else if !(s.mtx m).used || !(s.mtx m).locked then some s
  else
    some (goto { setSpin (setMutex s m { s.mtx m with locked := false, owner := none }) m (some p) with
      inside := update s.inside m ((s.inside m).erase p) } p (.unlockWake m 0))

/-- A process is born in slot `np`. -/
def Hist.born (g : Hist) (p np : Slot) : Hist :=
  { g with
    uid := update g.uid np g.births
    births := g.births + 1
    life := update g.life g.births ⟨g.uid p, none, false⟩ }

def Hist.exits (g : Hist) (p : Slot) (status : Int) : Hist :=
  { g with life := update g.life (g.uid p) { g.life (g.uid p) with status := some status } }

def Hist.dies (g : Hist) (p : Slot) : Hist :=
  { g with life := update g.life (g.uid p) { g.life (g.uid p) with zombie := true } }

def Hist.reap (g : Hist) (p pp : Slot) (x : Proc) : Hist :=
  { g with reaps := ⟨g.uid pp, g.uid p, x.pid, x.xstate⟩ :: g.reaps }

/-- The scheduler's section under the lock of the process it switches to, and the end of that process's `sleep`. -/
def resume (k : Kern) (p : Slot) : Kern :=
  let k1 := rqRemove k p
  setProc k1 p { k1.proc p with state := .running, chan := none }

/-! ## The steps -/

def start (s : St) (p : Slot) : Call → Option St
  | .create locked => some (sysMtxCreate s p locked)
  | .lock id =>
    match mutexOf id with
    | none => some s
    | some m => some (if (s.mtx m).used then goto s p (.lockAcquire m) else s)
  | .unlock id =>
    match mutexOf id with
    | none => some s
    | some m => sysMtxUnlock s p m
  | .fork np mem =>
    if (s.k.proc np).state = .unused ∧ s.held np = false then
      some (goto (goto { withKern s (Sched.forkChild s.k p np mem) with hist := s.hist.born p np } np .user) p
        (if mem then .forkParent np else .user))
    else none
  | .kill pid => some (goto s p (.kill pid 0))
  | .setkilled => some (withKern s (setProc s.k p { s.k.proc p with killed := true }))
  | .exit status =>
    if p = initSlot then some (withKern s { s.k with panic := some .initExiting })
    else some (goto { s with hist := s.hist.exits p status } p (.exitAcquire status))
  | .wait => some (goto s p .waitAcquire)

/-- A turn of a `wakeup` loop: slot `i` is looked at under its lock, `p`'s own is left out. -/
def wakeTurn (s : St) (p : Slot) (chan : Chan) (i : Slot) (next : Pc) : Option St :=
  if i ≠ p ∧ s.held i = true then none else some (goto (withKern s (wakeOne (some p) chan s.k i)) p next)

def advance (s : St) (p : Slot) (fail : Bool) : Option St :=
  match s.pc p with
  | .user | .asleep _ => none
  | .lockAcquire m => if (s.spin m).isSome then none else some (lockTest s p m)
  -- sleep
  | .sleepLock l => if s.held p then none else some (goto (holding s p true) p (.sleepRelease l))
  | .sleepRelease l => some (goto (release s l) p (.sleepSwitch l))
  | .sleepSwitch l => some (goto (holding (withKern s (sleepOn s.k p (l.chan p))) p false) p (.asleep l))
  | .relock .wait => if s.waitLock.isSome then none else some (goto (setWait s (some p)) p (.waitScan 0 false))
  | .relock (.mtx m) => if (s.spin m).isSome then none else some (lockTest s p m)
  -- sys_mtx_unlock
  | .unlockWake m i =>
    if hi : i < nproc then wakeTurn s p (.other m) ⟨i, hi⟩ (.unlockWake m (i + 1))
    else some (goto (setSpin s m none) p .user)
  -- kfork
  | .forkParent np =>
    if s.waitLock.isSome then none else some (goto (withKern s (Sched.forkParent s.k p np)) p (.forkReady np))
  | .forkReady np => if s.held np then none else some (goto (withKern s (Sched.forkReady s.k np)) p .user)
  -- kkill
  | .kill pid i =>
    if hi : i < nproc then
      if s.held ⟨i, hi⟩ then none
      else if (s.k.proc ⟨i, hi⟩).pid = pid then some (goto (withKern s (killOne s.k ⟨i, hi⟩)) p .user)
      else some (goto s p (.kill pid (i + 1)))
    else some (goto s p .user)
  -- kexit
  | .exitAcquire status =>
    if s.waitLock.isSome then none else some (goto (setWait s (some p)) p (.reparent status 0))
  | .reparent status i =>
    if hi : i < nproc then
      if (s.k.proc ⟨i, hi⟩).parent = some p then
        some (goto (withKern s (setProc s.k ⟨i, hi⟩ { s.k.proc ⟨i, hi⟩ with parent := some initSlot })) p
          (.reparentWake status i 0))
      else some (goto s p (.reparent status (i + 1)))
    else
      match (s.k.proc p).parent with
      | none => some (goto s p (.exitZombie status))
      | some q => some (goto s p (.exitWake status q 0))
  | .reparentWake status i j =>
    if hj : j < nproc then wakeTurn s p (.proc initSlot) ⟨j, hj⟩ (.reparentWake status i (j + 1))
    else some (goto s p (.reparent status (i + 1)))
  | .exitWake status q j =>
    if hj : j < nproc then wakeTurn s p (.proc q) ⟨j, hj⟩ (.exitWake status q (j + 1))
    else some (goto s p (.exitZombie status))
  | .exitZombie status =>
    if s.held p then none
    else
      some (goto (holding { withKern s (zombify s.k p status) with hist := s.hist.dies p } p true) p .exitRelease)
  | .exitRelease => some (goto (setWait s none) p .exitSwitch)
  | .exitSwitch => some (goto (holding s p false) p .user)
  -- kwait
  | .waitAcquire => if s.waitLock.isSome then none else some (goto (setWait s (some p)) p (.waitScan 0 false))
  | .waitScan i havekids =>
    if hi : i < nproc then
      if (s.k.proc ⟨i, hi⟩).parent = some p then
        if s.held ⟨i, hi⟩ then none
        else if (s.k.proc ⟨i, hi⟩).state = .zombie then
          if fail then some (goto (setWait s none) p .user)
          else
            some (goto (setWait { withKern s (freeproc s.k ⟨i, hi⟩) with
              hist := s.hist.reap p ⟨i, hi⟩ (s.k.proc ⟨i, hi⟩) } none) p .user)
        else some (goto s p (.waitScan (i + 1) true))
      else some (goto s p (.waitScan (i + 1) havekids))
    else if !havekids || (s.k.proc p).killed then some (goto (setWait s none) p .user)
    else some (goto s p (.sleepLock .wait))

def dispatch (s : St) (p : Slot) : Option St :=
  if (s.k.proc p).state = .runnable ∧ s.held p = false then
    some (goto (withKern s (resume s.k p)) p (match s.pc p with | .asleep l => .relock l | c => c))
  else none

def step (s : St) (a : Act) : Option St :=
  if s.k.panic.isSome then none
  else
    match a with
    | .start p c => if (s.k.proc p).state = .running ∧ s.pc p = .user then start s p c else none
    | .advance p fail => advance s p fail
    | .dispatch p => dispatch s p

/-- `userinit` has made `init`, the process of birth number 0. -/
def lifeBoot : St where
  k := Sched.boot
  pc _ := .user
  held _ := false
  waitLock := none
  mtx _ := ⟨false, false, none⟩
  spin _ := none
  hist := { uid := fun _ => 0, births := 1, life := fun _ => ⟨0, none, false⟩, reaps := [] }
  acquired _ := 0
  last _ := none
  inside _ := []

/-! ## What a section does to the processes, the ready queue apart -/

/-- The part of `struct proc` these sections write. -/
structure Core where
  state : ProcState
  chan : Option Chan
  killed : Bool
  xstate : Int
  pid : Int
  parent : Option Slot
  deriving DecidableEq, Repr

def cores (k : Kern) (p : Slot) : Core :=
  let x := k.proc p
  ⟨x.state, x.chan, x.killed, x.xstate, x.pid, x.parent⟩

def unusedCore : Core := ⟨.unused, none, false, 0, 0, none⟩

@[simp] theorem cores_rqInsert (k : Kern) (p : Slot) : cores (rqInsert k p) = cores k := by
  funext q
  simp only [cores]
  rw [rqInsert_proc]

@[simp] theorem cores_rqRemove (k : Kern) (p : Slot) : cores (rqRemove k p) = cores k := by
  funext q
  simp only [cores]
  rw [rqRemove_proc]

theorem cores_setProc (k : Kern) (p : Slot) (x : Proc) :
    cores (setProc k p x) = update (cores k) p ⟨x.state, x.chan, x.killed, x.xstate, x.pid, x.parent⟩ := by
  funext q
  by_cases h : q = p
  · subst h
    simp [cores, setProc]
  · simp [cores, setProc, h]

theorem cores_setState (k : Kern) (p : Slot) (st : ProcState) :
    cores (setState k p st) = update (cores k) p { cores k p with state := st } := cores_setProc k p _

theorem cores_wakeOne (me : Option Slot) (chan : Chan) (k : Kern) (p : Slot) : cores (wakeOne me chan k p) = cores k ∨
    (me ≠ some p ∧ (cores k p).state = .sleeping ∧ (cores k p).chan = some chan ∧
      cores (wakeOne me chan k p) = update (cores k) p { cores k p with state := .runnable }) := by
  unfold wakeOne
  split
  · rename_i h
    rw [cores_rqInsert, cores_setState]
    exact .inr ⟨h.1, h.2.1, h.2.2, rfl⟩
  · exact .inl rfl

section
variable (k : Kern)

theorem cores_killOne (p : Slot) :
    cores (killOne k p) = update (cores k) p { cores k p with
      killed := true, state := if (cores k p).state = .sleeping then .runnable else (cores k p).state } := by
  unfold killOne
  simp only
  split
  · rename_i h
    rw [cores_rqInsert, cores_setState, cores_setProc]
    simp [cores, h]
  · rename_i h
    rw [cores_setProc]
    simp [cores, h]

theorem cores_sleepOn (p : Slot) (chan : Chan) :
    cores (sleepOn k p chan) = update (cores k) p { cores k p with chan := some chan, state := .sleeping } := by
  have h : cores (if (k.proc p).state = .runnable then rqRemove k p else k) = cores k := by
    split <;> simp
  unfold sleepOn
  simp only
  rw [cores_setProc, h, ← h]
  rfl

theorem cores_resume (p : Slot) :
    cores (resume k p) = update (cores k) p { cores k p with state := .running, chan := none } := by
  unfold resume
  simp only
  rw [cores_setProc, cores_rqRemove, ← cores_rqRemove k p]
  rfl

theorem cores_forkChild (me np : Slot) (mem : Bool) : cores (Sched.forkChild k me np mem) = update (cores k) np
      (if mem then { cores k np with state := .used, pid := k.nextpid } else unusedCore) := by
  have h : cores { k with nextpid := k.nextpid + 1 } = cores k := rfl
  unfold Sched.forkChild
  cases mem with
  | true =>
    simp only [if_true]
    rw [cores_setProc, allocproc, cores_setProc, h, update_idem]
    simp [cores, setProc]
  | false =>
    simp only [Bool.false_eq_true, if_false]
    rw [freeproc, cores_setProc, allocproc, cores_setProc, h, update_idem]
    rfl

theorem cores_zombify (p : Slot) (status : Int) :
    cores (zombify k p status) = update (cores k) p { cores k p with xstate := status, state := .zombie } := by
  have h : cores (if (k.proc p).state = .runnable then rqRemove k p else k) = cores k := by
    split <;> simp
  unfold zombify
  simp only
  rw [cores_setProc, h, ← h]
  rfl

theorem cores_freeproc (p : Slot) : cores (freeproc k p) = update (cores k) p unusedCore := cores_setProc k p _

theorem cores_forkReady (np : Slot) :
    cores (Sched.forkReady k np) = update (cores k) np { cores k np with state := .runnable } := by
  rw [Sched.forkReady, cores_rqInsert, cores_setState]

theorem cores_forkParent (me np : Slot) :
    cores (Sched.forkParent k me np) = update (cores k) np { cores k np with parent := some me } :=
  cores_setProc k np _

end

/-! ## What a step does to the processes -/

/-- A process of the state, the ready queue apart. -/
abbrev St.at (s : St) (p : Slot) : Core := cores s.k p

/-- **The steps, by what they do to the processes and their history**: the processes after the step and the history. -/
inductive Effect (s : St) : Act → (Slot → Core) → Hist → Prop
  | quiet (a : Act) : Effect s a (cores s.k) s.hist
  | wake (p : Slot) (fail : Bool) (i : Slot) : i ≠ p → (s.at i).state = .sleeping →
      Effect s (.advance p fail) (update (cores s.k) i { s.at i with state := .runnable }) s.hist
  | kill (p : Slot) (fail : Bool) (pid : Int) (i : Slot) : s.pc p = .kill pid i → (s.at i).pid = pid →
      Effect s (.advance p fail) (update (cores s.k) i { s.at i with
        killed := true, state := if (s.at i).state = .sleeping then .runnable else (s.at i).state }) s.hist
  | setkilled (p : Slot) : (s.at p).state = .running →
      Effect s (.start p .setkilled) (update (cores s.k) p { s.at p with killed := true }) s.hist
  | sleep (p : Slot) (fail : Bool) (l : Lk) : s.pc p = .sleepSwitch l →
      Effect s (.advance p fail)
        (update (cores s.k) p { s.at p with chan := some (l.chan p), state := .sleeping }) s.hist
  | dispatch (p : Slot) : (s.at p).state = .runnable →
      Effect s (.dispatch p) (update (cores s.k) p { s.at p with state := .running, chan := none }) s.hist
  | fork (p np : Slot) (mem : Bool) : (s.at p).state = .running → (s.at np).state = .unused →
      Effect s (.start p (.fork np mem)) (update (cores s.k) np
        (if mem then { s.at np with state := .used, pid := s.k.nextpid } else unusedCore)) (s.hist.born p np)
  | parent (p : Slot) (fail : Bool) (np : Slot) : s.pc p = .forkParent np →
      Effect s (.advance p fail) (update (cores s.k) np { s.at np with parent := some p }) s.hist
  | ready (p : Slot) (fail : Bool) (np : Slot) : s.pc p = .forkReady np →
      Effect s (.advance p fail) (update (cores s.k) np { s.at np with state := .runnable }) s.hist
  | exit (p : Slot) (status : Int) : p ≠ initSlot → (s.at p).state = .running →
      Effect s (.start p (.exit status)) (cores s.k) (s.hist.exits p status)
  | adopt (p : Slot) (fail : Bool) (status : Int) (pp : Slot) :
      s.pc p = .reparent status pp → (s.at pp).parent = some p →
      Effect s (.advance p fail) (update (cores s.k) pp { s.at pp with parent := some initSlot }) s.hist
  | zombie (p : Slot) (fail : Bool) (status : Int) : s.pc p = .exitZombie status →
      Effect s (.advance p fail)
        (update (cores s.k) p { s.at p with xstate := status, state := .zombie }) (s.hist.dies p)
  | reap (p : Slot) (kids : Bool) (pp : Slot) :
      s.pc p = .waitScan pp kids → (s.at pp).parent = some p → s.held pp = false → (s.at pp).state = .zombie →
      Effect s (.advance p false) (update (cores s.k) pp unusedCore) (s.hist.reap p pp (s.k.proc pp))

variable {s s' : St} {p i : Slot}

theorem wakeTurn_effect {chan : Chan} {next : Pc} (fail : Bool)
    (hs : wakeTurn s p chan i next = some s') : Effect s (.advance p fail) (cores s'.k) s'.hist := by
  unfold wakeTurn at hs
  split at hs
  · cases hs
  cases hs
  rcases cores_wakeOne (some p) chan s.k i with h | ⟨hne, hsl, -, h⟩
  · simp only [goto, withKern, h]
    exact .quiet _
  · simp only [goto, withKern, h]
    exact .wake p fail i (fun e => hne (by rw [e])) hsl

theorem create_effect (s : St) (p : Slot) (locked : Bool) (a : Act) :
    Effect s a (cores (sysMtxCreate s p locked).k) (sysMtxCreate s p locked).hist := by
  unfold sysMtxCreate
  split
  · exact .quiet a
  · split <;> exact .quiet a

theorem lockTest_effect (s : St) (p : Slot) (m : Mid) (a : Act) :
    Effect s a (cores (lockTest s p m).k) (lockTest s p m).hist := by
  unfold lockTest
  split <;> exact .quiet a

theorem unlock_effect {m : Mid} (a : Act) (hs : sysMtxUnlock s p m = some s') : Effect s a (cores s'.k) s'.hist := by
  unfold sysMtxUnlock at hs
  split at hs
  · cases hs
  · split at hs <;> cases hs <;> exact .quiet a

theorem start_effect {c : Call} (hr : (s.at p).state = .running)
    (hs : start s p c = some s') : Effect s (.start p c) (cores s'.k) s'.hist := by
  unfold start at hs
  split at hs
  · cases hs
    exact create_effect s p _ _
  · split at hs
    · cases hs
      exact .quiet _
    · cases hs
      split <;> exact .quiet _
  · split at hs
    · cases hs
      exact .quiet _
    · exact unlock_effect _ hs
  · rename_i np mem
    split at hs
    · rename_i h
      cases hs
      simp only [goto, withKern, cores_forkChild]
      exact .fork p np mem hr h.1
    · cases hs
  · cases hs
    exact .quiet _
  · cases hs
    simp only [withKern, cores_setProc]
    exact .setkilled p hr
  · split at hs
    · cases hs
      exact .quiet _
    · rename_i h
      cases hs
      exact .exit p _ h hr
  · cases hs
    exact .quiet _

theorem advance_effect {fail : Bool} (hs : advance s p fail = some s') :
    Effect s (.advance p fail) (cores s'.k) s'.hist := by
  unfold advance at hs
  split at hs
  · cases hs
  · cases hs
  · split at hs <;> cases hs
    exact lockTest_effect s p _ _
  · split at hs <;> cases hs
    exact .quiet _
  · cases hs
    rename_i l _
    cases l <;> exact .quiet _
  · rename_i l hpc
    cases hs
    simp only [goto, holding, withKern, cores_sleepOn]
    exact .sleep p fail l hpc
  · split at hs <;> cases hs
    exact .quiet _
  · split at hs <;> cases hs
    exact lockTest_effect s p _ _
  · split at hs
    · exact wakeTurn_effect fail hs
    · cases hs
      exact .quiet _
  · rename_i np hpc
    split at hs <;> cases hs
    simp only [goto, withKern, cores_forkParent]
    exact .parent p fail np hpc
  · rename_i np hpc
    split at hs <;> cases hs
    simp only [goto, withKern, cores_forkReady]
    exact .ready p fail np hpc
  · rename_i pid i hpc
    split at hs
    · rename_i hi
      split at hs
      · cases hs
      split at hs
      · rename_i hpid
        cases hs
        simp only [goto, withKern, cores_killOne]
        exact .kill p fail pid ⟨i, hi⟩ hpc hpid
      · cases hs
        exact .quiet _
    · cases hs
      exact .quiet _
  · split at hs <;> cases hs
    exact .quiet _
  · rename_i status i hpc
    split at hs
    · rename_i hi
      split at hs
      · rename_i hpar
        cases hs
        simp only [goto, withKern, cores_setProc]
        exact .adopt p fail status ⟨i, hi⟩ hpc hpar
      · cases hs
        exact .quiet _
    · split at hs <;> cases hs <;> exact .quiet _
  · split at hs
    · exact wakeTurn_effect fail hs
    · cases hs
      exact .quiet _
  · split at hs
    · exact wakeTurn_effect fail hs
    · cases hs
      exact .quiet _
  · rename_i status hpc
    split at hs <;> cases hs
    simp only [goto, holding, withKern, cores_zombify]
    exact .zombie p fail status hpc
  · cases hs
    exact .quiet _
  · cases hs
    exact .quiet _
  · split at hs <;> cases hs
    exact .quiet _
  rename_i i kids hpc
  split at hs
  · rename_i hi
    split at hs
    · rename_i hpar
      split at hs
      · cases hs
      rename_i hheld
      split at hs
      · rename_i hz
        split at hs
        · cases hs
          exact .quiet _
        rename_i hf
        cases hs
        obtain rfl : fail = false := by simpa using hf
        simp only [goto, setWait, withKern, cores_freeproc]
        exact .reap p kids ⟨i, hi⟩ hpc hpar (by simpa using hheld) hz
      · cases hs
        exact .quiet _
    · cases hs
      exact .quiet _
  · split at hs <;> cases hs <;> exact .quiet _

theorem step_effect {a : Act} (hs : step s a = some s') : Effect s a (cores s'.k) s'.hist := by
  unfold step at hs
  split at hs
  · cases hs
  split at hs
  · split at hs
    · rename_i h
      exact start_effect h.1 hs
    · cases hs
  · exact advance_effect hs
  unfold dispatch at hs
  split at hs
  · rename_i h
    cases hs
    simp only [goto, withKern, cores_resume]
    exact .dispatch _ h.1
  · cases hs

end Xv6.Life
