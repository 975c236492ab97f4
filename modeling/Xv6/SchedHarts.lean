import Xv6.SchedModel
/-!
# SchedHarts — the scheduler on several harts

`n` harts run `scheduler` or a process's kernel thread; a step is one critical section on one of them. `sched` is
reached with `p->lock` held and the lock is given up by the scheduler the switch returns to, so `sleep` and `kexit`
change the state and save the context in one section. `yield` does not: it marks the process runnable in one section,
queues it in a second and switches in a third. `saved` says of a process that its context has been saved since it last
ran, `early` that a scheduler has switched to one whose context was not.

No process is current on two harts exactly as long as no scheduler finds a process between the sections of its `yield`
(`singleHart_iff_awaitsSwitch`).
-/
namespace Xv6.Sched

open Function

/-- Where a hart is: in its scheduler, or in the kernel thread of a process. -/
inductive Loc where
  | sched
  | scan (i : Nat) (t : Int)
  | scanInsert (c : Slot) (t : Int)
  | picked (p : Slot)
  | run (p : Slot)
  | marked (p : Slot)
  | queued (p : Slot)
  deriving DecidableEq, Repr

def Loc.current : Loc → Option Slot
  | .run p | .marked p | .queued p => some p
  | _ => none

structure Smp (n : Nat) where
  k : Kern
  loc : Fin n → Loc
  fork : Slot → Option (Slot × Bool)
  saved : Slot → Bool
  early : Bool

/-- The sections a running process may enter. -/
inductive Call where
  | yield
  | sleep (chan : Chan)
  | kill (pid : Int) (p : Slot)
  | forkChild (np : Slot) (mem : Bool)
  | forkParent
  | forkReady
  | setSchedAttr (deadline priority startTime : Int)
  | reparent (pp : Slot)
  | exit (status : Int)
  | reap (pp : Slot)
  deriving DecidableEq, Repr

/-- Actions: the hart's own next section, a section of the process it runs, a turn of a `wakeup` loop called by its
process or by an interrupt, and the clock. -/
inductive SmpAct (n : Nat) where
  | advance (h : Fin n)
  | call (h : Fin n) (c : Call)
  | wake (h : Fin n) (chan : Chan) (p : Slot)
  | tick
  deriving DecidableEq, Repr

variable {n : Nat}

def goto (s : Smp n) (h : Fin n) (l : Loc) : Smp n := { s with loc := update s.loc h l }

def withKern (s : Smp n) (k : Kern) : Smp n := { s with k := k }

/-- The scheduler's section under the lock of the process it dequeued, and the switch to it. -/
def dispatch (s : Smp n) (h : Fin n) (p : Slot) : Smp n :=
  if (s.k.proc p).state = .runnable then
    goto { s with
      k := setProc s.k p { s.k.proc p with state := .running, chan := none }
      saved := update s.saved p false
      early := s.early || !(s.saved p) } h (.run p)
  else goto s h .sched

def swtch (s : Smp n) (h : Fin n) (p : Slot) : Smp n :=
  goto { s with saved := update s.saved p true } h .sched

/-- The sections a hart enters without a choice: the scheduler's, and `yield`'s second and third. -/
def advanceHart (s : Smp n) (h : Fin n) : Option (Smp n) :=
  match s.loc h with
  | .sched => some (goto s h (.scan 0 (now s.k)))
  | .scan i t =>
    if hi : i < nproc then
      some (goto s h (if activates s.k t ⟨i, hi⟩ then .scanInsert ⟨i, hi⟩ t else .scan (i + 1) t))
    else
      match rqDequeue s.k with
      | none => some (goto s h .sched)
      | some (p, k) => some (goto (withKern s k) h (.picked p))
  | .scanInsert c t => some (goto (withKern s (rqInsert s.k c)) h (.scan (c + 1) t))
  | .picked p => some (dispatch s h p)
  | .run _ => none
  | .marked p => some (goto (withKern s (rqInsert s.k p)) h (.queued p))
  | .queued p =>
    if (s.k.proc p).state = .running then some (withKern s { s.k with panic := some .schedRunning })
    else some (swtch s h p)

/-- A section of process `p`, which hart `h` runs. A thread inside `kfork` goes on with `kfork` or is made to yield. -/
def callOf (s : Smp n) (h : Fin n) (p : Slot) (c : Call) : Option (Smp n) :=
  match s.fork p, c with
  | _, .yield => some (goto (withKern s (setState s.k p .runnable)) h (.marked p))
  | some (np, false), .forkParent =>
    some { withKern s (forkParent s.k p np) with fork := update s.fork p (some (np, true)) }
  | some (np, true), .forkReady =>
    some { withKern s (forkReady s.k np) with fork := update s.fork p none }
  | some _, _ => none
  | none, .sleep chan => some (swtch (withKern s (sleepOn s.k p chan)) h p)
  | none, .kill pid q => some (if (s.k.proc q).pid = pid then withKern s (killOne s.k q) else s)
  | none, .forkChild np mem =>
    if (s.k.proc np).state = .unused then
      some { withKern s (forkChild s.k p np mem) with
        fork := update s.fork p (if mem then some (np, false) else none) }
    else none
  | none, .setSchedAttr d pr st => some (withKern s (setSchedAttr s.k p d pr st))
  | none, .reparent pp =>
    if (s.k.proc pp).parent = some p then
      some (withKern s (setProc s.k pp { s.k.proc pp with parent := some initSlot }))
    else none
  | none, .exit status =>
    if p = initSlot then some (withKern s { s.k with panic := some .initExiting })
    else some (swtch (withKern s (zombify s.k p status)) h p)
  | none, .reap pp =>
    if (s.k.proc pp).parent = some p ∧ (s.k.proc pp).state = .zombie then some (withKern s (freeproc s.k pp)) else none
  | none, .forkParent | none, .forkReady => none

def smpStep (s : Smp n) (a : SmpAct n) : Option (Smp n) :=
  if s.k.panic.isSome then none
  else
    match a with
    | .advance h => advanceHart s h
    | .call h c =>
      match s.loc h with
      | .run p => callOf s h p c
      | _ => none
    | .wake h chan p =>
      match s.loc h with
      | .run me => some (withKern s (wakeOne (some me) chan s.k p))
      | .sched => some (withKern s (wakeOne none chan s.k p))
      | _ => none
    | .tick => some (withKern s { s.k with ticks := (s.k.ticks + 1) % 2 ^ 32 })

def smpBoot (n : Nat) : Smp n :=
  { k := boot, loc := fun _ => .sched, fork := fun _ => none, saved := fun _ => true, early := false }

/-- **What the process locks are for**: every switch has gone to a saved context, no process is current on two harts,
and `sched` has not met a running process. -/
def SingleHart (s : Smp n) : Prop :=
  s.early = false ∧ s.k.panic ≠ some .schedRunning ∧
  ∀ h h' p, (s.loc h).current = some p → (s.loc h').current = some p → h = h'

/-- **The scheduler does not find a process between the sections of its `yield`**: when it is about to switch to a
process it found runnable, no hart is between marking that process runnable and switching away from it. -/
def awaitsSwitch (s : Smp n) : SmpAct n → Prop
  | .advance h =>
    match s.loc h with
    | .picked p =>
      s.k.panic = none → (s.k.proc p).state = .runnable → ∀ h', s.loc h' ≠ .marked p ∧ s.loc h' ≠ .queued p
    | _ => True
  | _ => True

/-! ## The invariant -/

structure SmpInv (s : Smp n) : Prop where
  running : ∀ h p, s.loc h = .run p → (s.k.proc p).state = .running
  window : ∀ h p, s.loc h = .marked p ∨ s.loc h = .queued p → (s.k.proc p).state = .runnable
  unique : ∀ h h' p, (s.loc h).current = some p → (s.loc h').current = some p → h = h'
  unsaved : ∀ p, s.saved p = false ↔ ∃ h, (s.loc h).current = some p
  forks : Forks s.k s.fork
  early : s.early = false
  panic : s.k.panic ≠ some .schedRunning

@[simp] theorem current_sched : Loc.sched.current = none := rfl

@[simp] theorem current_run (p : Slot) : (Loc.run p).current = some p := rfl

variable {p q : Slot} {h : Fin n} {k : Kern} {l : Loc} {s s' : Smp n} {a : SmpAct n}

theorem current_some (h : l.current = some p) : l = .run p ∨ l = .marked p ∨ l = .queued p := by
  cases l <;> simp_all [Loc.current]

@[simp] theorem goto_loc (s : Smp n) (h h' : Fin n) (l : Loc) : (goto s h l).loc h' = if h' = h then l else s.loc h' := by
  by_cases e : h' = h
  · subst e; simp [goto]
  · simp [goto, e]

section
variable (hI : SmpInv s)
include hI

theorem SmpInv.state_current (hc : (s.loc h).current = some p) :
    (s.k.proc p).state = .running ∨ (s.k.proc p).state = .runnable := by
  rcases current_some hc with h1 | h1 | h1
  · exact .inl (hI.running h p h1)
  · exact .inr (hI.window h p (.inl h1))
  · exact .inr (hI.window h p (.inr h1))

theorem SmpInv.kern
    (hkeep : ∀ q, (s.k.proc q).state = .running ∨ (s.k.proc q).state = .runnable ∨ (s.k.proc q).state = .used →
      (k.proc q).state = (s.k.proc q).state) (hp : k.panic ≠ some .schedRunning) : SmpInv (withKern s k) where
  running h p hl := by
    have := hI.running h p hl
    exact (hkeep p (.inl this)).trans this
  window h p hl := by
    have := hI.window h p hl
    exact (hkeep p (.inr (.inl this))).trans this
  unique := hI.unique
  unsaved := hI.unsaved
  forks := hI.forks.keep (fun q hq => (hkeep q (.inr (.inr hq))).trans hq)
  early := hI.early
  panic := hp

/-- **One hart moves.**  The others keep their processes' states; the process it arrives with is current nowhere else,
and the contexts not saved are those of the processes current afterwards. -/
theorem SmpInv.move {saved : Slot → Bool}
    (hkeep : ∀ h' q, h' ≠ h → (s.loc h').current = some q → (k.proc q).state = (s.k.proc q).state)
    (hrun : ∀ p, l = .run p → (k.proc p).state = .running)
    (hwin : ∀ p, l = .marked p ∨ l = .queued p → (k.proc p).state = .runnable)
    (hnew : ∀ h' p, h' ≠ h → l.current = some p → (s.loc h').current ≠ some p)
    (hsaved : ∀ p, saved p = false ↔ l.current = some p ∨ ∃ h', h' ≠ h ∧ (s.loc h').current = some p)
    (hfork : ∀ q, (s.k.proc q).state = .used → (k.proc q).state = .used)
    (hp : k.panic ≠ some .schedRunning) : SmpInv (goto { s with k := k, saved := saved } h l) := by
  refine ⟨fun h' p hl => ?_, fun h' p hl => ?_, fun a b p ha hb => ?_, fun p => ?_, hI.forks.keep hfork, hI.early, hp⟩
  · rw [goto_loc] at hl
    split at hl
    · exact hrun p hl
    · rename_i hne
      exact (hkeep h' p hne (by rw [hl]; rfl)).trans (hI.running h' p hl)
  · rw [goto_loc] at hl
    split at hl
    · exact hwin p hl
    · rename_i hne
      exact (hkeep h' p hne (by rcases hl with e | e <;> rw [e] <;> rfl)).trans (hI.window h' p hl)
  · rw [goto_loc] at ha hb
    split at ha <;> split at hb <;> rename_i ea eb
    · rw [ea, eb]
    · exact absurd hb (hnew b p eb ha)
    · exact absurd ha (hnew a p ea hb)
    · exact hI.unique a b p ha hb
  · refine (hsaved p).trans ⟨?_, ?_⟩
    · rintro (hl | ⟨h', hne, hc⟩)
      · exact ⟨h, by rw [goto_loc, if_pos rfl]; exact hl⟩
      · exact ⟨h', by rw [goto_loc, if_neg hne]; exact hc⟩
    · rintro ⟨h', hc⟩
      rw [goto_loc] at hc
      split at hc
      · exact .inl hc
      · rename_i hne
        exact .inr ⟨h', hne, hc⟩

theorem SmpInv.unsaved_at (h : Fin n) (p : Slot) :
    s.saved p = false ↔ (s.loc h).current = some p ∨ ∃ h', h' ≠ h ∧ (s.loc h').current = some p := by
  rw [hI.unsaved]
  constructor
  · rintro ⟨h', hc⟩
    by_cases e : h' = h
    · exact .inl (e ▸ hc)
    · exact .inr ⟨h', e, hc⟩
  · rintro (hc | ⟨h', -, hc⟩)
    · exact ⟨h, hc⟩
    · exact ⟨h', hc⟩

theorem SmpInv.idle (h0 : (s.loc h).current = none) (h1 : l.current = none) : SmpInv (goto s h l) := by
  refine hI.move (fun _ _ _ _ => rfl) (fun p e => ?_) (fun p e => ?_) (fun _ p _ hc => ?_) (fun p => ?_) (fun _ => id)
    hI.panic
  · simp [e, Loc.current] at h1
  · rcases e with e | e <;> simp [e, Loc.current] at h1
  · simp [h1] at hc
  · rw [hI.unsaved_at h p, h0, h1]

theorem SmpInv.mark (hl : s.loc h = .run p) : SmpInv (goto (withKern s (setState s.k p .runnable)) h (.marked p)) := by
  have h0 : (s.loc h).current = some p := by rw [hl]; rfl
  have hother : ∀ h' q, h' ≠ h → (s.loc h').current = some q → q ≠ p := by
    rintro h' q hne hc rfl
    exact hne (hI.unique h' h q hc h0)
  refine hI.move (fun h' q hne hc => ?_) nofun (fun q e => ?_) (fun h' q hne hc hc' => ?_) (fun q => ?_)
    (fun q hu => ?_) hI.panic
  · rw [setState_state, if_neg (hother h' q hne hc)]
  · obtain rfl : p = q := by rcases e with e | e <;> cases e; rfl
    rw [setState_state, if_pos rfl]
  · cases hc
    exact hother h' p hne hc' rfl
  · exact (hI.unsaved_at h q).trans (by rw [h0]; rfl)
  have hne : q ≠ p := by
    rintro rfl
    simp [hI.running h q hl] at hu
  rw [setState_state, if_neg hne]
  exact hu

theorem SmpInv.queue (hl : s.loc h = .marked p) : SmpInv (goto s h (.queued p)) := by
  have h0 : (s.loc h).current = some p := by rw [hl]; rfl
  refine hI.move (fun _ _ _ _ => rfl) nofun (fun q e => ?_) (fun h' q hne e hc => ?_) (fun q => ?_)
    (fun _ => id) hI.panic
  · obtain rfl : p = q := by rcases e with e | e <;> cases e; rfl
    exact hI.window h p (.inl hl)
  · cases e
    exact hne (hI.unique h' h p hc h0)
  · exact (hI.unsaved_at h q).trans (by rw [h0]; rfl)

theorem SmpInv.leave (h0 : (s.loc h).current = some p)
    (hkeep : ∀ q, q ≠ p → (k.proc q).state = (s.k.proc q).state) (hp : k.panic ≠ some .schedRunning) :
    SmpInv (swtch (withKern s k) h p) := by
  have hother : ∀ h' q, h' ≠ h → (s.loc h').current = some q → q ≠ p := by
    rintro h' q hne hc rfl
    exact hne (hI.unique h' h q hc h0)
  refine hI.move (fun h' q hne hc => hkeep q (hother h' q hne hc)) nofun nofun nofun (fun q => ?_)
    (fun q hu => ?_) hp
  · by_cases e : q = p
    · subst e
      simp only [withKern, update_self, current_sched, reduceCtorEq, false_or, false_iff, not_exists, not_and]
      exact fun h' hne hc => hother h' q hne hc rfl
    · simp only [withKern, update_of_ne e, current_sched, reduceCtorEq, false_or]
      rw [hI.unsaved_at h q, h0]
      simp [Ne.symm e]
  · have hne : q ≠ p := by
      rintro rfl
      rcases hI.state_current h0 with h2 | h2 <;> simp [hu] at h2
    exact (hkeep q hne).trans hu

theorem SmpInv.enter (h0 : (s.loc h).current = none)
    (hst : (s.k.proc p).state = .runnable) (hs : s.saved p = true) : SmpInv (dispatch s h p) := by
  have hother : ∀ h' q, (s.loc h').current = some q → q ≠ p := by
    rintro h' q hc rfl
    simp [(hI.unsaved q).2 ⟨h', hc⟩] at hs
  have hstate : ∀ q, q ≠ p →
      ((setProc s.k p { s.k.proc p with state := .running, chan := none }).proc q).state = (s.k.proc q).state :=
    fun q hq => by rw [setProc_proc, if_neg hq]
  rw [dispatch, if_pos hst, hs, hI.early]
  refine SmpInv.move (s := { s with early := false || !true }) ⟨hI.running, hI.window, hI.unique, hI.unsaved, hI.forks,
    rfl, hI.panic⟩ (fun h' q _ hc => hstate q (hother h' q hc)) (fun q e => ?_) nofun
    (fun h' q _ e hc => ?_) (fun q => ?_) (fun q hu => ?_) hI.panic
  · cases e
    rw [setProc_proc, if_pos rfl]
  · cases e
    exact hother h' p hc rfl
  · by_cases e : q = p
    · subst e
      simp
    · rw [update_of_ne e, hI.unsaved_at h q, h0]
      simp [Ne.symm e]
  · have hne : q ≠ p := by
      rintro rfl
      exact absurd (hst.symm.trans hu) (by simp)
    exact (hstate q hne).trans hu

end

/-! ## The sections -/

theorem rqInsert_panic (s : Kern) (p : Slot) (h : s.panic ≠ some .schedRunning) :
    (rqInsert s p).panic ≠ some .schedRunning := by
  rcases rqInsert_cases s p with ⟨e, -⟩ | ⟨-, -, e⟩ | ⟨-, -, -, e⟩ <;> rw [e]
  · exact h
  · simp
  · exact h

theorem SmpInv.insert (hI : SmpInv s) (p : Slot) : SmpInv (withKern s (rqInsert s.k p)) :=
  hI.kern (fun q _ => rqInsert_state s.k p q) (rqInsert_panic s.k p hI.panic)

theorem SmpInv.awaken (hI : SmpInv s) (hp : k.panic ≠ some .schedRunning)
    (hk : ∀ q, (k.proc q).state = (s.k.proc q).state ∨ ((s.k.proc q).state = .sleeping ∧ (k.proc q).state = .runnable)) :
    SmpInv (withKern s k) := by
  refine hI.kern (fun q hq => ?_) hp
  rcases hk q with h | ⟨h, -⟩
  · exact h
  · simp [h] at hq

theorem wakeOne_panic (me : Option Slot) (chan : Chan) (s : Kern) (p : Slot) (h : s.panic ≠ some .schedRunning) :
    (wakeOne me chan s p).panic ≠ some .schedRunning := by
  unfold wakeOne
  split
  · exact rqInsert_panic _ p h
  · exact h

theorem killOne_panic (s : Kern) (p : Slot) (h : s.panic ≠ some .schedRunning) :
    (killOne s p).panic ≠ some .schedRunning := by
  unfold killOne
  simp only
  split
  · exact rqInsert_panic _ p h
  · exact h

theorem SmpInv.wake (hI : SmpInv s) (me : Option Slot) (chan : Chan) (p : Slot) :
    SmpInv (withKern s (wakeOne me chan s.k p)) :=
  hI.awaken (wakeOne_panic me chan s.k p hI.panic) (fun q => (wakeOne_state me chan s.k p q).imp_right And.right)

theorem SmpInv.set (hI : SmpInv s) {x : Proc} (hx : x.state = (s.k.proc p).state) :
    SmpInv (withKern s (setProc s.k p x)) := by
  refine hI.kern (fun q _ => ?_) hI.panic
  rw [setProc_proc]
  split
  · rename_i e
    rw [e, hx]
  · rfl

theorem remove_set_state (s : Kern) (x : Kern → Proc) (h : q ≠ p) :
    ((setProc (if (s.proc p).state = .runnable then rqRemove s p else s) p
      (x (if (s.proc p).state = .runnable then rqRemove s p else s))).proc q).state = (s.proc q).state := by
  rw [setProc_proc, if_neg h]
  split
  · exact rqRemove_state s p q
  · rfl

theorem rqRemove_panic (s : Kern) (p : Slot) : (rqRemove s p).panic = s.panic := by
  unfold rqRemove
  split <;> rfl

theorem remove_panic (s : Kern) (p : Slot) :
    (if (s.proc p).state = .runnable then rqRemove s p else s).panic = s.panic := by
  split
  · exact rqRemove_panic s p
  · rfl

section
variable (hI : SmpInv s)
include hI

theorem SmpInv.fork {f : Slot → Option (Slot × Bool)} (hF : Forks k f)
    (hst : ∀ q, (s.k.proc q).state = .running ∨ (s.k.proc q).state = .runnable → (k.proc q).state = (s.k.proc q).state)
    (hp : k.panic ≠ some .schedRunning) : SmpInv { withKern s k with fork := f } := by
  refine ⟨fun h q hl => ?_, fun h q hl => ?_, hI.unique, hI.unsaved, hF, hI.early, hp⟩
  · have := hI.running h q hl
    exact (hst q (.inl this)).trans this
  · have := hI.window h q hl
    exact (hst q (.inr this)).trans this

theorem SmpInv.call {c : Call} (hl : s.loc h = .run p) (hs : callOf s h p c = some s') : SmpInv s' := by
  have hc : (s.loc h).current = some p := by rw [hl]; rfl
  unfold callOf at hs
  split at hs
  · cases hs
    exact hI.mark hl
  · rename_i np hf
    cases hs
    refine hI.fork (hI.forks.parent hf) (fun q _ => ?_) hI.panic
    rw [forkParent, setProc_proc]
    split
    · rename_i e
      rw [e]
    · rfl
  · rename_i np hf
    cases hs
    refine hI.fork (hI.forks.ready hf) (fun q hq => ?_) (rqInsert_panic _ np hI.panic)
    rw [forkReady_state, if_neg]
    rintro rfl
    simp [hI.forks.used p q true hf] at hq
  · cases hs
  · rename_i chan _
    cases hs
    refine hI.leave hc (fun q hq => ?_) ?_
    · exact remove_set_state s.k (fun k => { k.proc p with chan := some chan, state := .sleeping }) hq
    · exact fun e => hI.panic ((remove_panic s.k p).symm.trans e)
  · cases hs
    split
    · rename_i q _ _
      exact hI.awaken (killOne_panic s.k q hI.panic) (fun r => (killOne_state s.k q r).imp_right And.right)
    · exact hI
  · split at hs
    · rename_i np mem _ hu
      cases hs
      refine hI.fork (hI.forks.child mem hu) (fun q hq => ?_) ?_
      · rw [forkChild_state, if_neg]
        rintro rfl
        simp [hu] at hq
      · unfold forkChild
        split <;> exact hI.panic
    · cases hs
  · cases hs
    exact hI.set rfl
  · split at hs
    · cases hs
      exact hI.set rfl
    · cases hs
  · rename_i status _
    split at hs
    · cases hs
      exact hI.kern (fun _ _ => rfl) (by simp)
    · cases hs
      refine hI.leave hc (fun q hq => ?_) ?_
      · exact remove_set_state s.k (fun k => { k.proc p with xstate := status, state := .zombie }) hq
      · exact fun e => hI.panic ((remove_panic s.k p).symm.trans e)
  · rename_i pp _
    split at hs
    · rename_i hz
      cases hs
      refine hI.kern (fun q hq => ?_) hI.panic
      have hne : q ≠ pp := by
        rintro rfl
        simp [hz.2] at hq
      rw [freeproc, setProc_proc, if_neg hne]
    · cases hs
  · cases hs
  · cases hs

theorem SmpInv.dequeue (hd : rqDequeue s.k = some (p, k)) : SmpInv (withKern s k) := by
  unfold rqDequeue at hd
  split at hd
  · cases hd
  cases hd
  refine hI.kern (fun q _ => ?_) hI.panic
  by_cases e : q = p
  · simp [e]
  · simp [e]

theorem SmpInv.advance (hp : s.k.panic = none) (hok : awaitsSwitch s (.advance h))
    (hs : advanceHart s h = some s') : SmpInv s' := by
  unfold advanceHart at hs
  split at hs
  · rename_i hl
    cases hs
    exact hI.idle (by rw [hl]; rfl) rfl
  · rename_i i t hl
    have hc : (s.loc h).current = none := by rw [hl]; rfl
    split at hs
    · cases hs
      refine hI.idle hc ?_
      split <;> rfl
    · split at hs
      · cases hs
        exact hI.idle hc rfl
      · rename_i hd
        cases hs
        exact (hI.dequeue hd).idle hc rfl
  · rename_i c t hl
    cases hs
    exact (hI.insert c).idle (by rw [show (withKern s (rqInsert s.k c)).loc h = _ from hl]; rfl) rfl
  · rename_i p hl
    have hc : (s.loc h).current = none := by rw [hl]; rfl
    cases hs
    by_cases hst : (s.k.proc p).state = .runnable
    · -- an unsaved runnable process would be inside its yield
      have hs : s.saved p = true := by
        rw [← Bool.not_eq_false, hI.unsaved p]
        rintro ⟨h', hc'⟩
        simp only [awaitsSwitch, hl] at hok
        rcases current_some hc' with e | e | e
        · have := hI.running h' p e
          simp [hst] at this
        · exact (hok hp hst h').1 e
        · exact (hok hp hst h').2 e
      exact hI.enter hc hst hs
    · rw [dispatch, if_neg hst]
      exact hI.idle hc rfl
  · cases hs
  · rename_i p hl
    cases hs
    exact (hI.insert p).queue hl
  · rename_i p hl
    have hst := hI.window h p (.inr hl)
    rw [if_neg (by simp [hst])] at hs
    cases hs
    exact hI.leave (k := s.k) (by rw [hl]; rfl) (fun _ _ => rfl) hI.panic

theorem smpInv_step (hok : awaitsSwitch s a) (hs : smpStep s a = some s') : SmpInv s' := by
  unfold smpStep at hs
  split at hs
  · cases hs
  rename_i hp
  split at hs
  · exact hI.advance (by simpa using hp) hok hs
  · split at hs
    · rename_i hl
      exact hI.call hl hs
    · cases hs
  · split at hs
    · cases hs
      exact hI.wake _ _ _
    · cases hs
      exact hI.wake _ _ _
    · cases hs
  · cases hs
    exact hI.kern (fun _ _ => rfl) hI.panic

end

theorem boot_panic : boot.panic = none := by decide

theorem smpInv_boot (n : Nat) : SmpInv (smpBoot n) where
  running h p hl := by cases hl
  window h p hl := by rcases hl with hl | hl <;> cases hl
  unique h h' p hc := by cases hc
  unsaved p := by simp [smpBoot]
  forks := ⟨nofun, nofun⟩
  early := rfl
  panic := by simp [smpBoot, boot_panic]

theorem smpInv_singleHart (hI : SmpInv s) : SingleHart s := ⟨hI.early, hI.panic, hI.unique⟩

theorem dispatch_early (hI : SmpInv s) (hn : ¬ awaitsSwitch s a) : ∃ s', smpStep s a = some s' ∧ ¬ SingleHart s' := by
  cases a with
  | advance h =>
    cases hl : s.loc h with
    | picked p =>
      simp only [awaitsSwitch, hl, Classical.not_imp, not_forall] at hn
      obtain ⟨hp, hst, h', hn⟩ := hn
      have hc : (s.loc h').current = some p := by
        by_contra hne
        refine hn ⟨fun e => hne ?_, fun e => hne ?_⟩ <;> rw [e] <;> rfl
      have hs : s.saved p = false := (hI.unsaved p).2 ⟨h', hc⟩
      refine ⟨dispatch s h p, by simp [smpStep, hp, advanceHart, hl], fun hS => ?_⟩
      have := hS.1
      rw [dispatch, if_pos hst] at this
      simp [goto, hs] at this
    | _ => simp [awaitsSwitch, hl] at hn
  | _ => simp [awaitsSwitch] at hn

/-- **No process runs on two harts, exactly as long as no scheduler finds one inside its `yield`.**  On any number of
harts and for any interleaving of the sections: every switch goes to a saved context, no process is current on two harts
and `sched` does not panic, in every state of the run, if and only if every switch of the run waits for the process's
own. -/
theorem singleHart_iff_awaitsSwitch (n : Nat) (acts : List (SmpAct n)) :
    Run.allStates smpStep SingleHart (smpBoot n) acts ↔ Run.allSteps smpStep awaitsSwitch (smpBoot n) acts := by
  constructor
  · intro hP
    exact Run.allSteps_of_allStates (fun s a s' hI hok h => smpInv_step hI hok h)
      (fun s a hI _ _ hn => dispatch_early hI hn) acts _ (smpInv_boot n) (Run.allSteps_true acts _) hP
  · intro hok
    refine Run.allStates_mono (fun _ => smpInv_singleHart) acts _ ?_
    exact Run.allStates_of_allSteps (fun s a s' hI hok h => smpInv_step hI hok h) acts _ (smpInv_boot n) hok

/-- A scheduler pass of hart `h` over a table in which nothing is to be activated, up to the switch. -/
def passOf (h : Fin n) : List (SmpAct n) := List.replicate 67 (.advance h)

section

local instance twoHarts : NeZero 2 := ⟨by decide⟩

/-- Hart 0 runs `init`, which yields; hart 1 finds it in the queue and switches to it before hart 0 has switched away,
and hart 0's `yield` goes on. -/
def stolenYield : List (SmpAct 2) :=
  passOf 0 ++ [.call 0 .yield, .advance 0] ++ passOf 1 ++ [.advance 0]

end

/-- **Two harts run one process**: its `yield` has let go of the lock, hart 1 has switched to it with no context saved
since, and hart 0's `sched` panics. -/
theorem yield_runs_on_two_harts :
    (Run.run smpStep (smpBoot 2) stolenYield).map (fun s => (s.early, (s.loc 0).current, (s.loc 1).current, s.k.panic)) =
      some (true, some initSlot, some initSlot, some .schedRunning) ∧
    ¬ Run.allStates smpStep SingleHart (smpBoot 2) stolenYield := by
  have hlast : (Run.run smpStep (smpBoot 2) stolenYield).map
      (fun s => (s.early, (s.loc 0).current, (s.loc 1).current, s.k.panic)) =
      some (true, some initSlot, some initSlot, some .schedRunning) := by decide +kernel
  refine ⟨hlast, fun h => ?_⟩
  obtain ⟨t, ht, he⟩ := Option.map_eq_some_iff.1 hlast
  have hearly := (Run.allStates_last stolenYield _ t h ht).1
  simp [hearly] at he

end Xv6.Sched
