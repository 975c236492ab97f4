import Xv6.LifeModel
/-!
# LifeRun — what every run of `fork`, `exit`, `kill` and `wait` keeps

Each thread's own part of the invariant is what holds where it is (`Fits`); a step of one thread leaves the others what
they rely on (`Rely`). The rest is about the table: every parent is alive and every process but `init` has one
(`Forest`), the birth numbers name the slots (`Names`), and a parent is the creator or, once the creator has handed its
children over, `init` (`Made`).
-/
namespace Xv6.Life

open Function Sched

/-- The stations of a slot; `sched` moves a process about in one of them. -/
inductive Phase where
  | unused
  | used
  | alive
  | zombie
  deriving DecidableEq, Repr

def phaseOf : ProcState → Phase
  | .unused => .unused
  | .used => .used
  | .zombie => .zombie
  | .sleeping | .runnable | .running => .alive

def Core.phase (x : Core) : Phase := phaseOf x.state

variable {x : Core} {s s' s1 : St} {q p i np pp r : Slot} {c c' : Slot → Core} {a : Act}

theorem Core.phase_unused : x.phase = .unused ↔ x.state = .unused := by
  cases h : x.state <;> simp [Core.phase, phaseOf, h]

theorem Core.phase_used : x.phase = .used ↔ x.state = .used := by cases h : x.state <;> simp [Core.phase, phaseOf, h]

theorem Core.phase_zombie : x.phase = .zombie ↔ x.state = .zombie := by
  cases h : x.state <;> simp [Core.phase, phaseOf, h]

theorem Core.phase_of_running (h : x.state = .running) : x.phase = .alive := by simp [Core.phase, phaseOf, h]

/-- The child of a `kfork` that is under way. -/
def Pc.child : Pc → Option Slot
  | .forkParent np | .forkReady np => some np
  | _ => none

/-- `kexit` between taking `wait_lock` and becoming a zombie. -/
def Pc.hands : Pc → Bool
  | .reparent _ _ | .reparentWake _ _ _ | .exitWake _ _ _ | .exitZombie _ => true
  | _ => false

def Hist.creator (g : Hist) (p : Slot) : Nat := (g.life (g.uid p)).creator

def Hist.status (g : Hist) (p : Slot) : Option Int := (g.life (g.uid p)).status

/-! ## A thread's own part -/

def Exiting (s : St) (p : Slot) (status : Int) : Prop :=
  (s.at p).state = .running ∧ p ≠ initSlot ∧ s.hist.status p = some status

/-- **What holds where a thread is.** -/
def Fits (s : St) (p : Slot) : Pc → Prop
  | .user | .asleep _ => True
  | .sleepLock l | .sleepRelease l => (s.at p).state = .running ∧ (l = .wait → s.waitLock = some p)
  | .forkParent np =>
    (s.at p).state = .running ∧ (s.at np).state = .used ∧ (s.at np).parent = none ∧ s.hist.creator np = s.hist.uid p
  | .forkReady np => (s.at p).state = .running ∧ (s.at np).state = .used ∧ (s.at np).parent = some p
  | .exitAcquire status => Exiting s p status
  | .reparent status i =>
    Exiting s p status ∧ s.waitLock = some p ∧ ∀ q : Slot, q.val < i → (s.at q).parent ≠ some p
  | .reparentWake status i _ =>
    Exiting s p status ∧ s.waitLock = some p ∧ ∀ q : Slot, q.val < i + 1 → (s.at q).parent ≠ some p
  | .exitWake status _ _ | .exitZombie status =>
    Exiting s p status ∧ s.waitLock = some p ∧ ∀ q : Slot, (s.at q).parent ≠ some p
  | .exitRelease => (s.at p).state = .zombie ∧ s.held p = true ∧ s.waitLock = some p
  | .exitSwitch => (s.at p).state = .zombie ∧ s.held p = true
  | .waitScan _ _ => (s.at p).state = .running ∧ s.waitLock = some p
  | _ => (s.at p).state = .running

/-- **What a thread relies on**: the steps of the others leave it running, or a zombie under its lock, with the locks
and the child it has, and give it no children. -/
structure Rely (s s' : St) (q : Slot) (c : Pc) : Prop where
  running : (s.at q).state = .running → (s'.at q).state = .running
  zombie : (s.at q).state = .zombie → s.held q = true → (s'.at q).state = .zombie ∧ s'.held q = true
  wait : s.waitLock = some q → s'.waitLock = some q
  child : ∀ np, c.child = some np → (s.at np).state = .used →
    (s'.at np).state = .used ∧ (s'.at np).parent = (s.at np).parent ∧ s'.hist.creator np = s.hist.creator np
  parent : q ≠ initSlot → ∀ x, (s.at x).parent ≠ some q → (s'.at x).parent ≠ some q
  name : (s.at q).state ≠ .unused → s'.hist.uid q = s.hist.uid q ∧ s'.hist.status q = s.hist.status q

theorem Exiting.keep {c : Pc} {status : Int} (hR : Rely s s' q c) (h : Exiting s q status) : Exiting s' q status := by
  have hne : (s.at q).state ≠ .unused := by simp [h.1]
  exact ⟨hR.running h.1, h.2.1, (hR.name hne).2.trans h.2.2⟩

theorem Fits.keep {c : Pc} (hR : Rely s s' q c) (h : Fits s q c) : Fits s' q c := by
  cases c with
  | user => trivial
  | asleep l => trivial
  | sleepLock l => exact ⟨hR.running h.1, fun e => hR.wait (h.2 e)⟩
  | sleepRelease l => exact ⟨hR.running h.1, fun e => hR.wait (h.2 e)⟩
  | forkParent np =>
    obtain ⟨h1, h2, h3, h4⟩ := h
    obtain ⟨c1, c2, c3⟩ := hR.child np rfl h2
    have hne : (s.at q).state ≠ .unused := by simp [h1]
    refine ⟨hR.running h1, c1, c2.trans h3, ?_⟩
    rw [c3, h4, (hR.name hne).1]
  | forkReady np =>
    obtain ⟨h1, h2, h3⟩ := h
    obtain ⟨c1, c2, -⟩ := hR.child np rfl h2
    exact ⟨hR.running h1, c1, c2.trans h3⟩
  | exitAcquire status => exact Exiting.keep hR h
  | reparent status i => exact ⟨h.1.keep hR, hR.wait h.2.1, fun x hx => hR.parent h.1.2.1 x (h.2.2 x hx)⟩
  | reparentWake status i j => exact ⟨h.1.keep hR, hR.wait h.2.1, fun x hx => hR.parent h.1.2.1 x (h.2.2 x hx)⟩
  | exitWake status r j => exact ⟨h.1.keep hR, hR.wait h.2.1, fun x => hR.parent h.1.2.1 x (h.2.2 x)⟩
  | exitZombie status => exact ⟨h.1.keep hR, hR.wait h.2.1, fun x => hR.parent h.1.2.1 x (h.2.2 x)⟩
  | exitRelease =>
    obtain ⟨c1, c2⟩ := hR.zombie h.1 h.2.1
    exact ⟨c1, c2, hR.wait h.2.2⟩
  | exitSwitch => exact hR.zombie h.1 h.2
  | waitScan i kids => exact ⟨hR.running h.1, hR.wait h.2⟩
  | lockAcquire m => exact hR.running h
  | sleepSwitch l => exact hR.running h
  | relock l => exact hR.running h
  | unlockWake m i => exact hR.running h
  | kill pid i => exact hR.running h
  | waitAcquire => exact hR.running h

theorem Rely.update {c : Pc}
    (hc : cores s'.k = Function.update (cores s.k) i x) (hw : s.waitLock = some q → s'.waitLock = some q)
    (hh : s'.held q = s.held q) (hcr : ∀ np, (s.at np).state = .used → s'.hist.creator np = s.hist.creator np)
    (hn : (s.at q).state ≠ .unused → s'.hist.uid q = s.hist.uid q ∧ s'.hist.status q = s.hist.status q)
    (hst : i = q → ((s.at q).state = .running → x.state = .running) ∧
      ((s.at q).state = .zombie → s.held q = true → x.state = .zombie))
    (hch : c.child = some i → (s.at i).state = .used → x.state = .used ∧ x.parent = (s.at i).parent)
    (hp : q ≠ initSlot → x.parent = some q → (s.at i).parent = some q) : Rely s s' q c where
  running h := by
    unfold St.at
    rw [hc]
    by_cases e : q = i
    · subst e
      rw [update_self]
      exact (hst rfl).1 h
    · rw [update_of_ne e]
      exact h
  zombie h hq := by
    unfold St.at
    rw [hc]
    refine ⟨?_, hh.trans hq⟩
    by_cases e : q = i
    · subst e
      rw [update_self]
      exact (hst rfl).2 h hq
    · rw [update_of_ne e]
      exact h
  wait := hw
  child np hnp hu := by
    unfold St.at
    rw [hc]
    by_cases e : np = i
    · subst e
      rw [update_self]
      obtain ⟨h1, h2⟩ := hch hnp hu
      exact ⟨h1, h2, hcr np hu⟩
    · rw [update_of_ne e]
      exact ⟨hu, rfl, hcr np hu⟩
  parent hq y hy := by
    unfold St.at
    rw [hc]
    by_cases e : y = i
    · subst e
      rw [update_self]
      exact fun h => hy (hp hq h)
    · rw [update_of_ne e]
      exact hy
  name := hn

theorem Rely.locks {c : Pc} (hc : cores s'.k = cores s.k)
    (hw : s.waitLock = some q → s'.waitLock = some q) (hh : s'.held q = s.held q)
    (hcr : ∀ np, (s.at np).state = .used → s'.hist.creator np = s.hist.creator np)
    (hn : (s.at q).state ≠ .unused → s'.hist.uid q = s.hist.uid q ∧ s'.hist.status q = s.hist.status q) :
    Rely s s' q c := by
  have hat : ∀ r, s'.at r = s.at r := fun r => congrFun hc r
  refine ⟨?_, ?_, hw, ?_, ?_, hn⟩
  · rw [hat]
    exact id
  · intro h hq
    rw [hat]
    exact ⟨h, hh.trans hq⟩
  · intro np _ hu
    rw [hat]
    exact ⟨hu, rfl, hcr np hu⟩
  · intro _ y hy
    rw [hat]
    exact hy

/-! ## The table -/

structure Forest (c : Slot → Core) : Prop where
  init : (c initSlot).phase = .alive
  parent : ∀ q r, (c q).parent = some r → (c r).phase = .alive
  has : ∀ q, q ≠ initSlot → (c q).phase = .alive ∨ (c q).phase = .zombie → (c q).parent ≠ none
  orphan : ∀ q, (c q).phase = .unused → (c q).parent = none

structure Names (c : Slot → Core) (g : Hist) : Prop where
  lt : ∀ q, (c q).phase ≠ .unused → g.uid q < g.births
  inj : ∀ q r, (c q).phase ≠ .unused → (c r).phase ≠ .unused → g.uid q = g.uid r → q = r
  creator : ∀ q, (c q).phase ≠ .unused → g.creator q < g.births
  flag : ∀ q, (c q).phase ≠ .unused → ((g.life (g.uid q)).zombie = true ↔ (c q).phase = .zombie)
  status : ∀ q, (c q).phase = .zombie → g.status q = some (c q).xstate
  reaped : ∀ r ∈ g.reaps, r.child < g.births ∧ ∀ q, (c q).phase ≠ .unused → g.uid q ≠ r.child
  once : (g.reaps.map Reap.child).Nodup

structure Same (c c' : Slot → Core) : Prop where
  phase : ∀ q, (c' q).phase = (c q).phase
  parent : ∀ q, (c' q).parent = (c q).parent
  xstate : ∀ q, (c' q).xstate = (c q).xstate

theorem Same.update (h1 : x.phase = (c i).phase)
    (h2 : x.parent = (c i).parent) (h3 : x.xstate = (c i).xstate) : Same c (Function.update c i x) := by
  constructor <;> intro q <;> by_cases e : q = i
  · rw [e, update_self, h1]
  · rw [update_of_ne e]
  · rw [e, update_self, h2]
  · rw [update_of_ne e]
  · rw [e, update_self, h3]
  · rw [update_of_ne e]

theorem Forest.same (hF : Forest c) (h : Same c c') : Forest c' := by
  constructor
  · rw [h.phase]
    exact hF.init
  · intro q r hr
    rw [h.parent] at hr
    rw [h.phase]
    exact hF.parent q r hr
  · intro q hq hp
    rw [h.phase] at hp
    rw [h.parent]
    exact hF.has q hq hp
  · intro q hq
    rw [h.phase] at hq
    rw [h.parent]
    exact hF.orphan q hq

variable {g : Hist} {o : Option Slot}

theorem Names.update (hN : Names c g)
    (hu : x.phase = .unused ↔ (c i).phase = .unused) (hz : x.phase = .zombie ↔ (c i).phase = .zombie)
    (hx : x.xstate = (c i).xstate) : Names (Function.update c i x) g := by
  have huse : ∀ q, (Function.update c i x q).phase = .unused ↔ (c q).phase = .unused := by
    intro q
    by_cases e : q = i
    · rw [e, update_self, hu]
    · rw [update_of_ne e]
  have hzom : ∀ q, (Function.update c i x q).phase = .zombie ↔ (c q).phase = .zombie := by
    intro q
    by_cases e : q = i
    · rw [e, update_self, hz]
    · rw [update_of_ne e]
  constructor
  · exact fun q hq => hN.lt q (mt (huse q).2 hq)
  · exact fun q r hq hr => hN.inj q r (mt (huse q).2 hq) (mt (huse r).2 hr)
  · exact fun q hq => hN.creator q (mt (huse q).2 hq)
  · intro q hq
    rw [hzom]
    exact hN.flag q (mt (huse q).2 hq)
  · intro q hq
    rw [hN.status q ((hzom q).1 hq)]
    by_cases e : q = i
    · rw [e, update_self, hx]
    · rw [update_of_ne e]
  · exact fun r hr => ⟨(hN.reaped r hr).1, fun q hq => (hN.reaped r hr).2 q (mt (huse q).2 hq)⟩
  · exact hN.once

theorem Names.same (hN : Names c g) (h : x.phase = (c i).phase)
    (hx : x.xstate = (c i).xstate) : Names (Function.update c i x) g := hN.update (by rw [h]) (by rw [h]) hx

theorem Forest.update (hF : Forest c) (hinit : i = initSlot → x.phase = .alive)
    (hpar : ∀ r, x.parent = some r → (if r = i then x.phase else (c r).phase) = .alive)
    (hkids : x.phase ≠ .alive → ∀ q, (c q).parent ≠ some i)
    (hhas : i ≠ initSlot → x.phase = .alive ∨ x.phase = .zombie → x.parent ≠ none)
    (horphan : x.phase = .unused → x.parent = none) : Forest (Function.update c i x) := by
  constructor
  · by_cases e : initSlot = i
    · rw [← e]
      exact hinit e.symm
    · rw [update_of_ne e]
      exact hF.init
  · intro q r hr
    by_cases e : q = i
    · subst e
      rw [update_self] at hr
      have := hpar r hr
      by_cases er : r = q
      · rw [er, update_self]
        rwa [if_pos er] at this
      · rw [update_of_ne er]
        rwa [if_neg er] at this
    · rw [update_of_ne e] at hr
      by_cases er : r = i
      · subst er
        rw [update_self]
        by_contra hx
        exact hkids hx q hr
      · rw [update_of_ne er]
        exact hF.parent q r hr
  · intro q hq
    by_cases e : q = i
    · subst e
      rw [update_self]
      exact hhas hq
    · rw [update_of_ne e]
      exact hF.has q hq
  · intro q
    by_cases e : q = i
    · subst e
      rw [update_self]
      exact horphan
    · rw [update_of_ne e]
      exact hF.orphan q

theorem Forest.childless (hF : Forest c) (h : (c i).phase ≠ .alive) (q : Slot) : (c q).parent ≠ some i :=
  fun hq => h (hF.parent q i hq)

/-- **A parent is the creator, or `init` once the creator has exited or is on its way out with `wait_lock`.** -/
def Made (s : St) : Prop :=
  ∀ q r, (s.at q).parent = some r →
    s.hist.uid r = s.hist.creator q ∨
    (r = initSlot ∧ ((s.hist.life (s.hist.creator q)).zombie = true ∨
      ∃ c, (s.pc c).hands = true ∧ s.hist.uid c = s.hist.creator q))

structure Inv (s : St) : Prop where
  fits : ∀ p, Fits s p (s.pc p)
  child : ∀ p q np, (s.pc p).child = some np → (s.pc q).child = some np → p = q
  forest : Forest (cores s.k)
  names : Names (cores s.k) s.hist
  made : Made s

theorem Inv.fits_at {c : Pc} (hI : Inv s) (hpc : s.pc p = c) : Fits s p c := hpc ▸ hI.fits p

/-! ## The table after a step -/

theorem forest_step (hI : Inv s) (he : Effect s a c g) : Forest c := by
  have hF := hI.forest
  cases he with
  | quiet => exact hF
  | exit p status hp hst => exact hF
  | wake p fail i hi hst => exact hF.same (.update (by simp [Core.phase, phaseOf, hst]) rfl rfl)
  | kill p fail pid i hpc hpid =>
    refine hF.same (.update ?_ rfl rfl)
    by_cases h : (s.at i).state = .sleeping <;> simp [Core.phase, phaseOf, h]
  | setkilled p hst => exact hF.same (.update rfl rfl rfl)
  | sleep p fail l hpc =>
    have hr := hI.fits_at hpc
    exact hF.same (.update (Core.phase_of_running hr).symm rfl rfl)
  | dispatch p hst => exact hF.same (.update (by simp [Core.phase, phaseOf, hst]) rfl rfl)
  | fork p np mem hst hu =>
    have hph := Core.phase_unused.2 hu
    have hpar := hF.orphan np hph
    have hne : np ≠ initSlot := by
      rintro rfl
      simp [hF.init] at hph
    refine hF.update (fun e => absurd e hne) ?_ (fun _ => hF.childless (by simp [hph])) ?_ ?_
    · cases mem <;> simp [unusedCore, hpar]
    · cases mem <;> simp [unusedCore, Core.phase, phaseOf]
    · cases mem <;> simp [unusedCore, hpar]
  | parent p fail np hpc =>
    have hr := hI.fits_at hpc
    obtain ⟨h1, h2, -, -⟩ := hr
    have hph : (s.at np).phase = .used := Core.phase_used.2 h2
    have hx : ({ s.at np with parent := some p } : Core).phase = .used := hph
    have hne : p ≠ np := by
      rintro rfl
      simp [h1] at h2
    refine hF.update (fun e => ?_) (fun r hr => ?_) (fun _ => hF.childless (by simp [hph])) ?_ (by simp [hx])
    · subst e
      simp [hF.init] at hph
    · cases hr
      rw [if_neg hne]
      exact Core.phase_of_running h1
    · simp
  | ready p fail np hpc =>
    have hr := hI.fits_at hpc
    obtain ⟨h1, h2, h3⟩ := hr
    refine hF.update (fun _ => rfl) (fun r hr => ?_) (fun h => absurd rfl h) (fun _ _ => ?_) (fun h => by cases h)
    · split
      · rfl
      · exact hF.parent np r hr
    · simp [h3]
  | adopt p fail status pp hpc hpar =>
    have hx : ({ s.at pp with parent := some initSlot } : Core).phase = (s.at pp).phase := rfl
    refine hF.update (fun e => ?_) (fun r hr => ?_) hF.childless (fun _ _ => by simp) (fun h => ?_)
    · rw [e]
      exact hF.init
    · cases hr
      split
      · rename_i e
        rw [← e]
        exact hF.init
      · exact hF.init
    · simp [hF.orphan pp h] at hpar
  | zombie p fail status hpc =>
    have hr := hI.fits_at hpc
    obtain ⟨⟨h1, h2, -⟩, -, h3⟩ := hr
    refine hF.update (fun e => absurd e h2) (fun r hr => ?_) (fun _ => h3) (fun _ _ => ?_) (fun h => by cases h)
    · rw [if_neg]
      · exact hF.parent p r hr
      · rintro rfl
        exact h3 r hr
    · exact hF.has p h2 (.inl (Core.phase_of_running h1))
  | reap p kids pp hpc hpar hh hz =>
    have hph := Core.phase_zombie.2 hz
    refine hF.update (fun e => ?_) (fun r hr => by cases hr) (fun _ => hF.childless (by simp [hph])) ?_ (fun _ => rfl)
    · subst e
      simp [hF.init] at hph
    · simp [unusedCore, Core.phase, phaseOf]

/-! ## The history after a step -/

theorem creator_born (hq : q ≠ np) (hlt : g.uid q < g.births) : (g.born p np).creator q = g.creator q := by
  simp [Hist.creator, Hist.born, hq, hlt.ne]

theorem creator_born_self (g : Hist) (p np : Slot) : (g.born p np).creator np = g.uid p := by
  simp [Hist.creator, Hist.born]

theorem creator_exits (g : Hist) (p q : Slot) (status : Int) : (g.exits p status).creator q = g.creator q := by
  by_cases e : g.uid q = g.uid p <;> simp [Hist.creator, Hist.exits, e]

theorem status_exits (g : Hist) (p : Slot) (status : Int) : (g.exits p status).status p = some status := by
  simp [Hist.status, Hist.exits]

theorem status_exits_of_ne {status : Int} (h : g.uid q ≠ g.uid p) : (g.exits p status).status q = g.status q := by
  simp [Hist.status, Hist.exits, h]

theorem zombie_exits (g : Hist) (p : Slot) (status : Int) (u : Nat) :
    ((g.exits p status).life u).zombie = (g.life u).zombie := by by_cases e : u = g.uid p <;> simp [Hist.exits, e]

theorem creator_dies (g : Hist) (p q : Slot) : (g.dies p).creator q = g.creator q := by
  by_cases e : g.uid q = g.uid p <;> simp [Hist.creator, Hist.dies, e]

theorem status_dies (g : Hist) (p q : Slot) : (g.dies p).status q = g.status q := by
  by_cases e : g.uid q = g.uid p <;> simp [Hist.status, Hist.dies, e]

theorem zombie_dies (g : Hist) (p : Slot) (u : Nat) :
    ((g.dies p).life u).zombie = true ↔ u = g.uid p ∨ (g.life u).zombie = true := by
  by_cases e : u = g.uid p <;> simp [Hist.dies, e]

structure Keeps (c : Slot → Core) (g g' : Hist) : Prop where
  uid : ∀ q, (c q).phase ≠ .unused → g'.uid q = g.uid q
  creator : ∀ q, (c q).phase ≠ .unused → g'.creator q = g.creator q
  zombie : ∀ u, u < g.births → (g.life u).zombie = true → (g'.life u).zombie = true

theorem Keeps.refl (c : Slot → Core) (g : Hist) : Keeps c g g := ⟨fun _ _ => rfl, fun _ _ => rfl, fun _ _ => id⟩

theorem keeps_step (hN : Names (cores s.k) s.hist) (he : Effect s a c g) : Keeps (cores s.k) s.hist g := by
  cases he with
  | fork p np mem hst hu =>
    have hne : ∀ q, (s.at q).phase ≠ .unused → q ≠ np := by
      rintro q hq rfl
      exact hq (Core.phase_unused.2 hu)
    refine ⟨fun q hq => ?_, fun q hq => creator_born (hne q hq) (hN.lt q hq), fun u hu hz => ?_⟩
    · simp [Hist.born, hne q hq]
    · simp [Hist.born, hu.ne, hz]
  | exit p status hp hst =>
    refine ⟨fun _ _ => rfl, fun q _ => creator_exits .., fun u _ hz => ?_⟩
    rwa [zombie_exits]
  | zombie p fail status hpc =>
    refine ⟨fun _ _ => rfl, fun q _ => creator_dies .., fun u _ hz => ?_⟩
    rw [zombie_dies]
    exact .inr hz
  | reap p kids pp hpc hpar hh hz => exact ⟨fun _ _ => rfl, fun _ _ => rfl, fun _ _ => id⟩
  | _ => exact Keeps.refl _ _

section
variable (hN : Names c g)
include hN

theorem Names.born (hp : (c p).phase ≠ .unused) (hu : (c np).phase = .unused) (hx : x.phase = .used ∨ x.phase = .unused) :
    Names (Function.update c np x) (g.born p np) := by
  have hz : x.phase ≠ .zombie := by
    rcases hx with h | h <;> simp [h]
  have huid : (g.born p np).uid np = g.births := by simp [Hist.born]
  have huid' : ∀ q, q ≠ np → (g.born p np).uid q = g.uid q := fun q hq => by simp [Hist.born, hq]
  have hlife : ∀ q, q ≠ np → (c q).phase ≠ .unused → (g.born p np).life (g.uid q) = g.life (g.uid q) :=
    fun q _ hc => by simp [Hist.born, (hN.lt q hc).ne]
  constructor
  · intro q hq
    by_cases e : q = np
    · subst e
      rw [huid]
      exact Nat.lt_succ_self _
    · rw [update_of_ne e] at hq
      rw [huid' q e]
      exact Nat.lt_succ_of_lt (hN.lt q hq)
  · intro q r hq hr h
    by_cases e : q = np <;> by_cases e' : r = np
    · rw [e, e']
    · rw [update_of_ne e'] at hr
      rw [e, huid' r e'] at h
      exact absurd (hN.lt r hr) (by omega)
    · rw [update_of_ne e] at hq
      rw [e', huid' q e] at h
      exact absurd (hN.lt q hq) (by omega)
    · rw [update_of_ne e] at hq
      rw [update_of_ne e'] at hr
      rw [huid' q e, huid' r e'] at h
      exact hN.inj q r hq hr h
  · intro q hq
    by_cases e : q = np
    · subst e
      rw [creator_born_self]
      exact Nat.lt_succ_of_lt (hN.lt p hp)
    · rw [update_of_ne e] at hq
      rw [creator_born e (hN.lt q hq)]
      exact Nat.lt_succ_of_lt (hN.creator q hq)
  · intro q hq
    by_cases e : q = np
    · subst e
      simp [Hist.born, hz]
    · rw [update_of_ne e] at hq ⊢
      rw [huid' q e, hlife q e hq]
      exact hN.flag q hq
  · intro q hq
    by_cases e : q = np
    · subst e
      rw [update_self] at hq
      exact absurd hq hz
    · rw [update_of_ne e] at hq ⊢
      have hne : (c q).phase ≠ .unused := by simp [hq]
      rw [Hist.status, huid' q e, hlife q e hne]
      exact hN.status q hq
  · intro r hr
    obtain ⟨h1, h2⟩ := hN.reaped r hr
    refine ⟨Nat.lt_succ_of_lt h1, fun q hq => ?_⟩
    by_cases e : q = np
    · subst e
      rw [huid]
      exact h1.ne'
    · rw [update_of_ne e] at hq
      rw [huid' q e]
      exact h2 q hq
  · exact hN.once

theorem Names.exits (hp : (c p).phase = .alive) (status : Int) : Names c (g.exits p status) where
  lt := hN.lt
  inj := hN.inj
  creator q hq := by
    rw [creator_exits]
    exact hN.creator q hq
  flag q hq := by
    rw [zombie_exits]
    exact hN.flag q hq
  status q hq := by
    rw [status_exits_of_ne]
    · exact hN.status q hq
    · intro e
      have := hN.inj q p (by simp [hq]) (by simp [hp]) e
      rw [this, hp] at hq
      cases hq
  reaped := hN.reaped
  once := hN.once

theorem Names.dies (hp : (c p).phase = .alive)
    (hx : x.phase = .zombie) (hst : g.status p = some x.xstate) : Names (Function.update c p x) (g.dies p) := by
  have huse : ∀ q, (Function.update c p x q).phase ≠ .unused → (c q).phase ≠ .unused := by
    intro q hq
    by_cases e : q = p
    · rw [e, hp]
      simp
    · rwa [update_of_ne e] at hq
  constructor
  · exact fun q hq => hN.lt q (huse q hq)
  · exact fun q r hq hr => hN.inj q r (huse q hq) (huse r hr)
  · intro q hq
    rw [creator_dies]
    exact hN.creator q (huse q hq)
  · intro q hq
    by_cases e : q = p
    · subst e
      simp [hx, Hist.dies]
    · have hne : g.uid q ≠ g.uid p := fun h => e (hN.inj q p (huse q hq) (by simp [hp]) h)
      rw [update_of_ne e, ← hN.flag q (huse q hq)]
      simp [Hist.dies, hne]
  · intro q hq
    rw [status_dies]
    by_cases e : q = p
    · subst e
      rw [update_self]
      exact hst
    · rw [update_of_ne e] at hq ⊢
      exact hN.status q hq
  · intro r hr
    exact ⟨(hN.reaped r hr).1, fun q hq => (hN.reaped r hr).2 q (huse q hq)⟩
  · exact hN.once

theorem Names.reap (y : Proc) (hz : (c pp).phase = .zombie) (hx : x.phase = .unused) :
    Names (Function.update c pp x) (g.reap p pp y) := by
  have hne : ∀ q, (Function.update c pp x q).phase ≠ .unused → q ≠ pp ∧ (c q).phase ≠ .unused := by
    intro q hq
    by_cases e : q = pp
    · rw [e, update_self] at hq
      exact absurd hx hq
    · rw [update_of_ne e] at hq
      exact ⟨e, hq⟩
  have hpp : (c pp).phase ≠ .unused := by simp [hz]
  constructor
  · exact fun q hq => hN.lt q (hne q hq).2
  · exact fun q r hq hr => hN.inj q r (hne q hq).2 (hne r hr).2
  · exact fun q hq => hN.creator q (hne q hq).2
  · intro q hq
    obtain ⟨e, hq'⟩ := hne q hq
    rw [update_of_ne e]
    exact hN.flag q hq'
  · intro q hq
    have e := (hne q (by simp [hq])).1
    rw [update_of_ne e] at hq ⊢
    exact hN.status q hq
  · intro r hr
    rcases List.mem_cons.1 hr with rfl | hr
    · exact ⟨hN.lt pp hpp, fun q hq h => (hne q hq).1 (hN.inj q pp (hne q hq).2 hpp h)⟩
    · exact ⟨(hN.reaped r hr).1, fun q hq => (hN.reaped r hr).2 q (hne q hq).2⟩
  · refine List.nodup_cons.2 ⟨fun h => ?_, hN.once⟩
    obtain ⟨r, hr, e⟩ := List.mem_map.1 h
    exact (hN.reaped r hr).2 pp hpp e.symm

end

theorem names_step (hI : Inv s) (he : Effect s a c g) : Names c g := by
  have hN := hI.names
  cases he with
  | quiet => exact hN
  | exit p status hp hst => exact hN.exits (Core.phase_of_running hst) status
  | wake p fail i hi hst => exact hN.same (by simp [Core.phase, phaseOf, hst]) rfl
  | kill p fail pid i hpc hpid =>
    refine hN.same ?_ rfl
    by_cases h : (s.at i).state = .sleeping <;> simp [Core.phase, phaseOf, h]
  | setkilled p hst => exact hN.same rfl rfl
  | sleep p fail l hpc =>
    have hr := hI.fits_at hpc
    exact hN.same (Core.phase_of_running hr).symm rfl
  | dispatch p hst => exact hN.same (by simp [Core.phase, phaseOf, hst]) rfl
  | fork p np mem hst hu =>
    refine hN.born (by simp [Core.phase_of_running hst]) (Core.phase_unused.2 hu) ?_
    cases mem
    · exact .inr rfl
    · exact .inl rfl
  | parent p fail np hpc => exact hN.same rfl rfl
  | ready p fail np hpc =>
    have hr := hI.fits_at hpc
    have hst := hr.2.1
    exact hN.update (by simp [Core.phase, phaseOf, hst]) (by simp [Core.phase, phaseOf, hst]) rfl
  | adopt p fail status pp hpc hpar => exact hN.same rfl rfl
  | zombie p fail status hpc =>
    have hr := hI.fits_at hpc
    obtain ⟨⟨h1, -, h2⟩, -, -⟩ := hr
    exact hN.dies (Core.phase_of_running h1) rfl h2
  | reap p kids pp hpc hpar hh hz => exact hN.reap _ (Core.phase_zombie.2 hz) rfl

/-! ## The threads after a step -/

def Act.actor : Act → Slot
  | .start p _ | .advance p _ | .dispatch p => p

theorem rely_step (hI : Inv s) (he : Effect s a (cores s'.k) s'.hist)
    (hq : q ≠ a.actor) (hw : s.waitLock = some q → s'.waitLock = some q) (hh : s'.held q = s.held q) :
    Rely s s' q (s.pc q) := by
  have hK := keeps_step hI.names he
  have hcr : ∀ np, (s.at np).state = .used → s'.hist.creator np = s.hist.creator np := by
    intro np hu
    exact hK.creator np (by simp [Core.phase_used.2 hu])
  have huid : (s.at q).state ≠ .unused → s'.hist.uid q = s.hist.uid q := by
    intro h
    exact hK.uid q (mt Core.phase_unused.1 h)
  have hfq := hI.fits q
  generalize hc : cores s'.k = c at he
  generalize hg : s'.hist = g at he
  cases he with
  | quiet =>
    exact .locks hc hw hh hcr (fun h => ⟨huid h, by rw [hg]⟩)
  | exit p status hp hst =>
    refine .locks hc hw hh hcr (fun h => ⟨huid h, ?_⟩)
    rw [hg]
    apply status_exits_of_ne
    intro e
    exact hq (hI.names.inj q p (mt Core.phase_unused.1 h) (by simp [Core.phase_of_running hst]) e)
  | wake p fail i hi hst =>
    refine .update hc hw hh hcr (fun h => ⟨huid h, by rw [hg]⟩) ?_ (fun _ h => ?_) (fun _ => id)
    · rintro rfl
      simp [hst]
    · simp [hst] at h
  | kill p fail pid i hpc hpid =>
    refine .update hc hw hh hcr (fun h => ⟨huid h, by rw [hg]⟩) ?_ (fun _ h => ?_) (fun _ => id)
    · rintro rfl
      constructor
      · intro h
        simp [h]
      · intro h _
        simp [h]
    · simp [h]
  | setkilled p hst =>
    refine .update hc hw hh hcr (fun h => ⟨huid h, by rw [hg]⟩) (fun e => absurd e.symm hq) (fun _ h => ?_)
      (fun _ => id)
    simp [hst] at h
  | sleep p fail l hpc =>
    have hr := hI.fits_at hpc
    refine .update hc hw hh hcr (fun h => ⟨huid h, by rw [hg]⟩) (fun e => absurd e.symm hq) (fun _ h => ?_)
      (fun _ => id)
    rw [show (s.at p).state = .running from hr] at h
    cases h
  | dispatch p hst =>
    refine .update hc hw hh hcr (fun h => ⟨huid h, by rw [hg]⟩) (fun e => absurd e.symm hq) (fun _ h => ?_)
      (fun _ => id)
    simp [hst] at h
  | fork p np mem hst hu =>
    refine .update hc hw hh hcr (fun h => ⟨huid h, ?_⟩) ?_ (fun _ h => ?_) (fun _ h => ?_)
    · have hne : q ≠ np := by
        rintro rfl
        exact h hu
      rw [hg]
      simp [Hist.status, Hist.born, hne, (hI.names.lt q (mt Core.phase_unused.1 h)).ne]
    · rintro rfl
      simp [hu]
    · simp [hu] at h
    · cases mem
      · simp [unusedCore] at h
      · exact h
  | parent p fail np hpc =>
    refine .update hc hw hh hcr (fun h => ⟨huid h, by rw [hg]⟩) ?_ (fun h _ => ?_) (fun _ h => ?_)
    · rintro rfl
      exact ⟨id, fun h _ => h⟩
    · exact absurd (hI.child q p np h (by rw [hpc]; rfl)) hq
    · cases h
      exact absurd rfl hq
  | ready p fail np hpc =>
    have hr := hI.fits_at hpc
    refine .update hc hw hh hcr (fun h => ⟨huid h, by rw [hg]⟩) ?_ (fun h _ => ?_) (fun _ => id)
    · rintro rfl
      simp [hr.2.1]
    · exact absurd (hI.child q p np h (by rw [hpc]; rfl)) hq
  | adopt p fail status pp hpc hpar =>
    refine .update hc hw hh hcr (fun h => ⟨huid h, by rw [hg]⟩) ?_ (fun h hu => ?_) (fun hqi h => ?_)
    · rintro rfl
      exact ⟨id, fun h _ => h⟩
    · -- a child under way has no parent yet, or the one that makes it
      exfalso
      cases hpcq : s.pc q with
      | forkParent np =>
        rw [hpcq] at h hfq
        cases h
        simp [hfq.2.2.1] at hpar
      | forkReady np =>
        rw [hpcq] at h hfq
        cases h
        rw [hfq.2.2] at hpar
        exact hq (Option.some.inj hpar)
      | _ => simp [hpcq, Pc.child] at h
    · cases h
      exact absurd rfl hqi
  | zombie p fail status hpc =>
    have hr := hI.fits_at hpc
    refine .update hc hw hh hcr (fun h => ⟨huid h, ?_⟩) (fun e => absurd e.symm hq) (fun _ h => ?_) (fun _ => id)
    · rw [hg]
      exact status_dies ..
    · simp [hr.1.1] at h
  | reap p kids pp hpc hpar hheld hz =>
    refine .update hc hw hh hcr (fun h => ⟨huid h, by rw [hg]; rfl⟩) ?_ (fun _ h => ?_) (fun _ h => ?_)
    · rintro rfl
      simp [hz, hheld]
    · simp [hz] at h
    · cases h

/-- **What a step does to its own thread and to the locks.** -/
structure Own (s : St) (p : Slot) (s' : St) : Prop where
  fits : Fits s' p (s'.pc p)
  pc : ∀ q, q ≠ p → s'.pc q = s.pc q ∨ (s'.pc q = .user ∧ (s.at q).state = .unused)
  wait : ∀ q, q ≠ p → s.waitLock = some q → s'.waitLock = some q
  held : ∀ q, q ≠ p → s'.held q = s.held q
  child : ∀ np, (s'.pc p).child = some np → (s.pc p).child = some np ∨ (s.at np).state = .unused
  hands : (s.pc p).hands = true → (s'.pc p).hands = true ∨ (s'.hist.life (s.hist.uid p)).zombie = true

theorem fits_goto (s : St) (p q : Slot) (c d : Pc) : Fits (goto s q d) p c ↔ Fits s p c := by
  cases c <;> exact Iff.rfl

theorem Own.goto {c : Pc} (hf : Fits s1 p c) (hpc : s1.pc = s.pc)
    (hw : ∀ q, q ≠ p → s.waitLock = some q → s1.waitLock = some q) (hh : ∀ q, q ≠ p → s1.held q = s.held q)
    (hch : c.child = none ∨ c.child = (s.pc p).child)
    (hd : (s.pc p).hands = true → c.hands = true ∨ (s1.hist.life (s.hist.uid p)).zombie = true) :
    Own s p (Life.goto s1 p c) where
  fits := by
    rw [fits_goto]
    simpa [Life.goto] using hf
  pc q hq := .inl (by simp [Life.goto, hq, hpc])
  wait := hw
  held := hh
  child np h := by
    simp only [Life.goto, update_self] at h
    rcases hch with e | e
    · simp [e] at h
    · exact .inl (e ▸ h)
  hands h := by
    simp only [Life.goto, update_self]
    exact hd h

theorem Own.move {c : Pc} (hf : Fits s p c) (hch : c.child = none ∨ c.child = (s.pc p).child)
    (hd : (s.pc p).hands = true → c.hands = true) : Own s p (Life.goto s p c) :=
  .goto hf rfl (fun _ _ => id) (fun _ _ => rfl) hch (fun h => .inl (hd h))

theorem Fits.wake {c : Pc} (chan : Chan) (i : Slot) (h : Fits s p c) :
    Fits (withKern s (wakeOne (some p) chan s.k i)) p c := by
  rcases cores_wakeOne (some p) chan s.k i with hc | ⟨hne, hst, -, hc⟩
  · exact h.keep (.locks hc id rfl (fun _ _ => rfl) (fun _ => ⟨rfl, rfl⟩))
  · refine h.keep (.update hc id rfl (fun _ _ => rfl) (fun _ => ⟨rfl, rfl⟩) (fun e => ?_) (fun _ hu => ?_)
      (fun _ => id))
    · exact absurd (by rw [e]) hne
    · simp [hst] at hu

theorem Own.wakeTurn {chan : Chan} {next : Pc} (hs : Life.wakeTurn s p chan i next = some s') (hf : Fits s p next)
    (hch : next.child = none) (hd : (s.pc p).hands = true → next.hands = true) : Own s p s' := by
  unfold Life.wakeTurn at hs
  split at hs
  · cases hs
  · cases hs
    exact .goto (hf.wake chan i) rfl (fun _ _ => id) (fun _ _ => rfl) (.inl hch) (fun h => .inl (hd h))

theorem Own.lockTest (m : Mid) (hr : (s.at p).state = .running) (hd : (s.pc p).hands = false) :
    Own s p (Life.lockTest s p m) := by
  unfold Life.lockTest
  split
  · exact .goto ⟨hr, nofun⟩ rfl (fun _ _ => id) (fun _ _ => rfl) (.inl rfl) (by simp [hd])
  · exact .goto trivial rfl (fun _ _ => id) (fun _ _ => rfl) (.inl rfl) (by simp [hd])

theorem wait_of_free (h : ¬ s.waitLock.isSome = true) (hq : s.waitLock = some q) : o = some q := by simp [hq] at h

theorem wait_of_mine (h : s.waitLock = some p) (hne : q ≠ p) (hq : s.waitLock = some q) : o = some q := by
  rw [h] at hq
  exact absurd (Option.some.inj hq).symm hne

section

variable {fail : Bool} (hI : Inv s) (hs : advance s p fail = some s')
include hI hs

theorem own_forkParent (hpc : s.pc p = .forkParent np) : Own s p s' := by
  have hf := hI.fits_at hpc
  unfold advance at hs
  simp only [hpc] at hs
  obtain ⟨h1, h2, h3, h4⟩ := hf
  split at hs <;> cases hs
  have hne : p ≠ np := by
    rintro rfl
    simp [h1] at h2
  refine .goto ⟨?_, ?_, ?_⟩ rfl (fun _ _ => id) (fun _ _ => rfl) (.inr (by rw [hpc]; rfl)) (by simp [hpc, Pc.hands])
  · simpa [St.at, withKern, cores_forkParent, hne] using h1
  · simpa [St.at, withKern, cores_forkParent] using h2
  · simp [St.at, withKern, cores_forkParent]

theorem own_kill {pid : Int} {i : Nat} (hpc : s.pc p = .kill pid i) : Own s p s' := by
  have hf := hI.fits_at hpc
  unfold advance at hs
  simp only [hpc] at hs
  split at hs
  · split at hs
    · cases hs
    · split at hs <;> cases hs
      · exact .goto trivial rfl (fun _ _ => id) (fun _ _ => rfl) (.inl rfl) (by simp [hpc, Pc.hands])
      · exact .move hf (.inl rfl) (by simp [hpc, Pc.hands])
  · cases hs
    exact .move trivial (.inl rfl) (by simp [hpc, Pc.hands])

theorem own_reparent {status : Int} {i : Nat} (hpc : s.pc p = .reparent status i) : Own s p s' := by
  have hf := hI.fits_at hpc
  unfold advance at hs
  simp only [hpc] at hs
  obtain ⟨h1, h2, h3⟩ := hf
  split at hs
  · rename_i hi
    split at hs
    · -- the child in this slot goes to `init`
      cases hs
      refine .goto ⟨⟨?_, h1.2.1, h1.2.2⟩, h2, fun q hq => ?_⟩ rfl (fun _ _ => id) (fun _ _ => rfl) (.inl rfl)
        (fun _ => .inl rfl)
      · simp only [St.at, withKern, cores_setProc]
        by_cases e : p = ⟨i, hi⟩
        · rw [← e, update_self]
          exact h1.1
        · rw [update_of_ne e]
          exact h1.1
      · simp only [St.at, withKern, cores_setProc]
        by_cases e : q = ⟨i, hi⟩
        · rw [e, update_self]
          exact fun h => h1.2.1 (Option.some.inj h).symm
        · rw [update_of_ne e]
          have hqi : q.val ≠ i := fun h => e (Fin.ext h)
          exact h3 q (by omega)
    · rename_i hpar
      cases hs
      refine .move ⟨h1, h2, fun q hq => ?_⟩ (.inl rfl) (by simp [hpc, Pc.hands])
      rcases Nat.lt_succ_iff_lt_or_eq.1 hq with hlt | heq
      · exact h3 q hlt
      · have : q = ⟨i, hi⟩ := Fin.ext heq
        rw [this]
        exact hpar
  · have hall : ∀ q : Slot, (s.at q).parent ≠ some p := fun q => h3 q (by omega)
    split at hs <;> cases hs
    · exact .move ⟨h1, h2, hall⟩ (.inl rfl) (by simp [hpc, Pc.hands])
    · exact .move ⟨h1, h2, hall⟩ (.inl rfl) (by simp [hpc, Pc.hands])

theorem own_exitZombie {status : Int} (hpc : s.pc p = .exitZombie status) : Own s p s' := by
  have hf := hI.fits_at hpc
  unfold advance at hs
  simp only [hpc] at hs
  split at hs <;> cases hs
  refine .goto ⟨?_, ?_, hf.2.1⟩ rfl (fun _ _ => id) (fun q hq => ?_) (.inl rfl) (fun _ => .inr ?_)
  · simp [St.at, withKern, holding, cores_zombify]
  · simp [holding]
  · simp [holding, withKern, hq]
  · exact (zombie_dies _ _ _).2 (.inl rfl)

theorem own_waitScan {i : Nat} {kids : Bool} (hpc : s.pc p = .waitScan i kids) : Own s p s' := by
  have hf := hI.fits_at hpc
  unfold advance at hs
  simp only [hpc] at hs
  have hmine : ∀ {o : Option Slot} (q : Slot), q ≠ p → s.waitLock = some q → o = some q :=
    fun q hq => wait_of_mine hf.2 hq
  split at hs
  · split at hs
    · split at hs
      · cases hs
      split at hs
      · -- a zombie: the call returns, with it or with -1
        split at hs <;> cases hs
        · exact .goto trivial rfl hmine (fun _ _ => rfl) (.inl rfl) (by simp [hpc, Pc.hands])
        · exact .goto trivial rfl hmine (fun _ _ => rfl) (.inl rfl) (by simp [hpc, Pc.hands])
      · cases hs
        exact .move hf (.inl rfl) (by simp [hpc, Pc.hands])
    · cases hs
      exact .move hf (.inl rfl) (by simp [hpc, Pc.hands])
  · split at hs <;> cases hs
    · exact .goto trivial rfl hmine (fun _ _ => rfl) (.inl rfl) (by simp [hpc, Pc.hands])
    · exact .move ⟨hf.1, fun _ => hf.2⟩ (.inl rfl) (by simp [hpc, Pc.hands])

theorem own_advance : Own s p s' := by
  have hf := hI.fits p
  have hadv := hs
  unfold advance at hadv
  cases hpc : s.pc p with
  | forkParent np => exact own_forkParent hI hs hpc
  | kill pid i => exact own_kill hI hs hpc
  | reparent status i => exact own_reparent hI hs hpc
  | exitZombie status => exact own_exitZombie hI hs hpc
  | waitScan i kids => exact own_waitScan hI hs hpc
  | user =>
    simp only [hpc] at hadv
    cases hadv
  | asleep l =>
    simp only [hpc] at hadv
    cases hadv
  | lockAcquire m =>
    simp only [hpc] at hadv hf
    split at hadv <;> cases hadv
    exact .lockTest m hf (by rw [hpc]; rfl)
  | sleepLock l =>
    simp only [hpc] at hadv hf
    split at hadv <;> cases hadv
    refine .goto ?_ rfl (fun _ _ => id) (fun q hq => ?_) (.inl rfl) (by simp [hpc, Pc.hands])
    · exact hf
    · simp [holding, hq]
  | sleepRelease l =>
    simp only [hpc] at hadv hf
    cases hadv
    cases l with
    | wait => exact .goto hf.1 rfl (fun q => wait_of_mine (hf.2 rfl)) (fun _ _ => rfl) (.inl rfl) (by simp [hpc, Pc.hands])
    | mtx m => exact .goto hf.1 rfl (fun _ _ => id) (fun _ _ => rfl) (.inl rfl) (by simp [hpc, Pc.hands])
  | sleepSwitch l =>
    simp only [hpc] at hadv
    cases hadv
    refine .goto trivial rfl (fun _ _ => id) (fun q hq => ?_) (.inl rfl) (by simp [hpc, Pc.hands])
    simp [holding, withKern, hq]
  | relock l =>
    cases l with
    | wait =>
      simp only [hpc] at hadv hf
      split at hadv <;> cases hadv
      rename_i hw
      exact .goto ⟨hf, rfl⟩ rfl (fun q _ => wait_of_free hw) (fun _ _ => rfl) (.inl rfl) (by simp [hpc, Pc.hands])
    | mtx m =>
      simp only [hpc] at hadv hf
      split at hadv <;> cases hadv
      exact .lockTest m hf (by rw [hpc]; rfl)
  | unlockWake m i =>
    simp only [hpc] at hadv hf
    split at hadv
    · exact .wakeTurn hadv hf rfl (by simp [hpc, Pc.hands])
    · cases hadv
      exact .goto trivial rfl (fun _ _ => id) (fun _ _ => rfl) (.inl rfl) (by simp [hpc, Pc.hands])
  | forkReady np =>
    simp only [hpc] at hadv
    split at hadv <;> cases hadv
    exact .goto trivial rfl (fun _ _ => id) (fun _ _ => rfl) (.inl rfl) (by simp [hpc, Pc.hands])
  | exitAcquire status =>
    simp only [hpc] at hadv hf
    split at hadv <;> cases hadv
    rename_i hw
    exact .goto ⟨hf, rfl, fun q hq => absurd hq (Nat.not_lt_zero _)⟩ rfl (fun q _ => wait_of_free hw) (fun _ _ => rfl)
      (.inl rfl) (by simp [hpc, Pc.hands])
  | reparentWake status i j =>
    simp only [hpc] at hadv hf
    split at hadv
    · exact .wakeTurn hadv hf rfl (fun _ => rfl)
    · cases hadv
      exact .move hf (.inl rfl) (fun _ => rfl)
  | exitWake status r j =>
    simp only [hpc] at hadv hf
    split at hadv
    · exact .wakeTurn hadv hf rfl (fun _ => rfl)
    · cases hadv
      exact .move hf (.inl rfl) (fun _ => rfl)
  | exitRelease =>
    simp only [hpc] at hadv hf
    cases hadv
    exact .goto ⟨hf.1, hf.2.1⟩ rfl (fun q => wait_of_mine hf.2.2) (fun _ _ => rfl) (.inl rfl) (by simp [hpc, Pc.hands])
  | exitSwitch =>
    simp only [hpc] at hadv
    cases hadv
    refine .goto trivial rfl (fun _ _ => id) (fun q hq => ?_) (.inl rfl) (by simp [hpc, Pc.hands])
    simp [holding, hq]
  | waitAcquire =>
    simp only [hpc] at hadv hf
    split at hadv <;> cases hadv
    rename_i hw
    exact .goto ⟨hf, rfl⟩ rfl (fun q _ => wait_of_free hw) (fun _ _ => rfl) (.inl rfl) (by simp [hpc, Pc.hands])

end

theorem own_fork {mem : Bool} (hI : Inv s) (hr : (s.at p).state = .running)
    (hu : (s.at np).state = .unused) (hpc : s.pc p = .user) :
    Own s p (goto (goto { withKern s (Sched.forkChild s.k p np mem) with hist := s.hist.born p np } np .user) p
      (if mem then .forkParent np else .user)) := by
  have hne : p ≠ np := by
    rintro rfl
    simp [hr] at hu
  constructor
  · simp only [goto, update_self]
    cases mem with
    | false => trivial
    | true =>
      refine ⟨?_, ?_, ?_, ?_⟩
      · simpa [St.at, withKern, cores_forkChild, hne] using hr
      · simp [St.at, withKern, cores_forkChild]
      · simpa [St.at, withKern, cores_forkChild] using hI.forest.orphan np (Core.phase_unused.2 hu)
      · rw [creator_born_self]
        simp [Hist.born, hne]
  · intro q hq
    by_cases e : q = np
    · subst e
      exact .inr ⟨by simp [goto, hq], hu⟩
    · exact .inl (by simp [goto, withKern, hq, e])
  · exact fun _ _ => id
  · exact fun _ _ => rfl
  · intro r h
    simp only [goto, update_self] at h
    cases mem with
    | false => cases h
    | true =>
      cases h
      exact .inr hu
  · simp [hpc, Pc.hands]

theorem Own.stay (hpc : s.pc p = .user) (h : s'.pc = s.pc) (hw : s'.waitLock = s.waitLock)
    (hh : s'.held = s.held) : Own s p s' where
  fits := by
    rw [h, hpc]
    trivial
  pc q _ := .inl (by rw [h])
  wait q _ hq := by rw [hw, hq]
  held q _ := by rw [hh]
  child np hc := by
    rw [h, hpc] at hc
    cases hc
  hands hd := by
    rw [hpc] at hd
    cases hd

theorem own_create (s : St) (locked : Bool) (hpc : s.pc p = .user) : Own s p (sysMtxCreate s p locked) := by
  unfold sysMtxCreate
  split
  · exact .stay hpc rfl rfl rfl
  · split
    · exact .stay hpc rfl rfl rfl
    · exact .stay hpc rfl rfl rfl

theorem own_unlock {m : Mid} (hr : (s.at p).state = .running) (hpc : s.pc p = .user)
    (hs : sysMtxUnlock s p m = some s') : Own s p s' := by
  unfold sysMtxUnlock at hs
  split at hs
  · cases hs
  · split at hs <;> cases hs
    · exact .stay hpc rfl rfl rfl
    · exact .goto hr rfl (fun _ _ => id) (fun _ _ => rfl) (.inl rfl) (by simp [hpc, Pc.hands])

theorem own_start {c : Call} (hI : Inv s) (hr : (s.at p).state = .running)
    (hpc : s.pc p = .user) (hs : start s p c = some s') : Own s p s' := by
  have hd : ∀ c : Pc, (s.pc p).hands = true → c.hands = true := by simp [hpc, Pc.hands]
  unfold start at hs
  split at hs
  · cases hs
    exact own_create s _ hpc
  · split at hs
    · cases hs
      exact .stay hpc rfl rfl rfl
    · cases hs
      split
      · exact .move hr (.inl rfl) (hd _)
      · exact .stay hpc rfl rfl rfl
  · split at hs
    · cases hs
      exact .stay hpc rfl rfl rfl
    · exact own_unlock hr hpc hs
  · split at hs
    · rename_i h
      cases hs
      exact own_fork hI hr h.1 hpc
    · cases hs
  · cases hs
    exact .move hr (.inl rfl) (hd _)
  · cases hs
    exact .stay hpc rfl rfl rfl
  · split at hs
    · cases hs
      exact .stay hpc rfl rfl rfl
    · rename_i status hp
      cases hs
      exact .goto ⟨hr, hp, status_exits ..⟩ rfl (fun _ _ => id) (fun _ _ => rfl) (.inl rfl)
        (fun h => .inl (hd _ h))
  · cases hs
    exact .move hr (.inl rfl) (hd _)

theorem own_dispatch (hI : Inv s) (hs : dispatch s p = some s') : Own s p s' := by
  have hf := hI.fits p
  unfold dispatch at hs
  split at hs
  · rename_i h
    have hst : (s.at p).state = .runnable := h.1
    cases hs
    have hrun : (St.at (withKern s (resume s.k p)) p).state = .running := by
      simp [St.at, withKern, cores_resume]
    -- the thread was in user space or asleep
    split
    · rename_i l hpc
      exact .goto hrun rfl (fun _ _ => id) (fun _ _ => rfl) (.inl rfl) (by simp [hpc, Pc.hands])
    rename_i hna
    have hpc : s.pc p = .user := by
      cases hpc : s.pc p with
      | user => rfl
      | asleep l => exact absurd hpc (hna l)
      | _ =>
        rw [hpc] at hf
        simp [Fits, Exiting, hst] at hf
    rw [hpc]
    exact .goto trivial rfl (fun _ _ => id) (fun _ _ => rfl) (.inl rfl) (by simp [hpc, Pc.hands])
  · cases hs

theorem own_step (hI : Inv s) (hs : step s a = some s') : Own s a.actor s' := by
  unfold step at hs
  split at hs
  · cases hs
  split at hs
  · split at hs
    · rename_i h
      exact own_start hI h.1 h.2 hs
    · cases hs
  · exact own_advance hI hs
  · exact own_dispatch hI hs

/-! ## The invariant -/

theorem parent_of_step (he : Effect s a c g) (h : (c q).parent = some r) :
    (s.at q).parent = some r ∨ (a.actor = r ∧ s.pc r = .forkParent q) ∨
    (r = initSlot ∧ (s.at q).parent = some a.actor ∧ ∃ status, s.pc a.actor = .reparent status q) := by
  -- a change of one slot that leaves its parent as it was, or none
  have hkeep : ∀ (i : Slot) (x : Core), (update (cores s.k) i x q).parent = some r →
      (x.parent = (s.at i).parent ∨ x.parent = none) → (s.at q).parent = some r := by
    intro i x h hx
    by_cases e : q = i
    · subst e
      rw [update_self] at h
      rcases hx with hx | hx
      · exact hx.symm.trans h
      · simp [hx] at h
    · rwa [update_of_ne e] at h
  cases he with
  | quiet => exact .inl h
  | exit p status hp hst => exact .inl h
  | parent p fail np hpc =>
    by_cases e : q = np
    · subst e
      rw [update_self] at h
      cases h
      exact .inr (.inl ⟨rfl, hpc⟩)
    · rw [update_of_ne e] at h
      exact .inl h
  | adopt p fail status pp hpc hpar =>
    by_cases e : q = pp
    · subst e
      rw [update_self] at h
      cases h
      exact .inr (.inr ⟨rfl, hpar, status, hpc⟩)
    · rw [update_of_ne e] at h
      exact .inl h
  | fork p np mem hst hu =>
    refine .inl (hkeep _ _ h ?_)
    cases mem
    · exact .inr rfl
    · exact .inl rfl
  | reap p kids pp hpc hpar hh hz => exact .inl (hkeep _ _ h (.inr rfl))
  | _ => exact .inl (hkeep _ _ h (.inl rfl))

theorem hands_step (hI : Inv s) (hO : Own s a.actor s') (hK : Keeps (cores s.k) s.hist s'.hist)
    {c : Slot} (hc : (s.pc c).hands = true) :
    ((s'.pc c).hands = true ∧ s'.hist.uid c = s.hist.uid c) ∨ (s'.hist.life (s.hist.uid c)).zombie = true := by
  have hr : (s.at c).state = .running := by
    have hf := hI.fits c
    cases hpc : s.pc c with
    | reparent status i =>
      rw [hpc] at hf
      exact hf.1.1
    | reparentWake status i j =>
      rw [hpc] at hf
      exact hf.1.1
    | exitWake status r j =>
      rw [hpc] at hf
      exact hf.1.1
    | exitZombie status =>
      rw [hpc] at hf
      exact hf.1.1
    | _ => simp [hpc, Pc.hands] at hc
  have huid := hK.uid c (by simp [Core.phase_of_running hr])
  by_cases e : c = a.actor
  · subst e
    rcases hO.hands hc with h | h
    · exact .inl ⟨h, huid⟩
    · exact .inr h
  · rcases hO.pc c e with h | ⟨-, h⟩
    · exact .inl ⟨h ▸ hc, huid⟩
    · simp [hr] at h

theorem made_step (hI : Inv s) (hO : Own s a.actor s') (he : Effect s a (cores s'.k) s'.hist) : Made s' := by
  have hK := keeps_step hI.names he
  have hF := hI.forest
  have hN := hI.names
  intro q r hpar
  -- who is handing over stays so, or is a zombie by now
  have hhand : ∀ c, (s.pc c).hands = true → s.hist.uid c = s.hist.creator q → s'.hist.creator q = s.hist.creator q →
      (s'.hist.life (s'.hist.creator q)).zombie = true ∨
        ∃ c, (s'.pc c).hands = true ∧ s'.hist.uid c = s'.hist.creator q := by
    intro c hc hu hcr
    rcases hands_step hI hO hK hc with ⟨h1, h2⟩ | h
    · exact .inr ⟨c, h1, by rw [h2, hu, hcr]⟩
    · left
      rw [hcr, ← hu]
      exact h
  rcases parent_of_step he hpar with h | ⟨-, hpc⟩ | ⟨rfl, h, status, hpc⟩
  · have hq : (s.at q).phase ≠ .unused := by
      intro hu
      simp [hF.orphan q hu] at h
    have hr : (s.at r).phase ≠ .unused := by simp [hF.parent q r h]
    have hcr := hK.creator q hq
    rcases hI.made q r h with hu | ⟨rfl, hz | ⟨c, hc, hu⟩⟩
    · left
      rw [hK.uid r hr, hcr, hu]
    · refine .inr ⟨rfl, .inl ?_⟩
      rw [hcr]
      exact hK.zombie _ (hN.creator q hq) hz
    · exact .inr ⟨rfl, hhand c hc hu hcr⟩
  · have hf := hI.fits_at hpc
    obtain ⟨h1, h2, -, h4⟩ := hf
    left
    rw [hK.uid r (by simp [Core.phase_of_running h1]), hK.creator q (by simp [Core.phase_used.2 h2]), h4]
  · have hq : (s.at q).phase ≠ .unused := by
      intro hu
      simp [hF.orphan q hu] at h
    have hf := hI.fits_at hpc
    have hu : s.hist.uid a.actor = s.hist.creator q := by
      rcases hI.made q a.actor h with hu | ⟨e, -⟩
      · exact hu
      · exact absurd e hf.1.2.1
    exact .inr ⟨rfl, hhand a.actor (by rw [hpc]; rfl) hu (hK.creator q hq)⟩

theorem inv_step (hI : Inv s) (hs : step s a = some s') : Inv s' := by
  have he := step_effect hs
  have hO := own_step hI hs
  refine ⟨fun q => ?_, fun p q np hp hq => ?_, forest_step hI he, names_step hI he, made_step hI hO he⟩
  · by_cases e : q = a.actor
    · subst e
      exact hO.fits
    rcases hO.pc q e with h | ⟨h, -⟩
    · rw [h]
      exact (hI.fits q).keep (rely_step hI he e (hO.wait q e) (hO.held q e))
    · rw [h]
      trivial
  -- only the actor's child can be new, and a new child was not in use
  have hold : ∀ r, (s'.pc r).child = some np → (s.pc r).child = some np ∨ (r = a.actor ∧ (s.at np).state = .unused) := by
    intro r hr
    by_cases e : r = a.actor
    · subst e
      exact (hO.child np hr).imp_right (fun h => ⟨rfl, h⟩)
    · rcases hO.pc r e with h | ⟨h, -⟩
      · exact .inl (h ▸ hr)
      · rw [h] at hr
        cases hr
  have hused : ∀ r, (s.pc r).child = some np → (s.at np).state = .used := by
    intro r hr
    have hf := hI.fits r
    cases hpc : s.pc r with
    | forkParent n =>
      rw [hpc] at hf hr
      cases hr
      exact hf.2.1
    | forkReady n =>
      rw [hpc] at hf hr
      cases hr
      exact hf.2.1
    | _ => simp [hpc, Pc.child] at hr
  rcases hold p hp with h | ⟨h, hu⟩ <;> rcases hold q hq with h' | ⟨h', hu'⟩
  · exact hI.child p q np h h'
  · simp [hused p h] at hu'
  · simp [hused q h'] at hu
  · rw [h, h']

theorem inv_boot : Inv lifeBoot where
  fits _ := trivial
  child p q np h := by cases h
  forest := by
    constructor
    · decide
    · decide
    · decide
    · decide
  names := by
    constructor
    · exact fun _ _ => one_pos
    · have : ∀ q, (cores lifeBoot.k q).phase ≠ .unused → q = initSlot := by decide
      exact fun q r hq hr _ => (this q hq).trans (this r hr).symm
    · exact fun _ _ => one_pos
    · decide
    · decide
    · exact fun r hr => by cases hr
    · exact List.nodup_nil
  made q r h := by
    have : ∀ q, (cores lifeBoot.k q).parent = none := by decide
    simp [this q] at h

end Xv6.Life
