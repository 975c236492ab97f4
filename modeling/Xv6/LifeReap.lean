import Xv6.LifeRun
/-!
# LifeReap — `kwait` returns every child once

A `kwait` that returns a child takes it out of the table; what it returned is in the history. In every run a child is
returned at most once, as a zombie, to its creator or to `init` after the creator has exited, with the status it passed
to `exit`; no other step takes a zombie away; and a zombie always has a parent that is alive (`reaped_once`).
-/
namespace Xv6.Life

open Function Sched

/-- No child has been returned twice, and every zombie has a parent that is alive. -/
def Reapable (s : St) : Prop :=
  (s.hist.reaps.map Reap.child).Nodup ∧
  ∀ z, (s.at z).state = .zombie → ∃ q, (s.at z).parent = some q ∧ (s.at q).phase = .alive

/-- Zombie `z` is where it was, with its status. -/
def Waits (s s' : St) (z : Slot) : Prop :=
  (s'.at z).state = .zombie ∧ (s'.at z).xstate = (s.at z).xstate ∧ s'.hist.uid z = s.hist.uid z

variable {s : St} {a : Act} {c : Slot → Core} {g : Hist} {z p : Slot}

/-- **The step reaps as it should**: nobody, and every zombie is left where it is; or, in a `kwait` whose `copyout` did
not fail, one child of the caller that is a zombie, with the status it passed to `exit`, and the caller is its creator or
is `init` and the creator has exited. -/
def ReapsRight (s : St) (a : Act) : Prop :=
  ∀ s', step s a = some s' →
    (s'.hist.reaps = s.hist.reaps ∧ ∀ z, (s.at z).state = .zombie → Waits s s' z) ∨
    ∃ p z, a = .advance p false ∧ (s.at z).state = .zombie ∧ (s.at z).parent = some p ∧
      s'.hist.reaps = ⟨s.hist.uid z, s.hist.uid p, (s.at z).pid, (s.at z).xstate⟩ :: s.hist.reaps ∧
      s.hist.status z = some (s.at z).xstate ∧
      (s.hist.uid p = s.hist.creator z ∨
        (p = initSlot ∧ (s.hist.life (s.hist.creator z)).zombie = true)) ∧
      ∀ y, y ≠ z → (s.at y).state = .zombie → Waits s s' y

theorem Inv.reapable (hI : Inv s) : Reapable s := by
  refine ⟨hI.names.once, fun z hz => ?_⟩
  have hph := Core.phase_zombie.2 hz
  have hne : z ≠ initSlot := by
    rintro rfl
    simp [hI.forest.init] at hph
  obtain ⟨q, hq⟩ := Option.ne_none_iff_exists'.1 (hI.forest.has z hne (.inr hph))
  exact ⟨q, hq, hI.forest.parent z q hq⟩

theorem zombie_stays (hI : Inv s) (he : Effect s a c g) (hz : (s.at z).state = .zombie) :
    ((c z).state = .zombie ∧ (c z).xstate = (s.at z).xstate) ∨
    ∃ p kids, a = .advance p false ∧ s.pc p = .waitScan z kids ∧ (s.at z).parent = some p ∧
      c = update (cores s.k) z unusedCore ∧ g = s.hist.reap p z (s.k.proc z) := by
  -- a change of another slot, or one that keeps a zombie as it is
  have hkeep : ∀ (i : Slot) (x : Core),
      (i = z → x.state = .zombie ∧ x.xstate = (s.at z).xstate) →
      (update (cores s.k) i x z).state = .zombie ∧
        (update (cores s.k) i x z).xstate = (s.at z).xstate := by
    intro i x hx
    by_cases e : z = i
    · subst e
      rw [update_self]
      exact hx rfl
    · rw [update_of_ne e]
      exact ⟨hz, rfl⟩
  -- a slot that was found in another state
  have hother : ∀ (i : Slot) (x : Core), (s.at i).state ≠ .zombie →
      (update (cores s.k) i x z).state = .zombie ∧
        (update (cores s.k) i x z).xstate = (s.at z).xstate := by
    intro i x hi
    refine hkeep i x (fun e => ?_)
    rw [e] at hi
    exact absurd hz hi
  cases he with
  | quiet => exact .inl ⟨hz, rfl⟩
  | exit p status hp hst => exact .inl ⟨hz, rfl⟩
  | wake p fail i hi hst => exact .inl (hother i _ (by simp [hst]))
  | kill p fail pid i hpc hpid =>
    refine .inl (hkeep i _ ?_)
    rintro rfl
    simp [hz]
  | setkilled p hst => exact .inl (hother p _ (by simp [hst]))
  | sleep p fail l hpc =>
    have hr := hI.fits_at hpc
    exact .inl (hother p _ (by simp [show (s.at p).state = .running from hr]))
  | dispatch p hst => exact .inl (hother p _ (by simp [hst]))
  | fork p np mem hst hu => exact .inl (hother np _ (by simp [hu]))
  | parent p fail np hpc =>
    have hr := hI.fits_at hpc
    exact .inl (hother np _ (by simp [hr.2.1]))
  | ready p fail np hpc =>
    have hr := hI.fits_at hpc
    exact .inl (hother np _ (by simp [hr.2.1]))
  | adopt p fail status pp hpc hpar =>
    refine .inl (hkeep pp _ ?_)
    rintro rfl
    exact ⟨hz, rfl⟩
  | zombie p fail status hpc =>
    have hr := hI.fits_at hpc
    exact .inl (hother p _ (by simp [hr.1.1]))
  | reap p kids pp hpc hpar hh hzp =>
    by_cases e : z = pp
    · subst e
      exact .inr ⟨p, kids, rfl, hpc, hpar, rfl, rfl⟩
    · rw [update_of_ne e]
      exact .inl ⟨hz, rfl⟩

theorem Inv.reaper (hI : Inv s) {i : Nat} {kids : Bool} (hpc : s.pc p = .waitScan i kids)
    (hpar : (s.at z).parent = some p) :
    s.hist.uid p = s.hist.creator z ∨ (p = initSlot ∧ (s.hist.life (s.hist.creator z)).zombie = true) := by
  have hf := hI.fits_at hpc
  rcases hI.made z p hpar with h | ⟨h, hz | ⟨c, hc, -⟩⟩
  · exact .inl h
  · exact .inr ⟨h, hz⟩
  -- nobody else has `wait_lock`
  exfalso
  have hfc := hI.fits c
  have hw : s.waitLock = some c := by
    cases hpcc : s.pc c with
    | reparent status i =>
      rw [hpcc] at hfc
      exact hfc.2.1
    | reparentWake status i j =>
      rw [hpcc] at hfc
      exact hfc.2.1
    | exitWake status r j =>
      rw [hpcc] at hfc
      exact hfc.2.1
    | exitZombie status =>
      rw [hpcc] at hfc
      exact hfc.2.1
    | _ => simp [hpcc, Pc.hands] at hc
  rw [hf.2] at hw
  cases hw
  simp [hpc, Pc.hands] at hc

theorem reaps_of_effect (he : Effect s a c g) : g.reaps = s.hist.reaps ∨
    ∃ p kids, ∃ z : Slot, a = .advance p false ∧ s.pc p = .waitScan z kids ∧ (s.at z).parent = some p ∧
      (s.at z).state = .zombie ∧ c = update (cores s.k) z unusedCore ∧ g = s.hist.reap p z (s.k.proc z) := by
  cases he with
  | reap p kids pp hpc hpar hh hz => exact .inr ⟨p, kids, pp, rfl, hpc, hpar, hz, rfl, rfl⟩
  | fork p np mem hst hu => exact .inl rfl
  | exit p status hp hst => exact .inl rfl
  | zombie p fail status hpc => exact .inl rfl
  | _ => exact .inl rfl

theorem Inv.reapsRight (hI : Inv s) (a : Act) : ReapsRight s a := by
  intro s' hs
  have he := step_effect hs
  have hK := keeps_step hI.names he
  have huid : ∀ z, (s.at z).state = .zombie → s'.hist.uid z = s.hist.uid z := by
    intro z hz
    exact hK.uid z (by simp [Core.phase_zombie.2 hz])
  rcases reaps_of_effect he with h | ⟨p, kids, z, rfl, hpc, hpar, hz, hc, hg⟩
  · refine .inl ⟨h, fun z hz => ?_⟩
    rcases zombie_stays hI he hz with ⟨h1, h2⟩ | ⟨p, kids, -, -, -, -, hg⟩
    · exact ⟨h1, h2, huid z hz⟩
    · rw [hg] at h
      simp [Hist.reap] at h
  · refine .inr ⟨p, z, rfl, hz, hpar, ?_, hI.names.status z (Core.phase_zombie.2 hz), hI.reaper hpc hpar,
      fun y hy hyz => ?_⟩
    · rw [hg]
      rfl
    · have hat : s'.at y = s.at y := by
        unfold St.at
        rw [hc, update_of_ne hy]
      exact ⟨by rw [hat, hyz], by rw [hat], huid y hyz⟩

/-- **Every exited process is reaped at most once, by the right parent, and never becomes unreapable.**  For any
interleaving of `fork`, `exit`, `kill` and `wait`, in every state of the run no child has been returned twice and every
zombie has a parent that is alive, and every step of the run reaps as it should. -/
theorem reaped_once (acts : List Act) :
    Run.allStates step Reapable lifeBoot acts ∧ Run.allSteps step ReapsRight lifeBoot acts := by
  constructor
  · refine Run.allStates_mono (fun _ (hI : Inv _) => hI.reapable) acts _ ?_
    exact Run.allStates_of_allSteps (fun _ _ _ hI _ => inv_step hI) acts _ inv_boot (Run.allSteps_true acts _)
  · have hiff : ∀ s a, Inv s → (ReapsRight s a ↔ True) := fun s a hI => iff_true_intro (hI.reapsRight a)
    exact (Run.allSteps_iff (fun _ _ _ hI _ => inv_step hI) hiff acts _ inv_boot).2 (Run.allSteps_true acts _)

/-- From every process the pointers to the parents lead to `init`, by processes that are alive, and there they end. -/
def Rooted (s : St) : Prop :=
  (s.at initSlot).parent = none ∧ ∀ q, (s.at q).phase = .alive ∨ (s.at q).phase = .zombie →
    Relation.ReflTransGen (fun q r => (s.at q).parent = some r ∧ (s.at r).phase = .alive) q initSlot

/-- Everybody but `init` is younger than its creator. -/
def Younger (g : Hist) : Prop := ∀ u < g.births, u ≠ g.uid initSlot → (g.life u).creator < u

theorem younger_step (hI : Inv s) (h : Younger s.hist) (he : Effect s a c g) : Younger g := by
  have hinit := (keeps_step hI.names he).uid initSlot (by simp [hI.forest.init])
  intro u hu hne
  rw [hinit] at hne
  cases he with
  | fork p np mem hst _ =>
    have hp := hI.names.lt p (by simp [Core.phase, phaseOf, hst])
    by_cases e : u = s.hist.births
    · simpa [Hist.born, e] using hp
    · simpa [Hist.born, e] using h u (lt_of_le_of_ne (Nat.le_of_lt_succ hu) e) hne
  | exit p _ _ _ => by_cases e : u = s.hist.uid p <;> simpa [Hist.exits, e] using h u hu hne
  | zombie p _ _ _ => by_cases e : u = s.hist.uid p <;> simpa [Hist.dies, e] using h u hu hne
  | _ => exact h u hu hne

theorem root_step (hI : Inv s) (h : (s.at initSlot).parent = none) (he : Effect s a c g) : (c initSlot).parent = none := by
  rw [Option.eq_none_iff_forall_not_mem]
  intro r hr
  rcases parent_of_step he hr with hpar | ⟨-, hpc⟩ | ⟨-, hpar, -⟩
  · simp [h] at hpar
  · -- `init` is no child that is being made
    have hf := hI.fits_at hpc
    have hused := Core.phase_used.2 hf.2.1
    simp [hI.forest.init] at hused
  · simp [h] at hpar

theorem Inv.rooted (hI : Inv s) (hroot : (s.at initSlot).parent = none) (h : Younger s.hist) : Rooted s := by
  refine ⟨hroot, fun q hq => ?_⟩
  induction hn : s.hist.uid q using Nat.strong_induction_on generalizing q with
  | _ n ih =>
    by_cases e : q = initSlot
    · rw [e]
    obtain ⟨r, hr⟩ := Option.ne_none_iff_exists'.1 (hI.forest.has q e hq)
    have hlive := hI.forest.parent q r hr
    have hused : (s.at q).phase ≠ .unused := by rcases hq with h | h <;> simp [h]
    refine .head ⟨hr, hlive⟩ ?_
    -- the parent is the older creator, or `init`
    rcases hI.made q r hr with hu | ⟨rfl, -⟩
    · refine ih _ ?_ r (.inl hlive) rfl
      rw [hu, ← hn]
      exact h _ (hI.names.lt q hused) (fun h' => e (hI.names.inj q _ hused (by simp [hI.forest.init]) h'))
    · exact .refl

/-- **The process tree** in every state of every interleaving of `fork`, `exit`, `kill` and `wait`. -/
theorem process_tree (acts : List Act) : Run.allStates step Rooted lifeBoot acts := by
  have hstep : ∀ (s : St) (a : Act) (s' : St), (Inv s ∧ (s.at initSlot).parent = none ∧ Younger s.hist) → True →
      step s a = some s' → Inv s' ∧ (s'.at initSlot).parent = none ∧ Younger s'.hist := by
    rintro s a s' ⟨hI, hroot, hy⟩ - hs
    have he := step_effect hs
    exact ⟨inv_step hI hs, root_step hI hroot he, younger_step hI hy he⟩
  have hboot : Younger lifeBoot.hist := fun u hu hne => absurd (Nat.lt_one_iff.1 hu) hne
  have hinv := Run.allStates_of_allSteps hstep acts _ ⟨inv_boot, rfl, hboot⟩ (Run.allSteps_true acts _)
  exact Run.allStates_mono (fun s h => h.1.rooted h.2.1 h.2.2) acts _ hinv

end Xv6.Life
