import Xv6.LifeModel
/-!
# LifeKill — whom `kill` reaches

`killed` lives in the slot. `freeproc` clears it and `allocproc` does not, so a new process starts with what the slot
was left with. `kkill` looks at `p->pid` alone, and a slot that is not in use has `pid` 0. A process is killed by
`setkilled` or by a `kill` with its own `pid` while it lives, and starts with `killed` clear, exactly as long as no
`kill` finds its `pid` in a slot that is not in use (`killsRight_iff_findsLive`).
-/
namespace Xv6.Life

open Function Sched

/-- **The step kills nobody it should not**: a process that `allocproc` returns is not killed, and a process is marked
only by its own `setkilled` or by a `kill` with its `pid` that finds it in use. -/
def KillsRight (s : St) (a : Act) : Prop :=
  ∀ s', step s a = some s' →
    (∀ p np, a = .start p (.fork np true) → (s'.at np).killed = false) ∧
    ∀ q, (s.at q).killed = false → (s'.at q).killed = true →
      a = .start q .setkilled ∨
      ∃ p fail, a = .advance p fail ∧ s.pc p = .kill (s.at q).pid q ∧ (s.at q).state ≠ .unused

/-- A `kill` that finds its `pid` finds it in a slot in use. -/
def findsLive (s : St) : Act → Prop
  | .advance p _ =>
    match s.pc p with
    | .kill pid i =>
      s.k.panic = none → ∀ q : Slot, q.val = i → s.held q = false → (s.k.proc q).pid = pid →
        (s.k.proc q).state ≠ .unused
    | _ => True
  | _ => True

def FreshSlots (c : Slot → Core) : Prop := ∀ q, (c q).state = .unused → (c q).killed = false

variable {q p i np : Slot} {s s' : St} {a : Act}

theorem FreshSlots.update {c : Slot → Core} (hF : FreshSlots c) {x : Core}
    (hx : x.state = .unused → x.killed = false) : FreshSlots (Function.update c q x) := by
  intro r hr
  by_cases e : r = q
  · subst e
    rw [update_self] at hr ⊢
    exact hx hr
  · rw [update_of_ne e] at hr ⊢
    exact hF r hr

theorem kill_finds {fail : Bool} {pid : Int} (hok : findsLive s (.advance p fail))
    (hs : step s (.advance p fail) = some s') (hpc : s.pc p = .kill pid i) (hpid : (s.at i).pid = pid) :
    (s.at i).state ≠ .unused := by
  unfold step at hs
  split at hs
  · cases hs
  rename_i hp
  simp only [findsLive, hpc] at hok
  simp only [advance, hpc, i.isLt, dif_pos] at hs
  split at hs
  · cases hs
  · rename_i hh
    exact hok (by simpa using hp) i rfl (by simpa using hh) hpid

theorem freshSlots_step (hF : FreshSlots (cores s.k)) (hok : findsLive s a)
    (hs : step s a = some s') : FreshSlots (cores s'.k) := by
  have he := step_effect hs
  generalize cores s'.k = c, s'.hist = g at he ⊢
  cases he with
  | quiet => exact hF
  | wake p fail i hi hst => exact hF.update (by simp)
  | kill p fail pid i hpc hpid =>
    have h := kill_finds hok hs hpc hpid
    refine hF.update (fun hu => absurd ?_ h)
    simp only at hu
    split at hu
    · cases hu
    · exact hu
  | setkilled p hst => exact hF.update (by simp [hst])
  | sleep p fail l hpc => exact hF.update (by simp)
  | dispatch p hst => exact hF.update (by simp)
  | fork p np mem hst hu =>
    apply hF.update
    cases mem
    · simp [unusedCore]
    · simp
  | parent p fail np hpc => exact hF.update (hF np)
  | ready p fail np hpc => exact hF.update (by simp)
  | exit p status hp hst => exact hF
  | adopt p fail status pp hpc hpar => exact hF.update (hF pp)
  | zombie p fail status hpc => exact hF.update (by simp)
  | reap p kids pp hpc hpar hh hz => exact hF.update (by simp [unusedCore])

theorem marked_by (hs : step s a = some s') (h0 : (s.at q).killed = false) (h1 : (s'.at q).killed = true) :
    a = .start q .setkilled ∨ ∃ p fail, a = .advance p fail ∧ s.pc p = .kill (s.at q).pid q := by
  have he := step_effect hs
  unfold St.at at h1
  generalize cores s'.k = c, s'.hist = g at he h1
  -- a change of one slot that leaves its mark as it was
  have hkeep : ∀ (i : Slot) (x : Core), (update (cores s.k) i x q).killed = true →
      x.killed = (s.at i).killed → False := by
    intro i x h hx
    by_cases e : q = i
    · subst e
      rw [update_self, hx, h0] at h
      cases h
    · rw [update_of_ne e] at h
      exact absurd (h0.symm.trans h) (by simp)
  cases he with
  | quiet => exact absurd (h0.symm.trans h1) (by simp)
  | exit p status hp hst => exact absurd (h0.symm.trans h1) (by simp)
  | kill p fail pid i hpc hpid =>
    by_cases e : q = i
    · subst e
      subst hpid
      exact .inr ⟨p, fail, rfl, hpc⟩
    · rw [update_of_ne e] at h1
      exact absurd (h0.symm.trans h1) (by simp)
  | setkilled p hst =>
    by_cases e : q = p
    · subst e
      exact .inl rfl
    · rw [update_of_ne e] at h1
      exact absurd (h0.symm.trans h1) (by simp)
  | fork p np mem hst hu =>
    by_cases e : q = np
    · subst e
      rw [update_self] at h1
      cases mem
      · simp [unusedCore] at h1
      · exact absurd (h0.symm.trans h1) (by simp)
    · rw [update_of_ne e] at h1
      exact absurd (h0.symm.trans h1) (by simp)
  | reap p kids pp hpc hpar hh hz =>
    by_cases e : q = pp
    · subst e
      simp [unusedCore] at h1
    · rw [update_of_ne e] at h1
      exact absurd (h0.symm.trans h1) (by simp)
  | wake p fail i hi hst => exact (hkeep _ _ h1 rfl).elim
  | sleep p fail l hpc => exact (hkeep _ _ h1 rfl).elim
  | dispatch p hst => exact (hkeep _ _ h1 rfl).elim
  | parent p fail np hpc => exact (hkeep _ _ h1 rfl).elim
  | ready p fail np hpc => exact (hkeep _ _ h1 rfl).elim
  | adopt p fail status pp hpc hpar => exact (hkeep _ _ h1 rfl).elim
  | zombie p fail status hpc => exact (hkeep _ _ h1 rfl).elim

theorem killed_of_fork (hF : FreshSlots (cores s.k))
    (hs : step s (.start p (.fork np true)) = some s') : (s'.at np).killed = false := by
  unfold step at hs
  split at hs
  · cases hs
  simp only at hs
  split at hs
  · simp only [start] at hs
    split at hs
    · rename_i h
      cases hs
      simp only [St.at, goto, withKern, cores_forkChild, update_self]
      exact hF np h.1
    · cases hs
  · cases hs

theorem kill_unused (fail : Bool) (hp : s.k.panic = none) (hh : s.held q = false)
    (hpc : s.pc p = .kill (s.at q).pid q) : ∃ s', step s (.advance p fail) = some s' ∧ (s'.at q).killed = true := by
  refine ⟨goto (withKern s (killOne s.k q)) p .user, ?_, ?_⟩
  · simp only [step, hp, advance, hpc, hh]
    simp [cores]
  · simp [St.at, goto, withKern, cores_killOne]

/-- **Where slots not in use have `killed` clear, a step kills nobody it should not exactly when a `kill` finds its
`pid` in a slot in use.** -/
theorem killsRight_step_iff (hF : FreshSlots (cores s.k)) : KillsRight s a ↔ findsLive s a := by
  constructor
  · intro hK
    cases a with
    | start p c => trivial
    | dispatch p => trivial
    | advance p fail =>
      simp only [findsLive]
      split
      · rename_i pid i hpc
        rintro hp q rfl hh rfl hu
        obtain ⟨s', hs', hk⟩ := kill_unused fail hp hh hpc
        rcases (hK s' hs').2 q (hF q hu) hk with h | ⟨-, -, -, -, h⟩
        · cases h
        · exact h hu
      · trivial
  · intro hok s' hs
    constructor
    · rintro p np rfl
      exact killed_of_fork hF hs
    · intro q h0 h1
      rcases marked_by hs h0 h1 with h | ⟨p, fail, rfl, hpc⟩
      · exact .inl h
      · exact .inr ⟨p, fail, rfl, hpc, kill_finds hok hs hpc rfl⟩

theorem freshSlots_boot : FreshSlots (cores lifeBoot.k) := by
  unfold FreshSlots
  decide

/-- **`kill` reaches no later process, exactly as long as it finds its `pid` in slots in use.**  For any interleaving of
`fork`, `exit`, `wait` and `kill` with any `pid`: every step kills nobody it should not, if and only if no `kill` of the
run finds its `pid` in a slot that is not in use. -/
theorem killsRight_iff_findsLive (acts : List Act) :
    Run.allSteps step KillsRight lifeBoot acts ↔ Run.allSteps step findsLive lifeBoot acts :=
  Run.allSteps_iff (fun _ _ _ hF hok => freshSlots_step hF hok) (fun _ _ => killsRight_step_iff) acts _
    freshSlots_boot

def nextSlot : Slot := ⟨1, one_lt_nproc⟩

/-- `init` calls `kill(0)`, whose loop passes `init` and stops at the first slot that is not in use. -/
def killZero : List Act :=
  [.dispatch initSlot, .start initSlot (.kill 0), .advance initSlot false, .advance initSlot false]

/-- **The next process to be made is born killed.** -/
theorem kill_zero_reaches_next_process :
    (Run.run step lifeBoot (killZero ++ [.start initSlot (.fork nextSlot true)])).map
      (fun s => ((s.at nextSlot).state, (s.at nextSlot).pid, (s.at nextSlot).killed)) = some (.used, 2, true) ∧
    ¬ Run.allSteps step KillsRight lifeBoot (killZero ++ [.start initSlot (.fork nextSlot true)]) := by
  have hrun : ((Run.run step lifeBoot killZero).bind (fun s => step s (.start initSlot (.fork nextSlot true)))).map
      (fun s => (s.at nextSlot).killed) = some true := by decide +kernel
  refine ⟨by decide +kernel, fun h => ?_⟩
  obtain ⟨s', hs', hk⟩ := Option.map_eq_some_iff.1 hrun
  obtain ⟨t, ht, hs⟩ := Option.bind_eq_some_iff.1 hs'
  have := (Run.allSteps_last killZero _ t h ht s' hs).1 initSlot nextSlot rfl
  simp [hk] at this

end Xv6.Life
