import Xv6.LifeRun
/-!
# LifeMutex — the kernel's mutexes

A mutex is handed on by `wakeup`: the process that unlocks it wakes every sleeper under the mutex's spinlock, and each
of them tests `locked` again. When only the process that last got a mutex unlocks it, at most one process is between
`mtx_lock` and `mtx_unlock`, `owner` names it, and no process sleeps on a mutex that is free (`mutex_safe`). The owner
of a locked mutex is alive exactly as long as no process exits with a mutex (`ownersAlive_iff_letsGo`): `kexit` unlocks
nothing.
-/
namespace Xv6.Life

open Function Option Sched

/-! ## What a step does to the mutexes -/

/-- What holds where a thread is, for the mutexes. -/
def MFits (s : St) (p : Slot) : Pc → Prop
  | .lockAcquire m | .asleep (.mtx m) | .relock (.mtx m) => (s.mtx m).used = true
  | .sleepLock (.mtx m) => (s.mtx m).used = true ∧ s.spin m = some p ∧ (s.mtx m).locked = true
  | .sleepRelease (.mtx m) =>
    (s.mtx m).used = true ∧ s.spin m = some p ∧ (s.mtx m).locked = true ∧ s.held p = true
  | .sleepSwitch (.mtx m) => (s.mtx m).used = true ∧ s.held p = true
  | .unlockWake m _ => (s.mtx m).used = true ∧ s.spin m = some p
  | _ => True

def taken (s : St) (p : Slot) (m : Mid) : St :=
  noteOwner (setMutex s m ⟨true, true, some p⟩) p m

def dropped (s : St) (p : Slot) (m : Mid) : St :=
  { setSpin (setMutex s m ⟨true, false, none⟩) m (some p) with
    inside := update s.inside m ((s.inside m).erase p) }

/-- **The steps, by what they do to the mutexes.** -/
inductive Mutexes (s : St) (p : Slot) (a : Act) (s' : St) : Prop
  | quiet : s'.mtx = s.mtx → s'.spin = s.spin → s'.acquired = s.acquired → s'.last = s.last → s'.inside = s.inside →
      MFits s' p (s'.pc p) → (∀ m, s'.pc p ≠ .sleepSwitch (.mtx m)) → (∀ m i, s.pc p ≠ .unlockWake m i) →
      Mutexes s p a s'
  | create (m : Mid) : (s.at p).state = .running → s.pc p = .user → (s.mtx m).used = false → s' = taken s p m →
      Mutexes s p a s'
  | createFree (m : Mid) : s.pc p = .user → (s.mtx m).used = false → s' = setMutex s m ⟨true, false, none⟩ →
      Mutexes s p a s'
  | take (m : Mid) : (s.at p).state = .running → (s.pc p = .lockAcquire m ∨ s.pc p = .relock (.mtx m)) →
      s.spin m = none → (s.mtx m).locked = false → s' = goto (taken s p m) p .user → Mutexes s p a s'
  | wait (m : Mid) : (s.pc p = .lockAcquire m ∨ s.pc p = .relock (.mtx m)) → s.spin m = none →
      (s.mtx m).used = true → (s.mtx m).locked = true → s' = goto (setSpin s m (some p)) p (.sleepLock (.mtx m)) →
      Mutexes s p a s'
  | release (m : Mid) : s.pc p = .sleepRelease (.mtx m) → s' = goto (setSpin s m none) p (.sleepSwitch (.mtx m)) →
      Mutexes s p a s'
  | unlock (m : Mid) (id : Int) : a = .start p (.unlock id) → mutexOf id = some m → s.pc p = .user → s.spin m = none →
    (s.mtx m).used = true → (s.mtx m).locked = true →
      s' = goto (dropped s p m) p (.unlockWake m 0) → Mutexes s p a s'
  | wake (m : Mid) (i : Slot) : s.pc p = .unlockWake m i → (i ≠ p → s.held i = false) →
      s' = goto (withKern s (wakeOne (some p) (.other m) s.k i)) p (.unlockWake m (i + 1)) → Mutexes s p a s'
  | woken (m : Mid) (i : Nat) : s.pc p = .unlockWake m i → nproc ≤ i → s' = goto (setSpin s m none) p .user →
      Mutexes s p a s'

theorem mfits_goto (s : St) (p q : Slot) (c d : Pc) : MFits (goto s q d) p c ↔ MFits s p c := by
  cases c with
  | sleepLock l => cases l <;> exact Iff.rfl
  | sleepRelease l => cases l <;> exact Iff.rfl
  | sleepSwitch l => cases l <;> exact Iff.rfl
  | asleep l => cases l <;> exact Iff.rfl
  | relock l => cases l <;> exact Iff.rfl
  | _ => exact Iff.rfl

variable {s s' s1 : St} {a : Act} {p q i o : Slot} {m : Mid} {c next : Pc} {chan : Chan} {fail : Bool}
  {g : Hist}

theorem Mutexes.move
    (h : (s1.mtx, s1.spin, s1.acquired, s1.last, s1.inside) = (s.mtx, s.spin, s.acquired, s.last, s.inside))
    (hf : MFits s1 p c)
    (hsw : ∀ m, c ≠ .sleepSwitch (.mtx m)) (hun : ∀ m i, s.pc p ≠ .unlockWake m i) : Mutexes s p a (goto s1 p c) := by
  simp only [Prod.mk.injEq] at h
  refine .quiet h.1 h.2.1 h.2.2.1 h.2.2.2.1 h.2.2.2.2 ?_ ?_ hun
  · rw [mfits_goto]
    simpa [goto] using hf
  · simpa [goto] using hsw

theorem Mutexes.stay (hpc : s.pc p = .user) (h : s'.pc p = .user) (hm : s'.mtx = s.mtx)
    (hs : s'.spin = s.spin) (ha : s'.acquired = s.acquired) (hl : s'.last = s.last) (hi : s'.inside = s.inside) :
    Mutexes s p a s' := by
  refine .quiet hm hs ha hl hi ?_ ?_ ?_
  · rw [h]
    trivial
  · simp [h]
  · simp [hpc]

theorem mutexes_create (s : St) (locked : Bool) (hr : (s.at p).state = .running) (hpc : s.pc p = .user) :
    Mutexes s p a (sysMtxCreate s p locked) := by
  unfold sysMtxCreate
  split
  · exact .stay hpc hpc rfl rfl rfl rfl rfl
  rename_i m hm
  have hu : (s.mtx m).used = false := by simpa using List.find?_some hm
  split
  · exact .create m hr hpc hu rfl
  · exact .createFree m hpc hu rfl

theorem mutexes_lockTest (hr : (s.at p).state = .running)
    (hpc : s.pc p = .lockAcquire m ∨ s.pc p = .relock (.mtx m)) (hs : s.spin m = none)
    (hu : (s.mtx m).used = true) : Mutexes s p a (lockTest s p m) := by
  unfold lockTest
  split
  · rename_i h
    exact .wait m hpc hs hu h rfl
  · rename_i h
    refine .take m hr hpc hs (by simpa using h) ?_
    simp [taken, hu]

theorem mutexes_unlock {id : Int} (hid : mutexOf id = some m)
    (hpc : s.pc p = .user) (hs : sysMtxUnlock s p m = some s') : Mutexes s p (.start p (.unlock id)) s' := by
  unfold sysMtxUnlock at hs
  split at hs
  · cases hs
  rename_i hsp
  split at hs <;> cases hs
  · exact .stay hpc hpc rfl rfl rfl rfl rfl
  · rename_i h
    simp only [Bool.or_eq_true, Bool.not_eq_true', not_or, Bool.not_eq_false] at h
    refine .unlock m id rfl hid hpc (by simpa using hsp) h.1 h.2 ?_
    simp [dropped, h.1]

theorem mutexes_start {c : Call} (hr : (s.at p).state = .running) (hpc : s.pc p = .user)
    (hs : start s p c = some s') : Mutexes s p (.start p c) s' := by
  have hun : ∀ m i, s.pc p ≠ .unlockWake m i := by simp [hpc]
  unfold start at hs
  split at hs
  · cases hs
    exact mutexes_create s _ hr hpc
  · split at hs
    · cases hs
      exact .stay hpc hpc rfl rfl rfl rfl rfl
    cases hs
    split
    · rename_i hu
      exact .move rfl hu nofun hun
    · exact .stay hpc hpc rfl rfl rfl rfl rfl
  · split at hs
    · cases hs
      exact .stay hpc hpc rfl rfl rfl rfl rfl
    · rename_i hid
      exact mutexes_unlock hid hpc hs
  · rename_i np mem
    split at hs
    · cases hs
      cases mem
      · exact .move rfl trivial nofun hun
      · exact .move rfl trivial nofun hun
    · cases hs
  · cases hs
    exact .move rfl trivial nofun hun
  · cases hs
    exact .stay hpc hpc rfl rfl rfl rfl rfl
  · split at hs
    · cases hs
      exact .stay hpc hpc rfl rfl rfl rfl rfl
    · cases hs
      exact .move rfl trivial nofun hun
  · cases hs
    exact .move rfl trivial nofun hun

theorem mutexes_advance (hI : Inv s) (hM : MFits s p (s.pc p)) (hs : advance s p fail = some s') : Mutexes s p a s' := by
  have hf := hI.fits p
  unfold advance at hs
  cases hpc : s.pc p with
  | lockAcquire m =>
    simp only [hpc] at hs hf hM
    split at hs <;> cases hs
    rename_i hsp
    exact mutexes_lockTest hf (.inl hpc) (by simpa using hsp) hM
  | sleepLock l =>
    simp only [hpc] at hs hM
    split at hs <;> cases hs
    refine .move rfl ?_ (by simp) (by simp [hpc])
    cases l with
    | wait => trivial
    | mtx m => exact ⟨hM.1, hM.2.1, hM.2.2, by simp [holding]⟩
  | sleepRelease l =>
    simp only [hpc] at hs
    cases hs
    cases l with
    | wait => exact .move rfl trivial (by simp) (by simp [hpc])
    | mtx m => exact .release m hpc rfl
  | sleepSwitch l =>
    simp only [hpc] at hs hM
    cases hs
    refine .move rfl ?_ (by simp) (by simp [hpc])
    cases l with
    | wait => trivial
    | mtx m => exact hM.1
  | relock l =>
    cases l with
    | wait =>
      simp only [hpc] at hs
      split at hs <;> cases hs
      exact .move rfl trivial (by simp) (by simp [hpc])
    | mtx m =>
      simp only [hpc] at hs hf hM
      split at hs <;> cases hs
      rename_i hsp
      exact mutexes_lockTest hf (.inr hpc) (by simpa using hsp) hM
  | unlockWake m i =>
    simp only [hpc, wakeTurn] at hs
    split at hs
    · rename_i hi
      split at hs
      · cases hs
      · rename_i hh
        cases hs
        refine .wake m ⟨i, hi⟩ hpc (fun hne => ?_) rfl
        simpa [hne] using hh
    · rename_i hi
      cases hs
      exact .woken m i hpc (by omega) rfl
  | _ =>
    -- the other sections leave the mutexes alone, and lead to none that concerns one
    simp only [hpc, wakeTurn] at hs
    repeat' split at hs
    all_goals cases hs
    all_goals exact .move rfl trivial (by simp) (by simp [hpc])

theorem mutexes_dispatch (hI : Inv s) (hM : MFits s p (s.pc p)) (hs : dispatch s p = some s') : Mutexes s p a s' := by
  have hf := hI.fits p
  unfold dispatch at hs
  split at hs
  · rename_i h
    have hst : (s.at p).state = .runnable := h.1
    cases hs
    split
    · rename_i l hpc
      rw [hpc] at hM
      refine .move rfl ?_ nofun (by simp [hpc])
      cases l with
      | wait => trivial
      | mtx m => exact hM
    · have hun : ∀ m i, s.pc p ≠ .unlockWake m i := by
        intro m i hpc
        rw [hpc] at hf
        exact absurd (hst.symm.trans hf) (by simp)
      have hsw : ∀ m, s.pc p ≠ .sleepSwitch (.mtx m) := by
        intro m hpc
        rw [hpc] at hf
        exact absurd (hst.symm.trans hf) (by simp)
      refine .move rfl ?_ hsw hun
      exact hM
  · cases hs

theorem mutexes_step (hI : Inv s) (hM : MFits s a.actor (s.pc a.actor))
    (hs : step s a = some s') : Mutexes s a.actor a s' := by
  unfold step at hs
  split at hs
  · cases hs
  split at hs
  · split at hs
    · rename_i h
      exact mutexes_start h.1 h.2 hs
    · cases hs
  · exact mutexes_advance hI hM hs
  · exact mutexes_dispatch hI hM hs

/-! ## Sleepers -/

/-- `q` sleeps on mutex `m`, or is about to and has let go of its spinlock. -/
def Sleeps (s : St) (q : Slot) (m : Mid) : Prop :=
  s.pc q = .sleepSwitch (.mtx m) ∨ ((s.at q).state = .sleeping ∧ (s.at q).chan = some (.other m))

/-- A sleeper will be woken: the mutex is locked, or the process that unlocked it has not come to the sleeper yet. -/
def Awaited (s : St) (q : Slot) (m : Mid) : Prop :=
  (s.mtx m).locked = true ∨ ∃ r i, s.pc r = .unlockWake m i ∧ i ≤ q.val

theorem asleep_of_effect {c : Slot → Core} (he : Effect s a c g)
    (hst : (c q).state = .sleeping) (hch : (c q).chan = some (.other m)) : Sleeps s q m := by
  -- a change of one slot after which it does not sleep
  have hkeep : ∀ (i : Slot) (x : Core), (update (cores s.k) i x q).state = .sleeping →
      (update (cores s.k) i x q).chan = some (.other m) →
      (x.state = .sleeping → x.state = (s.at i).state ∧ x.chan = (s.at i).chan) → Sleeps s q m := by
    intro i x h1 h2 hx
    by_cases e : q = i
    · subst e
      rw [update_self] at h1 h2
      obtain ⟨e1, e2⟩ := hx h1
      exact .inr ⟨e1 ▸ h1, e2 ▸ h2⟩
    · rw [update_of_ne e] at h1 h2
      exact .inr ⟨h1, h2⟩
  cases he with
  | quiet => exact .inr ⟨hst, hch⟩
  | exit p status hp h => exact .inr ⟨hst, hch⟩
  | sleep p fail l hpc =>
    by_cases e : q = p
    · subst e
      rw [update_self] at hch
      cases l with
      | wait => cases hch
      | mtx m' =>
        have : m' = m := by simpa [Lk.chan, Fin.ext_iff] using hch
        rw [this] at hpc
        exact .inl hpc
    · rw [update_of_ne e] at hst hch
      exact .inr ⟨hst, hch⟩
  | wake p fail i hi h => exact hkeep _ _ hst hch nofun
  | kill p fail pid i hpc hpid =>
    refine hkeep _ _ hst hch (fun h => ?_)
    simp only at h
    split at h
    · cases h
    · rename_i h'
      exact absurd h h'
  | setkilled p h => exact hkeep _ _ hst hch (fun _ => ⟨rfl, rfl⟩)
  | dispatch p h => exact hkeep _ _ hst hch nofun
  | fork p np mem h hu =>
    refine hkeep _ _ hst hch (fun h => ?_)
    cases mem <;> cases h
  | parent p fail np hpc => exact hkeep _ _ hst hch (fun _ => ⟨rfl, rfl⟩)
  | ready p fail np hpc => exact hkeep _ _ hst hch nofun
  | adopt p fail status pp hpc hpar => exact hkeep _ _ hst hch (fun _ => ⟨rfl, rfl⟩)
  | zombie p fail status hpc => exact hkeep _ _ hst hch nofun
  | reap p kids pp hpc hpar hh hz => exact hkeep _ _ hst hch nofun

/-! ## The invariant of the mutexes -/

/-- A mutex and the processes between `mtx_lock` and `mtx_unlock` on it. -/
def Region (s : St) (m : Mid) : Prop :=
  ((s.mtx m).locked = false ∧ s.inside m = []) ∨
  ∃ p, (s.mtx m).locked = true ∧ (s.mtx m).owner = some p ∧ s.last m = some p ∧ s.inside m = [p]

structure MInv (s : St) : Prop where
  fits : ∀ p, MFits s p (s.pc p)
  used : ∀ m, (s.mtx m).locked = true → (s.mtx m).used = true
  sleeps : ∀ q m, Sleeps s q m → Awaited s q m

theorem MInv.fits_at (hM : MInv s) (hpc : s.pc p = c) : MFits s p c := hpc ▸ hM.fits p

/-- What the others rely on in the mutexes. -/
structure MRely (s s' : St) (q : Slot) : Prop where
  used : ∀ m, (s.mtx m).used = true → (s'.mtx m).used = true
  spin : ∀ m, s.spin m = some q → s'.spin m = some q
  locked : ∀ m, s.spin m = some q → (s.mtx m).used = true → (s.mtx m).locked = true → (s'.mtx m).locked = true
  held : s'.held q = s.held q

theorem MFits.keep (hR : MRely s s' q) (h : MFits s q c) : MFits s' q c := by
  cases c with
  | lockAcquire m => exact hR.used m h
  | asleep l =>
    cases l with
    | wait => trivial
    | mtx m => exact hR.used m h
  | relock l =>
    cases l with
    | wait => trivial
    | mtx m => exact hR.used m h
  | sleepLock l =>
    cases l with
    | wait => trivial
    | mtx m => exact ⟨hR.used m h.1, hR.spin m h.2.1, hR.locked m h.2.1 h.1 h.2.2⟩
  | sleepRelease l =>
    cases l with
    | wait => trivial
    | mtx m =>
      obtain ⟨h1, h2, h3, h4⟩ := h
      exact ⟨hR.used m h1, hR.spin m h2, hR.locked m h2 h1 h3, hR.held.trans h4⟩
  | sleepSwitch l =>
    cases l with
    | wait => trivial
    | mtx m => exact ⟨hR.used m h.1, hR.held.trans h.2⟩
  | unlockWake m i => exact ⟨hR.used m h.1, hR.spin m h.2⟩
  | _ => trivial

theorem MRely.mutex {x : Mutex} (hm : s'.mtx = update s.mtx m x)
    (hx : x.used = true) (hs : ∀ m, s.spin m = some q → s'.spin m = some q) (hh : s'.held q = s.held q)
    (hfree : (s.mtx m).used = true → s.spin m ≠ some q) : MRely s s' q := by
  refine ⟨fun m' h => ?_, hs, fun m' h hu hl => ?_, hh⟩
  · rw [hm]
    by_cases e : m' = m
    · rw [e, update_self, hx]
    · rw [update_of_ne e, h]
  · rw [hm]
    by_cases e : m' = m
    · rw [e] at h hu
      exact absurd h (hfree hu)
    · rw [update_of_ne e, hl]

theorem MRely.spinlock {o : Option Slot} (hm : s'.mtx = s.mtx)
    (hs : s'.spin = update s.spin m o) (hh : s'.held q = s.held q) (hfree : s.spin m ≠ some q) : MRely s s' q := by
  refine ⟨fun m' h => by rw [hm, h], fun m' h => ?_, fun m' _ _ hl => by rw [hm, hl], hh⟩
  rw [hs]
  by_cases e : m' = m
  · rw [e] at h
    exact absurd h hfree
  · rw [update_of_ne e, h]

theorem mrely_step (hM : MFits s p (s.pc p)) (hE : Mutexes s p a s') (hq : q ≠ p)
    (hh : s'.held q = s.held q) : MRely s s' q := by
  have hmine : ∀ m, s.spin m = some p → s.spin m ≠ some q := by
    intro m h h'
    rw [h] at h'
    exact hq (some.inj h').symm
  cases hE with
  | quiet hm hs =>
    exact ⟨fun m h => by rw [hm, h], fun m h => by rw [hs, h], fun m _ _ h => by rw [hm, h], hh⟩
  | create m hr hpc hu e =>
    subst e
    exact .mutex rfl rfl (fun _ => id) hh (by simp [hu])
  | createFree m hpc hu e =>
    subst e
    exact .mutex rfl rfl (fun _ => id) hh (by simp [hu])
  | take m hr hpc hs hl e =>
    subst e
    exact .mutex rfl rfl (fun _ => id) hh (by simp [hs])
  | wait m hpc hs hu hl e =>
    subst e
    exact .spinlock rfl rfl hh (by simp [hs])
  | release m hpc e =>
    subst e
    rw [hpc] at hM
    exact .spinlock rfl rfl hh (hmine m hM.2.1)
  | unlock m id ha hid hpc hs hu hl e =>
    subst e
    refine .mutex rfl rfl (fun m' h => ?_) hh (by simp [hs])
    by_cases e : m' = m
    · rw [e, hs] at h
      cases h
    · simpa [goto, dropped, setSpin, setMutex, e] using h
  | wake m i hpc hi e =>
    subst e
    exact ⟨fun _ => id, fun _ => id, fun _ _ _ => id, hh⟩
  | woken m i hpc hi e =>
    subst e
    rw [hpc] at hM
    exact .spinlock rfl rfl hh (hmine m hM.2)

theorem mfits_actor (hI : MInv s) (hE : Mutexes s p a s') : MFits s' p (s'.pc p) := by
  have hf := hI.fits p
  cases hE with
  | quiet _ _ _ _ _ h => exact h
  | create m hr hpc hu e =>
    subst e
    rw [show (taken s p m).pc p = .user from hpc]
    trivial
  | createFree m hpc hu e =>
    subst e
    rw [show (setMutex s m ⟨true, false, none⟩).pc p = .user from hpc]
    trivial
  | take m hr hpc hs hl e =>
    subst e
    simp [goto, MFits]
  | wait m hpc hs hu hl e =>
    subst e
    simp [goto, MFits, setSpin, hu, hl]
  | release m hpc e =>
    subst e
    rw [hpc] at hf
    -- `p->lock` was taken before the mutex's lock is let go
    simpa [goto] using ⟨hf.1, hf.2.2.2⟩
  | unlock m id ha hid hpc hs hu hl e =>
    subst e
    simp [goto, MFits, dropped, setSpin, setMutex]
  | wake m i hpc hi e =>
    subst e
    rw [hpc] at hf
    simpa [goto, MFits, withKern] using hf
  | woken m i hpc hi e =>
    subst e
    simp [goto, MFits]

theorem used_step (hI : MInv s) (hE : Mutexes s p a s') (m : Mid)
    (h : (s'.mtx m).locked = true) : (s'.mtx m).used = true := by
  -- the mutex that changed is in use afterwards
  have hkeep : ∀ (m' : Mid) (x : Mutex), s'.mtx = update s.mtx m' x → x.used = true →
      (s'.mtx m).used = true := by
    intro m' x hm hx
    rw [hm] at h ⊢
    by_cases e : m = m'
    · rw [e, update_self, hx]
    · rw [update_of_ne e] at h ⊢
      exact hI.used m h
  cases hE with
  | quiet hm =>
    rw [hm] at h ⊢
    exact hI.used m h
  | create m' hr hpc hu e => exact hkeep m' _ (by rw [e]; rfl) rfl
  | createFree m' hpc hu e => exact hkeep m' _ (by rw [e]; rfl) rfl
  | take m' hr hpc hs hl e => exact hkeep m' _ (by rw [e]; rfl) rfl
  | unlock m' id ha hid hpc hs hu hl e => exact hkeep m' _ (by rw [e]; rfl) rfl
  | wait m' hpc hs hu hl e =>
    subst e
    exact hI.used m h
  | release m' hpc e =>
    subst e
    exact hI.used m h
  | wake m' i hpc hi e =>
    subst e
    exact hI.used m h
  | woken m' i hpc hi e =>
    subst e
    exact hI.used m h

theorem Awaited.keep (h : Awaited s q m) (hl : (s.mtx m).locked = true → (s'.mtx m).locked = true)
    (hu : ∀ r i, s.pc r = .unlockWake m i → s'.pc r = s.pc r) : Awaited s' q m := by
  rcases h with h | ⟨r, i, hr, hi⟩
  · exact .inl (hl h)
  · exact .inr ⟨r, i, (hu r i hr).trans hr, hi⟩

theorem wakeOne_wakes {k : Kern} (hq : q ≠ p) (hst : (cores (wakeOne (some p) chan k q) q).state = .sleeping)
    (hch : (cores (wakeOne (some p) chan k q) q).chan = some chan) : False := by
  have hme : (some p : Option Slot) ≠ some q := fun h => hq (some.inj h).symm
  unfold wakeOne at hst hch
  split at hst
  · rw [cores_rqInsert, cores_setState] at hst
    simp at hst
  · rename_i h
    rw [if_neg h] at hch
    exact h ⟨hme, hst, hch⟩

theorem sleeps_step (hI : Inv s) (hM : MInv s) (hO : Own s a.actor s')
    (he : Effect s a (cores s'.k) s'.hist) (hE : Mutexes s a.actor a s') (hq : Sleeps s' q m) : Awaited s' q m := by
  -- the process that wakes the sleepers is running: its thread is where it was, unless the step is its own
  have hpc : ∀ r i, r ≠ a.actor → s.pc r = .unlockWake m i → s'.pc r = s.pc r := by
    intro r i hr hpc
    rcases hO.pc r hr with h | ⟨-, h⟩
    · exact h
    · have hf := hI.fits_at hpc
      exact absurd (h.symm.trans hf) (by simp)
  have hne : ∀ c, s.pc a.actor = c → (∀ i, c ≠ .unlockWake m i) →
      ∀ r i, s.pc r = .unlockWake m i → s'.pc r = s.pc r := by
    intro c hc hni r i hr
    refine hpc r i (fun e => ?_) hr
    rw [e, hc] at hr
    exact hni i hr
  -- who sleeps now slept before, or has just let go of the spinlock
  have hold : (∀ m', s'.pc a.actor ≠ .sleepSwitch (.mtx m')) → Sleeps s q m := by
    intro hsw
    rcases hq with h | ⟨h1, h2⟩
    · by_cases e : q = a.actor
      · rw [e] at h
        exact absurd h (hsw m)
      · rcases hO.pc q e with h' | ⟨h', -⟩
        · exact .inl (h' ▸ h)
        · rw [h'] at h
          cases h
    · exact asleep_of_effect he h1 h2
  cases hE with
  | quiet hm hs ha hl hi hf hsw hun =>
    refine (hM.sleeps q m (hold hsw)).keep (by rw [hm]; exact id) (fun r i hr => hpc r i ?_ hr)
    rintro rfl
    exact hun m i hr
  | create m' hr hpcu hu e =>
    subst e
    refine (hM.sleeps q m (hold ?_)).keep (fun h => ?_) (hne _ hpcu (by simp))
    · intro m'' h
      rw [show (taken s a.actor m').pc a.actor = .user from hpcu] at h
      cases h
    · by_cases e : m = m' <;> simp [taken, noteOwner, setMutex, e, h]
  | createFree m' hpcu hu e =>
    subst e
    have hsl := hM.sleeps q m (hold (by
      intro m'' h
      rw [show (setMutex s m' ⟨true, false, none⟩).pc a.actor = .user from hpcu] at h
      cases h))
    by_cases e : m = m'
    · -- nobody sleeps on a mutex that was not in use
      exfalso
      subst e
      rcases hsl with h | ⟨r, i, hr, -⟩
      · simp [hM.used m h] at hu
      · have hf := hM.fits_at hr
        simp [hf.1] at hu
    · refine hsl.keep (fun h => ?_) (fun _ _ _ => rfl)
      simpa [setMutex, e] using h
  | take m' hr hpcu hs hl e =>
    subst e
    refine (hM.sleeps q m (hold (by simp [goto]))).keep (fun h => ?_) (hne _ rfl ?_)
    · by_cases e : m = m' <;> simp [goto, taken, noteOwner, setMutex, e, h]
    · rcases hpcu with h | h <;> simp [h]
  | wait m' hpcu hs hu hl e =>
    subst e
    refine (hM.sleeps q m (hold (by simp [goto]))).keep id (hne _ rfl ?_)
    rcases hpcu with h | h <;> simp [h]
  | release m' hpcu e =>
    subst e
    by_cases e : Sleeps s q m
    · exact (hM.sleeps q m e).keep id (hne _ hpcu (by simp))
    -- the actor is about to sleep; it let go of the spinlock with the mutex locked
    have hqa : q = a.actor ∧ m' = m := by
      rcases hq with h | ⟨h1, h2⟩
      · by_cases ea : q = a.actor
        · refine ⟨ea, ?_⟩
          rw [ea] at h
          simpa [goto] using h
        · simp only [goto, update_of_ne ea] at h
          exact absurd (.inl h) e
      · exact absurd (asleep_of_effect he h1 h2) e
    have hf := hM.fits_at hpcu
    left
    rw [← hqa.2]
    exact hf.2.2.1
  | unlock m' id ha hid hpcu hs hu hl e =>
    subst e
    have hsl := hM.sleeps q m (hold (by simp [goto]))
    by_cases e : m = m'
    · subst e
      exact .inr ⟨a.actor, 0, by simp [goto], Nat.zero_le _⟩
    · refine hsl.keep (fun h => ?_) (hne _ hpcu (by simp))
      simpa [goto, dropped, setSpin, setMutex, e] using h
  | wake m' i hpcu hh e =>
    have hsl := hM.sleeps q m (hold (by subst e; simp [goto]))
    by_cases em : m = m'
    · subst em
      rcases hsl with h | ⟨r, j, hr, hj⟩
      · left
        subst e
        exact h
      have hf := hM.fits_at hr
      have hfp := hM.fits_at hpcu
      have hra : r = a.actor := some.inj (hf.2.symm.trans hfp.2)
      rw [hra, hpcu] at hr
      obtain rfl : i.val = j := by simpa using hr
      right
      refine ⟨a.actor, i + 1, by subst e; simp [goto], ?_⟩
      -- the sleeper is not the one the loop has just come to
      rcases lt_or_eq_of_le hj with hlt | heq
      · exact hlt
      exfalso
      obtain rfl : i = q := Fin.ext heq
      have hrun := hI.fits_at hpcu
      have hia : i ≠ a.actor := by
        intro ei
        rcases hold (by subst e; simp [goto]) with h | ⟨h, -⟩
        · rw [ei, hpcu] at h
          cases h
        · rw [ei] at h
          exact absurd (h.symm.trans hrun) (by simp)
      rcases hq with h | ⟨h1, h2⟩
      · rw [e] at h
        simp only [goto, update_of_ne hia] at h
        have hfi := hM.fits i
        rw [show s.pc i = .sleepSwitch (.mtx m) from h] at hfi
        exact absurd hfi.2 (by simp [hh hia])
      · rw [e] at h1 h2
        exact wakeOne_wakes hia h1 h2
    · refine hsl.keep (by subst e; exact id) (hne _ hpcu ?_)
      intro j h
      cases h
      exact em rfl
  | woken m' i hpcu hi e =>
    subst e
    have hsl := hM.sleeps q m (hold (by simp [goto]))
    by_cases em : m = m'
    · subst em
      rcases hsl with h | ⟨r, j, hr, hj⟩
      · exact .inl h
      exfalso
      have hf := hM.fits_at hr
      have hfp := hM.fits_at hpcu
      have hra : r = a.actor := some.inj (hf.2.symm.trans hfp.2)
      rw [hra, hpcu] at hr
      obtain rfl : i = j := by simpa using hr
      omega
    · refine hsl.keep id (hne _ hpcu ?_)
      intro j h
      cases h
      exact em rfl

theorem minv_step (hI : Inv s) (hM : MInv s) (hs : step s a = some s') : MInv s' := by
  have he := step_effect hs
  have hO := own_step hI hs
  have hE := mutexes_step hI (hM.fits a.actor) hs
  refine ⟨fun q => ?_, used_step hM hE, fun q m hq => sleeps_step hI hM hO he hE hq⟩
  by_cases e : q = a.actor
  · subst e
    exact mfits_actor hM hE
  rcases hO.pc q e with h | ⟨h, -⟩
  · rw [h]
    exact (hM.fits q).keep (mrely_step (hM.fits a.actor) hE e (hO.held q e))
  · rw [h]
    trivial

theorem minv_boot : MInv lifeBoot := by
  refine ⟨fun _ => trivial, nofun, fun q m h => ?_⟩
  rcases h with h | ⟨h, -⟩
  · cases h
  · have : ∀ q, (cores lifeBoot.k q).state ≠ .sleeping := by decide
    exact absurd h (this q)

/-! ## Exclusion -/

/-- **Only the process that last got the mutex unlocks it**: `mtx_unlock` is called by the process that last returned
from `mtx_lock` on it, or created it locked. -/
def unlocksOwn (s : St) : Act → Prop
  | .start p (.unlock id) =>
    match mutexOf id with
    | none => True
    | some m => s.last m = some p
  | _ => True

instance (s : St) (a : Act) : Decidable (unlocksOwn s a) := by
  unfold unlocksOwn
  split
  · split <;> infer_instance
  · infer_instance

theorem Region.taken (hR : ∀ m, Region s m) (hl : (s.mtx m).locked = false) (m' : Mid) :
    Region (Life.taken s p m) m' := by
  by_cases e : m' = m
  · subst e
    have hin : s.inside m' = [] := by
      rcases hR m' with ⟨-, h⟩ | ⟨q, h, -⟩
      · exact h
      · simp [hl] at h
    right
    exact ⟨p, by simp [Life.taken, noteOwner, setMutex], by simp [Life.taken, noteOwner, setMutex],
      by simp [Life.taken, noteOwner], by simp [Life.taken, noteOwner, setMutex, hin]⟩
  · simpa [Region, Life.taken, noteOwner, setMutex, e] using hR m'

theorem region_step (hM : MInv s) (hR : ∀ m, Region s m) (hok : unlocksOwn s a)
    (hE : Mutexes s a.actor a s') (m : Mid) : Region s' m := by
  have hfree : ∀ m, (s.mtx m).used = false → (s.mtx m).locked = false := by
    intro m hu
    by_contra h
    simp [hM.used m (by simpa using h)] at hu
  cases hE with
  | quiet hm hs ha hl hi =>
    unfold Region
    rw [hm, hl, hi]
    exact hR m
  | create m' hr hpc hu e =>
    subst e
    exact Region.taken hR (hfree m' hu) m
  | createFree m' hpc hu e =>
    subst e
    by_cases e : m = m'
    · subst e
      left
      refine ⟨by simp [setMutex], ?_⟩
      rcases hR m with ⟨-, h⟩ | ⟨q, h, -⟩
      · exact h
      · simp [hfree m hu] at h
    · simpa [Region, setMutex, e] using hR m
  | take m' hr hpc hs hl e =>
    subst e
    exact Region.taken hR hl m
  | wait m' hpc hs hu hl e =>
    subst e
    exact hR m
  | release m' hpc e =>
    subst e
    exact hR m
  | unlock m' id ha hid hpc hs hu hl e =>
    subst e
    have hlast : s.last m' = some a.actor := by
      rw [ha] at hok
      simpa [unlocksOwn, hid] using hok
    by_cases e : m = m'
    · subst e
      left
      refine ⟨by simp [goto, dropped, setSpin, setMutex], ?_⟩
      rcases hR m with ⟨h, -⟩ | ⟨q, -, -, h2, h3⟩
      · simp [hl] at h
      · have hq : q = a.actor := some.inj (h2.symm.trans hlast)
        simp [goto, dropped, h3, hq]
    · simpa [Region, goto, dropped, setSpin, setMutex, e] using hR m
  | wake m' i hpc hi e =>
    subst e
    exact hR m
  | woken m' i hpc hi e =>
    subst e
    exact hR m

/-- **What a mutex is for**: at most one process is between `mtx_lock` and its `mtx_unlock`, `owner` names it, and when
the mutex's spinlock is free nobody sleeps on it unless it is locked. -/
def MutexSafe (s : St) : Prop :=
  ∀ m, (s.inside m).length ≤ 1 ∧ (∀ p ∈ s.inside m, (s.mtx m).owner = some p) ∧
    (s.spin m = none → ∀ q, (s.at q).state = .sleeping → (s.at q).chan = some (.other m) → (s.mtx m).locked = true)

theorem MInv.safe (hM : MInv s) (hR : ∀ m, Region s m) : MutexSafe s := by
  intro m
  refine ⟨?_, fun p hp => ?_, fun hsp q hst hch => ?_⟩
  · rcases hR m with ⟨-, h⟩ | ⟨p, -, -, -, h⟩ <;> simp [h]
  · rcases hR m with ⟨-, h⟩ | ⟨o, -, ho, -, h⟩
    · simp [h] at hp
    · rw [h, List.mem_singleton] at hp
      rw [hp, ho]
  · rcases hM.sleeps q m (.inr ⟨hst, hch⟩) with h | ⟨r, i, hr, -⟩
    · exact h
    · have hf := hM.fits_at hr
      exact absurd (hsp.symm.trans hf.2) (by simp)

/-- **Who is inside**: a process is from when its `mtx_lock` returns until it calls `mtx_unlock`; and the process that
creates a mutex locked is. -/
structure Crosses (s : St) (a : Act) (s' : St) (m : Mid) : Prop where
  enters : s.pc a.actor = .lockAcquire m ∨ s.pc a.actor = .relock (.mtx m) → s'.pc a.actor = .user →
    s'.inside m = a.actor :: s.inside m
  leaves : ∀ id, a = .start a.actor (.unlock id) → mutexOf id = some m → (s.mtx m).used = true → (s.mtx m).locked = true →
    s'.inside m = (s.inside m).erase a.actor
  stays : s'.inside m = s.inside m ∨
    (s.pc a.actor = .lockAcquire m ∨ s.pc a.actor = .relock (.mtx m)) ∧ s'.pc a.actor = .user ∨
    (s.mtx m).used = false ∧ (s'.mtx m).owner = some a.actor ∨ ∃ id, a = .start a.actor (.unlock id) ∧ mutexOf id = some m

theorem lockTest_inside (h : (lockTest s p m).pc p = .user) : (lockTest s p m).inside m = p :: s.inside m := by
  unfold lockTest at h ⊢
  split at h
  · simp [goto] at h
  · rename_i hl
    simp [hl, goto, noteOwner, setMutex]

theorem enters_step (hs : step s a = some s') (hpc : s.pc a.actor = .lockAcquire m ∨ s.pc a.actor = .relock (.mtx m))
    (hret : s'.pc a.actor = .user) : s'.inside m = a.actor :: s.inside m := by
  unfold step at hs
  split at hs
  · cases hs
  cases a with
  | start p c =>
    dsimp only at hs
    split at hs
    · rename_i h
      rcases hpc with e | e <;> exact absurd (e.symm.trans h.2) nofun
    · cases hs
  | advance p fail =>
    dsimp only [advance] at hs
    rcases hpc with e | e <;> simp only [Act.actor] at e hret ⊢ <;> simp only [e] at hs <;> split at hs <;> cases hs <;>
      exact lockTest_inside hret
  | dispatch p =>
    dsimp only [dispatch] at hs
    split at hs <;> cases hs
    rcases hpc with e | e <;> simp [Act.actor] at e hret <;> simp [goto, e] at hret

theorem leaves_step {id : Int} (hs : step s (.start p (.unlock id)) = some s') (hid : mutexOf id = some m)
    (hu : (s.mtx m).used = true) (hl : (s.mtx m).locked = true) : s'.inside m = (s.inside m).erase p := by
  unfold step at hs
  split at hs
  · cases hs
  dsimp only [start] at hs
  simp only [hid, sysMtxUnlock] at hs
  split at hs
  · split at hs
    · cases hs
    · simp only [hu, hl, Bool.not_true, Bool.or_self, Bool.false_eq_true, if_false] at hs
      cases hs
      simp [goto, setSpin, setMutex]
  · cases hs

theorem crosses_step (hI : Inv s) (hM : MInv s) (hs : step s a = some s') (m : Mid) : Crosses s a s' m := by
  refine ⟨enters_step hs, fun id ha => leaves_step (ha ▸ hs), ?_⟩
  cases mutexes_step hI (hM.fits _) hs with
  | quiet hm hsp ha hl hi => exact .inl (by rw [hi])
  | create m' hr hpc hu e =>
    subst e
    by_cases e : m = m'
    · subst e
      exact .inr (.inr (.inl ⟨hu, by simp [taken, noteOwner, setMutex]⟩))
    · exact .inl (by simp [taken, noteOwner, setMutex, e])
  | createFree m' hpc hu e =>
    subst e
    exact .inl rfl
  | take m' hr hpc hsp hl e =>
    subst e
    by_cases e : m = m'
    · subst e
      exact .inr (.inl ⟨hpc, by simp [goto]⟩)
    · exact .inl (by simp [goto, taken, noteOwner, setMutex, e])
  | unlock m' id ha hid hpc hsp hu hl e =>
    subst e
    by_cases e : m = m'
    · subst e
      exact .inr (.inr (.inr ⟨id, ha, hid⟩))
    · exact .inl (by simp [goto, dropped, setSpin, setMutex, e])
  | wait m' hpc hsp hu hl e => exact .inl (by rw [e]; rfl)
  | release m' hpc e => exact .inl (by rw [e]; rfl)
  | wake m' i hpc hi e => exact .inl (by rw [e]; rfl)
  | woken m' i hpc hi e => exact .inl (by rw [e]; rfl)

/-- **The kernel's mutexes exclude and lose no wakeup.**  For any interleaving of the calls in which only the process
that last got a mutex unlocks it, every state of the run is safe, and the calls lead in and out as they should. -/
theorem mutex_safe (acts : List Act) (h : Run.allSteps step unlocksOwn lifeBoot acts) :
    Run.allStates step MutexSafe lifeBoot acts ∧
      Run.allSteps step (fun s a => ∀ s', step s a = some s' → ∀ m, Crosses s a s' m) lifeBoot acts := by
  have hstep : ∀ (s : St) (a : Act) (s' : St), (Inv s ∧ MInv s ∧ ∀ m, Region s m) → unlocksOwn s a →
      step s a = some s' → Inv s' ∧ MInv s' ∧ ∀ m, Region s' m := by
    rintro s a s' ⟨hI, hM, hR⟩ hok hs
    exact ⟨inv_step hI hs, minv_step hI hM hs, region_step hM hR hok (mutexes_step hI (hM.fits _) hs)⟩
  have hboot : ∀ m, Region lifeBoot m := fun m => .inl ⟨rfl, rfl⟩
  have hinv := Run.allStates_of_allSteps hstep acts _ ⟨inv_boot, minv_boot, hboot⟩ h
  refine ⟨Run.allStates_mono (fun s hs => hs.2.1.safe hs.2.2) acts _ hinv, ?_⟩
  have hiff : ∀ s a, (Inv s ∧ MInv s) → ((∀ s', step s a = some s' → ∀ m, Crosses s a s' m) ↔ True) :=
    fun s a hs => iff_true_intro (fun s' => crosses_step hs.1 hs.2)
  have hkeep : ∀ (s : St) (a : Act) (s' : St), (Inv s ∧ MInv s) → True → step s a = some s' → Inv s' ∧ MInv s' :=
    fun s a s' hs _ h => ⟨inv_step hs.1 h, minv_step hs.1 hs.2 h⟩
  exact (Run.allSteps_iff hkeep hiff acts _ ⟨inv_boot, minv_boot⟩).2 (Run.allSteps_true acts _)

/-- `init` creates mutex 0 locked, forks a child that asks for it and sleeps, and unlocks it. -/
def contended : List Act :=
  let child : Slot := ⟨1, one_lt_nproc⟩
  [.dispatch initSlot, .start initSlot (.create true), .start initSlot (.fork child true), .advance initSlot false,
    .advance initSlot false, .dispatch child, .start child (.lock 0), .advance child false, .advance child false,
    .advance child false, .advance child false, .start initSlot (.unlock 0), .advance initSlot false,
    .advance initSlot false]

/-- The child is awake again, and the run is safe. -/
theorem mutex_safe_contended :
    (Run.run step lifeBoot contended).map (fun s => (s.at ⟨1, by decide⟩).state) = some .runnable ∧
    Run.allStates step MutexSafe lifeBoot contended :=
  ⟨by decide +kernel, (mutex_safe contended (by decide +kernel)).1⟩

/-! ## Owners -/

/-- The process that acquired a locked mutex has not exited, and `owner` is the slot it is in. -/
def OwnersAlive (s : St) : Prop :=
  ∀ m, (s.mtx m).locked = true →
    (s.hist.life (s.acquired m)).zombie = false ∧
    ∃ o, (s.mtx m).owner = some o ∧ s.hist.uid o = s.acquired m ∧ (s.at o).phase = .alive

/-- **No process exits with a mutex**: a process that is about to become a zombie owns no locked mutex. -/
def letsGo (s : St) : Act → Prop
  | .advance p _ =>
    match s.pc p with
    | .exitZombie _ => s.k.panic = none → s.held p = false → ∀ m, (s.mtx m).locked = true → (s.mtx m).owner ≠ some p
    | _ => True
  | _ => True

theorem alive_step {c : Slot → Core} (he : Effect s a c g) (ho : (s.at o).phase = .alive) :
    (c o).phase = .alive ∨ ∃ fail status, a = .advance o fail ∧ s.pc o = .exitZombie status := by
  have hkeep : ∀ (i : Slot) (x : Core), (i = o → x.phase = .alive) →
      (update (cores s.k) i x o).phase = .alive := by
    intro i x hx
    by_cases e : o = i
    · rw [e, update_self]
      exact hx e.symm
    · rw [update_of_ne e]
      exact ho
  cases he with
  | quiet => exact .inl ho
  | exit p status hp hst => exact .inl ho
  | wake p fail i hi hst => exact .inl (hkeep _ _ (fun _ => rfl))
  | kill p fail pid i hpc hpid =>
    refine .inl (hkeep _ _ ?_)
    rintro rfl
    by_cases h : (s.at i).state = .sleeping
    · simp [Core.phase, phaseOf, h]
    · simpa [Core.phase, h] using ho
  | setkilled p hst => exact .inl (hkeep _ _ (by rintro rfl; exact ho))
  | sleep p fail l hpc => exact .inl (hkeep _ _ (fun _ => rfl))
  | dispatch p hst => exact .inl (hkeep _ _ (fun _ => rfl))
  | fork p np mem hst hu =>
    refine .inl (hkeep _ _ ?_)
    rintro rfl
    simp [Core.phase_unused.2 hu] at ho
  | parent p fail np hpc => exact .inl (hkeep _ _ (by rintro rfl; exact ho))
  | ready p fail np hpc => exact .inl (hkeep _ _ (fun _ => rfl))
  | adopt p fail status pp hpc hpar => exact .inl (hkeep _ _ (by rintro rfl; exact ho))
  | zombie p fail status hpc =>
    by_cases e : o = p
    · subst e
      exact .inr ⟨fail, status, rfl, hpc⟩
    · rw [update_of_ne e]
      exact .inl ho
  | reap p kids pp hpc hpar hh hz =>
    refine .inl (hkeep _ _ ?_)
    rintro rfl
    simp [Core.phase_zombie.2 hz] at ho

theorem owner_stays (hI : Inv s) (hs : step s a = some s') {u : Nat}
    (hu : s.hist.uid o = u) (ho : (s.at o).phase = .alive)
    (hlast : ∀ fail status, a = .advance o fail → s.pc o = .exitZombie status → False) :
    (s'.hist.life u).zombie = false ∧ s'.hist.uid o = u ∧ (s'.at o).phase = .alive := by
  have he := step_effect hs
  have halive : (s'.at o).phase = .alive := by
    rcases alive_step he ho with h | ⟨fail, status, h1, h2⟩
    · exact h
    · exact (hlast fail status h1 h2).elim
  have huid : s'.hist.uid o = u := by
    rw [(keeps_step hI.names he).uid o (by simp [ho]), hu]
  refine ⟨?_, huid, halive⟩
  have hflag := (inv_step hI hs).names.flag o (by simp [show (cores s'.k o).phase = .alive from halive])
  rw [huid] at hflag
  by_contra hz
  have := hflag.1 (by simpa using hz)
  simp [show (cores s'.k o).phase = .alive from halive] at this

theorem acquired_step (hE : Mutexes s p a s') (hl : (s'.mtx m).locked = true) :
    ((s.mtx m).locked = true ∧ (s'.mtx m).owner = (s.mtx m).owner ∧ s'.acquired m = s.acquired m) ∨
    ((s.at p).state = .running ∧ (s'.mtx m).owner = some p ∧ s'.acquired m = s.hist.uid p ∧
      ∀ status, s.pc p ≠ .exitZombie status) := by
  -- the mutex that `p` has got, and the others
  have htaken : ∀ m', s'.mtx = (taken s p m').mtx → s'.acquired = (taken s p m').acquired →
      (s.at p).state = .running → (∀ status, s.pc p ≠ .exitZombie status) →
      ((s.mtx m).locked = true ∧ (s'.mtx m).owner = (s.mtx m).owner ∧ s'.acquired m = s.acquired m) ∨
      ((s.at p).state = .running ∧ (s'.mtx m).owner = some p ∧ s'.acquired m = s.hist.uid p ∧
        ∀ status, s.pc p ≠ .exitZombie status) := by
    intro m' hm ha hr hz
    rw [hm] at hl ⊢
    rw [ha]
    by_cases e : m = m'
    · right
      simp [taken, noteOwner, setMutex, e, hr, hz]
    · left
      simpa [taken, noteOwner, setMutex, e] using hl
  -- a mutex that was let go of
  have hfree : ∀ m', s'.mtx = update s.mtx m' ⟨true, false, none⟩ → s'.acquired = s.acquired →
      (s.mtx m).locked = true ∧ (s'.mtx m).owner = (s.mtx m).owner ∧ s'.acquired m = s.acquired m := by
    intro m' hm ha
    rw [hm] at hl ⊢
    rw [ha]
    by_cases e : m = m'
    · simp [e] at hl
    · simpa [e] using hl
  cases hE with
  | quiet hm hs ha =>
    left
    rw [hm] at hl ⊢
    exact ⟨hl, rfl, by rw [ha]⟩
  | create m' hr hpc hu e => exact htaken m' (by rw [e]) (by rw [e]) hr (by simp [hpc])
  | createFree m' hpc hu e => exact .inl (hfree m' (by rw [e]; rfl) (by rw [e]; rfl))
  | take m' hr hpc hs hf e =>
    refine htaken m' (by rw [e]; rfl) (by rw [e]; rfl) hr ?_
    rcases hpc with h | h <;> simp [h]
  | unlock m' id ha hid hpc hs hu hf e => exact .inl (hfree m' (by rw [e]; rfl) (by rw [e]; rfl))
  | wait m' hpc hs hu hf e =>
    subst e
    exact .inl ⟨hl, rfl, rfl⟩
  | release m' hpc e =>
    subst e
    exact .inl ⟨hl, rfl, rfl⟩
  | wake m' i hpc hi e =>
    subst e
    exact .inl ⟨hl, rfl, rfl⟩
  | woken m' i hpc hi e =>
    subst e
    exact .inl ⟨hl, rfl, rfl⟩

theorem zombie_step {status : Int} (hpc : s.pc p = .exitZombie status) (hs : step s (.advance p fail) = some s') :
    s.k.panic = none ∧ s.held p = false ∧ s'.mtx = s.mtx ∧ (s'.at p).phase = .zombie := by
  unfold step at hs
  split at hs
  · cases hs
  rename_i hp
  simp only [advance, hpc] at hs
  split at hs
  · cases hs
  · rename_i hh
    cases hs
    refine ⟨by simpa using hp, by simpa using hh, rfl, ?_⟩
    simp [St.at, goto, holding, withKern, cores_zombify, Core.phase, phaseOf]

theorem ownersAlive_step (hI : Inv s) (hM : MInv s) (hA : OwnersAlive s) (hok : letsGo s a)
    (hs : step s a = some s') : OwnersAlive s' := by
  intro m hl
  have hE := mutexes_step hI (hM.fits a.actor) hs
  rcases acquired_step hE hl with ⟨hl0, ho, ha⟩ | ⟨hr, ho, ha, hz⟩
  · obtain ⟨-, o, ho0, hu, hal⟩ := hA m hl0
    obtain ⟨h1, h2, h3⟩ := owner_stays hI hs hu hal (by
      rintro fail status rfl hpc
      obtain ⟨hp, hh, -⟩ := zombie_step hpc hs
      simp only [letsGo, hpc] at hok
      exact hok hp hh m hl0 ho0)
    rw [ha]
    exact ⟨h1, o, ho.trans ho0, h2, h3⟩
  · obtain ⟨h1, h2, h3⟩ := owner_stays hI hs rfl (Core.phase_of_running hr) (by
      intro fail status _ hpc
      exact hz status hpc)
    rw [ha]
    exact ⟨h1, a.actor, ho, h2, h3⟩

theorem owner_dies (hn : ¬ letsGo s a) : ∃ s', step s a = some s' ∧ ¬ OwnersAlive s' := by
  cases a with
  | start p c => simp [letsGo] at hn
  | dispatch p => simp [letsGo] at hn
  | advance p fail =>
    cases hpc : s.pc p with
    | exitZombie status =>
      simp only [letsGo, hpc, not_forall, not_not] at hn
      obtain ⟨hp, hh, m, hl, ho⟩ := hn
      have hs : ∃ s', step s (.advance p fail) = some s' := by
        simp [step, hp, advance, hpc, hh]
      obtain ⟨s', hs⟩ := hs
      obtain ⟨-, -, hm, hz⟩ := zombie_step hpc hs
      refine ⟨s', hs, fun hA => ?_⟩
      obtain ⟨-, o, ho', -, hal⟩ := hA m (by rw [hm, hl])
      rw [hm, ho] at ho'
      cases ho'
      simp [hz] at hal
    | _ => simp [letsGo, hpc] at hn

/-- **The owner of a locked mutex is alive exactly as long as no process exits with a mutex.**  For any interleaving of
the calls: in every state of the run the process that acquired a locked mutex has not exited and `owner` is its slot, if
and only if no process of the run becomes a zombie while it owns a locked mutex. -/
theorem ownersAlive_iff_letsGo (acts : List Act) :
    Run.allStates step OwnersAlive lifeBoot acts ↔ Run.allSteps step letsGo lifeBoot acts := by
  have hstep : ∀ (s : St) (a : Act) (s' : St), (Inv s ∧ MInv s ∧ OwnersAlive s) → letsGo s a → step s a = some s' →
      Inv s' ∧ MInv s' ∧ OwnersAlive s' := by
    rintro s a s' ⟨hI, hM, hA⟩ hok hs
    exact ⟨inv_step hI hs, minv_step hI hM hs, ownersAlive_step hI hM hA hok hs⟩
  have hboot : OwnersAlive lifeBoot := fun m h => by cases h
  constructor
  · intro hP
    exact Run.allSteps_of_allStates hstep (fun s a _ _ _ => owner_dies) acts _ ⟨inv_boot, minv_boot, hboot⟩
      (Run.allSteps_true acts _) hP
  · intro hok
    have hinv := Run.allStates_of_allSteps hstep acts _ ⟨inv_boot, minv_boot, hboot⟩ hok
    exact Run.allStates_mono (fun s hs => hs.2.2) acts _ hinv

/-- `init` forks a child, which creates mutex 0 locked and exits; `init` reaps it and forks another into its slot. -/
def exitsWithMutex : List Act :=
  let child : Slot := ⟨1, one_lt_nproc⟩
  [.dispatch initSlot, .start initSlot (.fork child true), .advance initSlot false, .advance initSlot false,
    .dispatch child, .start child (.create true), .start child (.exit 0)] ++
  List.replicate 134 (.advance child false) ++ [.start initSlot .wait] ++ List.replicate 3 (.advance initSlot false) ++
  [.start initSlot (.fork child true)]

/-- **The mutex stays locked by a process that is gone**, and its owner is the slot of another. -/
theorem exit_keeps_mutex :
    (Run.run step lifeBoot exitsWithMutex).map (fun s => ((s.mtx ⟨0, by decide⟩).locked,
      (s.mtx ⟨0, by decide⟩).owner, s.acquired ⟨0, by decide⟩, s.hist.uid ⟨1, by decide⟩)) =
      some (true, some ⟨1, by decide⟩, 1, 2) ∧
    ¬ Run.allStates step OwnersAlive lifeBoot exitsWithMutex := by
  have hlast : (Run.run step lifeBoot exitsWithMutex).map (fun s => ((s.mtx ⟨0, by decide⟩).locked,
      (s.mtx ⟨0, by decide⟩).owner, s.acquired ⟨0, by decide⟩, s.hist.uid ⟨1, by decide⟩)) =
      some (true, some ⟨1, by decide⟩, 1, 2) := by decide +kernel
  refine ⟨hlast, fun h => ?_⟩
  obtain ⟨t, ht, he⟩ := map_eq_some_iff.1 hlast
  simp only [Prod.mk.injEq] at he
  obtain ⟨-, o, ho, hu, -⟩ := Run.allStates_last exitsWithMutex _ t h ht ⟨0, by decide⟩ he.1
  rw [he.2.1] at ho
  cases ho
  rw [he.2.2.1, he.2.2.2] at hu
  cases hu

end Xv6.Life
