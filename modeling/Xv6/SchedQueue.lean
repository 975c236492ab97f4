import Xv6.SchedHarts
/-!
# SchedQueue — who is in the ready queue, on several harts

A slot's `in_rq` flag and its place in `rq.procs[0..count)` are written by different sections: `freeproc` and
`allocproc` clear the flag without a look at the queue, and the scheduler's activation loop and `yield` insert a process
they found runnable in an earlier section. The queue is in order (`QueueOk`) exactly as long as no such insertion comes
too late and no process leaves with its slot in the queue (`queueOk_iff_inTime`).
-/
namespace Xv6.Sched

open List

def Proc.alive (x : Proc) : Prop := x.state ≠ .unused ∧ x.state ≠ .zombie

instance (x : Proc) : Decidable x.alive := inferInstanceAs (Decidable (_ ∧ _))

/-- **The queue is in order**: no slot twice, a slot exactly when its flag is set, none that is unused or a zombie, and
no insertion has found the queue full. -/
structure QueueOk (k : Kern) : Prop where
  nodup : k.rq.Nodup
  flag : ∀ p, p ∈ k.rq ↔ (k.proc p).inRq = true
  alive : ∀ p ∈ k.rq, (k.proc p).alive
  panic : k.panic ≠ some .overflow

def inserts (k : Kern) (p : Slot) : Prop := (k.proc p).inRq = false ∧ (k.proc p).startTime ≤ now k

/-- **The insertions and exits are in time**: an insertion that `scheduler` or `yield` makes after it has let go of the
process's lock still finds the process, and a process that exits is in the queue only if `kexit` removes it. -/
def inTime {n : Nat} (s : Smp n) : SmpAct n → Prop
  | .advance h =>
    match s.loc h with
    | .scanInsert p _ | .marked p => s.k.panic = none → inserts s.k p → (s.k.proc p).alive
    | _ => True
  | .call h (.exit _) =>
    match s.loc h with
    | .run p =>
      s.k.panic = none → s.fork p = none → p ≠ initSlot → p ∈ s.k.rq → (s.k.proc p).state = .runnable
    | _ => True
  | _ => True

/-! ## The queue's own operations -/

variable {k k' : Kern} {p np : Slot} {x : Proc}

theorem QueueOk.room (hQ : QueueOk k) (hp : p ∉ k.rq) : k.rq.length < nproc := by
  have hn : (p :: k.rq).Nodup := nodup_cons.2 ⟨hp, hQ.nodup⟩
  have := hn.length_le_card
  exact this

theorem rqInsert_perm (k : Kern) (p : Slot) (i : Nat) : (k.rq.take i ++ p :: k.rq.drop i).Perm (p :: k.rq) := by
  have h : (k.rq.take i ++ p :: k.rq.drop i).Perm (p :: (k.rq.take i ++ k.rq.drop i)) := perm_middle
  rwa [take_append_drop] at h

section
variable (hQ : QueueOk k)
include hQ

theorem QueueOk.insert (ha : inserts k p → (k.proc p).alive) : QueueOk (rqInsert k p) := by
  rcases rqInsert_cases k p with ⟨e, -⟩ | ⟨hf, hlen, -⟩ | ⟨hf, ht, -, e⟩
  · rw [e]
    exact hQ
  · have hp : p ∉ k.rq := by simp [hQ.flag, hf]
    have := hQ.room hp
    omega
  have hp : p ∉ k.rq := by simp [hQ.flag, hf]
  have hperm := rqInsert_perm k p (rqPos k p k.rq.length)
  rw [e]
  refine ⟨hperm.nodup_iff.2 (nodup_cons.2 ⟨hp, hQ.nodup⟩), fun q => ?_, fun q hq => ?_, hQ.panic⟩
  · rw [hperm.mem_iff, mem_cons, hQ.flag]
    by_cases hq : q = p
    · simp [hq]
    · simp [hq]
  · rw [hperm.mem_iff, mem_cons] at hq
    by_cases hqp : q = p
    · subst hqp
      simpa [Proc.alive] using ha ⟨hf, ht⟩
    · simpa [hqp] using hQ.alive q (hq.resolve_left hqp)

theorem QueueOk.set (hf : x.inRq = (k.proc p).inRq) (ha : p ∈ k.rq → x.alive) : QueueOk (setProc k p x) := by
  refine ⟨hQ.nodup, fun q => ?_, fun q hq => ?_, hQ.panic⟩
  · rw [setProc_proc]
    refine (hQ.flag q).trans ?_
    by_cases hq : q = p
    · rw [if_pos hq, hf, hq]
    · rw [if_neg hq]
  · rw [setProc_proc]
    by_cases hqp : q = p
    · rw [if_pos hqp]
      exact ha (hqp ▸ hq)
    · rw [if_neg hqp]
      exact hQ.alive q hq

theorem QueueOk.setRunnable (p : Slot) : QueueOk (setState k p .runnable) :=
  hQ.set rfl (fun _ => by simp [Proc.alive])

theorem QueueOk.ready (p : Slot) : QueueOk (rqInsert (setState k p .runnable) p) :=
  (hQ.setRunnable p).insert (fun _ => by simp [setState, setProc_proc, Proc.alive])

theorem QueueOk.without {l : List Slot} (hn : l.Nodup) (hl : ∀ q, q ∈ l ↔ q ≠ p ∧ q ∈ k.rq) :
    QueueOk { k with rq := l, proc := Function.update k.proc p { k.proc p with inRq := false } } := by
  refine ⟨hn, fun q => ?_, fun q hq => ?_, hQ.panic⟩
  · rw [hl, hQ.flag]
    by_cases hq : q = p
    · simp [hq]
    · simp [hq]
  · obtain ⟨hne, hq⟩ := (hl q).1 hq
    simpa [hne] using hQ.alive q hq

theorem QueueOk.remove (p : Slot) : QueueOk (rqRemove k p) := by
  unfold rqRemove
  split
  · exact hQ.without (hQ.nodup.erase p) (fun q => hQ.nodup.mem_erase_iff)
  · exact hQ

theorem not_mem_rqRemove (p : Slot) : p ∉ (rqRemove k p).rq := by
  unfold rqRemove
  split
  · exact hQ.nodup.not_mem_erase
  · rename_i h
    exact h

theorem QueueOk.dequeue (hd : rqDequeue k = some (p, k')) : QueueOk k' := by
  unfold rqDequeue at hd
  split at hd
  · cases hd
  rename_i q rest e
  cases hd
  have hn := hQ.nodup
  rw [e, nodup_cons] at hn
  refine hQ.without hn.2 (fun q => ?_)
  rw [e, mem_cons]
  constructor
  · intro hq
    exact ⟨fun h => hn.1 (h ▸ hq), .inr hq⟩
  · rintro ⟨hne, h⟩
    exact h.resolve_left hne

/-! ## The sections -/

theorem QueueOk.wake (me : Option Slot) (chan : Chan) (p : Slot) : QueueOk (wakeOne me chan k p) := by
  unfold wakeOne
  split
  · exact hQ.ready p
  · exact hQ

theorem QueueOk.kill (p : Slot) : QueueOk (killOne k p) := by
  have h1 : QueueOk (setProc k p { k.proc p with killed := true }) := hQ.set rfl (hQ.alive p)
  unfold killOne
  simp only
  split
  · exact h1.ready p
  · exact h1

theorem QueueOk.sleep (p : Slot) (chan : Chan) : QueueOk (sleepOn k p chan) := by
  have h1 : QueueOk (if (k.proc p).state = .runnable then rqRemove k p else k) := by
    split
    · exact hQ.remove p
    · exact hQ
  exact h1.set rfl (fun _ => by simp [Proc.alive])

theorem QueueOk.not_mem (h : ¬ (k.proc p).alive) : p ∉ k.rq := fun hp => h (hQ.alive p hp)

theorem QueueOk.inRq_false (h : p ∉ k.rq) : (k.proc p).inRq = false := by rwa [hQ.flag, Bool.not_eq_true] at h

theorem QueueOk.outside (hp : p ∉ k.rq) (hx : x.inRq = false) : QueueOk (setProc k p x) :=
  hQ.set (hx.trans (hQ.inRq_false hp).symm) (fun h => absurd h hp)

theorem QueueOk.child (me : Slot) (mem : Bool) (hu : (k.proc np).state = .unused) : QueueOk (forkChild k me np mem) := by
  have hp : np ∉ k.rq := hQ.not_mem (by simp [Proc.alive, hu])
  have h0 : QueueOk { k with nextpid := k.nextpid + 1 } := ⟨hQ.nodup, hQ.flag, hQ.alive, hQ.panic⟩
  have h1 : QueueOk (allocproc k np) := h0.outside hp rfl
  unfold forkChild
  simp only
  split
  · exact h1.set rfl (fun h => absurd h hp)
  · exact h1.outside hp rfl

theorem QueueOk.exit (status : Int) (hp : p ∈ k.rq → (k.proc p).state = .runnable) : QueueOk (zombify k p status) := by
  unfold zombify
  simp only
  split
  · exact (hQ.remove p).set rfl (fun h => absurd h (not_mem_rqRemove hQ p))
  · rename_i h
    exact hQ.set rfl (fun hm => absurd (hp hm) h)

end

section
variable {n : Nat} {h : Fin n} {s s' : Smp n} {a : SmpAct n}

theorem QueueOk.call (hQ : QueueOk s.k) {c : Call} (hl : s.loc h = .run p)
    (hp : s.k.panic = none) (hok : inTime s (.call h c)) (hs : callOf s h p c = some s') : QueueOk s'.k := by
  unfold callOf at hs
  split at hs
  · cases hs
    exact hQ.setRunnable p
  · rename_i np _
    cases hs
    exact hQ.set rfl (hQ.alive np)
  · rename_i np _
    cases hs
    exact hQ.ready np
  · cases hs
  · cases hs
    exact hQ.sleep p _
  · cases hs
    split
    · exact hQ.kill _
    · exact hQ
  · split at hs
    · rename_i hu
      cases hs
      exact hQ.child p _ hu
    · cases hs
  · cases hs
    exact hQ.set rfl (hQ.alive p)
  · split at hs
    · rename_i pp _ _
      cases hs
      exact hQ.set rfl (hQ.alive pp)
    · cases hs
  · rename_i status hf
    split at hs
    · cases hs
      exact ⟨hQ.nodup, hQ.flag, hQ.alive, by simp [withKern]⟩
    · rename_i hi
      cases hs
      simp only [inTime, hl] at hok
      exact hQ.exit status (hok hp hf hi)
  · split at hs
    · rename_i hz
      cases hs
      exact hQ.outside (hQ.not_mem (by simp [Proc.alive, hz.2])) rfl
    · cases hs
  · cases hs
  · cases hs

theorem QueueOk.advance (hQ : QueueOk s.k) (hp : s.k.panic = none)
    (hok : inTime s (.advance h)) (hs : advanceHart s h = some s') : QueueOk s'.k := by
  unfold advanceHart at hs
  split at hs
  · cases hs
    exact hQ
  · split at hs
    · cases hs
      exact hQ
    split at hs
    · cases hs
      exact hQ
    · rename_i hd
      cases hs
      exact hQ.dequeue hd
  · rename_i hl
    cases hs
    simp only [inTime, hl] at hok
    exact hQ.insert (hok hp)
  · cases hs
    unfold dispatch
    split
    · exact hQ.set rfl (fun _ => by simp [Proc.alive])
    · exact hQ
  · cases hs
  · rename_i hl
    cases hs
    simp only [inTime, hl] at hok
    exact hQ.insert (hok hp)
  · split at hs
    · cases hs
      exact ⟨hQ.nodup, hQ.flag, hQ.alive, by simp [withKern]⟩
    · cases hs
      exact hQ

theorem queueOk_step (hQ : QueueOk s.k) (hok : inTime s a) (hs : smpStep s a = some s') : QueueOk s'.k := by
  unfold smpStep at hs
  split at hs
  · cases hs
  rename_i hp
  have hp : s.k.panic = none := by simpa using hp
  split at hs
  · exact hQ.advance hp hok hs
  · split at hs
    · rename_i hl
      exact hQ.call hl hp hok hs
    · cases hs
  · split at hs
    · cases hs
      exact hQ.wake ..
    · cases hs
      exact hQ.wake ..
    · cases hs
  · cases hs
    exact ⟨hQ.nodup, hQ.flag, hQ.alive, hQ.panic⟩

theorem not_queueOk_insert (hQ : QueueOk k) (hi : inserts k p) (ha : ¬ (k.proc p).alive) : ¬ QueueOk (rqInsert k p) := by
  intro hQ'
  have hp : p ∉ k.rq := hQ.not_mem ha
  rcases rqInsert_cases k p with ⟨-, h | h⟩ | ⟨-, hlen, -⟩ | ⟨-, -, -, e⟩
  · simp [hi.1] at h
  · have := hi.2
    omega
  · have := hQ.room hp
    omega
  · refine ha ?_
    have := hQ'.alive p (by simp [e])
    simpa [Proc.alive] using this

theorem not_queueOk_exit (status : Int) (hp : p ∈ k.rq) (hst : (k.proc p).state ≠ .runnable) :
    ¬ QueueOk (zombify k p status) := by
  intro hQ'
  have : ((zombify k p status).proc p).alive := hQ'.alive p (by simpa [zombify, hst, setProc] using hp)
  simp [zombify, setProc_proc, Proc.alive] at this

theorem queue_breaks (hQ : QueueOk s.k) (hn : ¬ inTime s a) : ∃ s', smpStep s a = some s' ∧ ¬ QueueOk s'.k := by
  have hins : ∀ h p l, (∀ hp : s.k.panic = none, smpStep s (.advance h) = some (goto (withKern s (rqInsert s.k p)) h l)) →
      ¬ (s.k.panic = none → inserts s.k p → (s.k.proc p).alive) →
      ∃ s', smpStep s (.advance h) = some s' ∧ ¬ QueueOk s'.k := by
    intro h p l hstep hn
    simp only [Classical.not_imp] at hn
    obtain ⟨hp, hi, ha⟩ := hn
    exact ⟨_, hstep hp, not_queueOk_insert hQ hi ha⟩
  cases a with
  | advance h =>
    cases hl : s.loc h with
    | scanInsert p t =>
      simp only [inTime, hl] at hn
      exact hins h p _ (fun hp => by simp only [smpStep, hp, advanceHart, hl]; rfl) hn
    | marked p =>
      simp only [inTime, hl] at hn
      exact hins h p _ (fun hp => by simp only [smpStep, hp, advanceHart, hl]; rfl) hn
    | _ => simp [inTime, hl] at hn
  | call h c =>
    cases c with
    | exit status =>
      cases hl : s.loc h with
      | run p =>
        simp only [inTime, hl, Classical.not_imp] at hn
        obtain ⟨hp, hf, hi, hm, hst⟩ := hn
        refine ⟨swtch (withKern s (zombify s.k p status)) h p, ?_, not_queueOk_exit status hm hst⟩
        simp [smpStep, hp, hl, callOf, hf, hi]
      | _ => simp [inTime, hl] at hn
    | _ => simp [inTime] at hn
  | _ => simp [inTime] at hn

theorem queueOk_boot : QueueOk boot := ⟨by decide, by decide, by decide, by decide⟩

/-- **The ready queue is in order exactly as long as the insertions and exits are in time.**  On any number of harts and
for any interleaving of the sections: in every state of the run the queue has no slot twice, has a slot exactly when its
flag is set, has none that is unused or a zombie and has never overflowed, if and only if every insertion made after the
process's lock was let go finds the process alive and every process that exits is out of the queue or is taken out. -/
theorem queueOk_iff_inTime (n : Nat) (acts : List (SmpAct n)) :
    Run.allStates smpStep (fun s => QueueOk s.k) (smpBoot n) acts ↔ Run.allSteps smpStep inTime (smpBoot n) acts := by
  constructor
  · intro hP
    exact Run.allSteps_of_allStates (fun s a s' hQ hok => queueOk_step hQ hok)
      (fun s a hQ _ _ => queue_breaks hQ) acts _ queueOk_boot (Run.allSteps_true acts _) hP
  · intro hok
    exact Run.allStates_of_allSteps (fun s a s' hQ hok => queueOk_step hQ hok) acts _ queueOk_boot hok

end

def shortLived : Slot := ⟨1, one_lt_nproc⟩

section

local instance harts : NeZero 2 := ⟨by decide⟩

/-- `init` on hart 0 forks and waits. Hart 0 takes the child from the queue; hart 1 finds it runnable and not queued;
hart 0 runs it to its exit and goes back to `init`, which reaps it; and then hart 1 inserts it. -/
def staleInsertion : List (SmpAct 2) :=
  passOf 0 ++ [.call 0 (.forkChild shortLived true), .call 0 .forkParent, .call 0 .forkReady,
    .call 0 (.sleep (.proc initSlot))] ++
  List.replicate 66 (.advance 0) ++ [.advance 1, .advance 1, .advance 1] ++
  [.advance 0, .wake 0 (.proc initSlot) initSlot, .call 0 (.exit 0)] ++ passOf 0 ++
  [.call 0 (.reap shortLived), .advance 1]

end

/-- **The queue holds a slot that is not in use**, and once the slot is reused it holds it twice. -/
theorem stale_insertion_queues_unused :
    (Run.run smpStep (smpBoot 2) staleInsertion).map
      (fun s => (s.k.rq, (s.k.proc shortLived).state)) = some ([shortLived], .unused) ∧
    (Run.run smpStep (smpBoot 2) (staleInsertion ++
      [.call 0 (.forkChild shortLived true), .call 0 .forkParent, .call 0 .forkReady])).map (fun s => s.k.rq) =
      some [shortLived, shortLived] ∧
    ¬ Run.allStates smpStep (fun s => QueueOk s.k) (smpBoot 2) staleInsertion := by
  have hlast : (Run.run smpStep (smpBoot 2) staleInsertion).map
      (fun s => (s.k.rq, (s.k.proc shortLived).state)) = some ([shortLived], .unused) := by decide +kernel
  refine ⟨hlast, by decide +kernel, fun h => ?_⟩
  obtain ⟨t, ht, he⟩ := Option.map_eq_some_iff.1 hlast
  simp only [Prod.mk.injEq] at he
  have := (Run.allStates_last staleInsertion _ t h ht).alive shortLived (by simp [he.1])
  exact this.1 he.2

end Xv6.Sched
