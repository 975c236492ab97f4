import Xv6.LibRun
import Xv6.Param
/-!
# LockModel — the spinlocks of the scheduler

A hart runs one routine after the other: `clockintr`, `wakeup`, `kfork`, `kkill`, `yield`, `sleep`, a pass of `scheduler`, with
the locks it acquires and releases in order. Of these `tickslock`, `rq_lock` and the process locks are modelled; what a routine
does with them depends on the data it finds, which is left open. A switch between a process and the scheduler keeps the
process's lock on the hart, and whoever runs next releases it. Interrupts are off while a hart holds a spinlock, so that every
routine starts with none.

All locks are taken in the order `tickslock`, process lock, `rq_lock`, with one exception: `rq_insert` takes `tickslock` to
read
the time while it holds `rq_lock`. Harts can wait for each other in a circle only when one holds `tickslock` at that time
(`no_lock_cycle`, `clock_and_fork_deadlock`).
-/
namespace Xv6.Lock

open Function List

/-! ## Waiting in a circle -/

section Order
variable {η l : Type} {holder : l → Option η} {want : η → Option l}

def Waits (holder : l → Option η) (want : η → Option l) (h h' : η) : Prop := ∃ x, want h = some x ∧ holder x = some h'

theorem not_transGen_waits {rank : l → Nat}
    (hord : ∀ h h' x y, want h = some x → holder x = some h' → holder y = some h → rank y < rank x)
    (h : η) : ¬ Relation.TransGen (Waits holder want) h h := by
  -- along a path of waiting harts the ranks of the locks wanted grow
  have hgrow : ∀ h', Relation.TransGen (Waits holder want) h h' → ∀ x y h'', want h = some x → want h' = some y →
      holder y = some h'' → rank x < rank y := by
    intro h' hp
    induction hp with
    | single hw =>
      intro x y h'' hx hy hh
      obtain ⟨x', hx', hh'⟩ := hw
      rw [hx] at hx'
      cases hx'
      exact hord _ _ y x hy hh hh'
    | tail _ hw ih =>
      intro x y h'' hx hy hh
      obtain ⟨z, hz, hh'⟩ := hw
      exact lt_trans (ih x z _ hx hz hh') (hord _ _ y z hy hh hh')
  intro hp
  obtain ⟨x, h', hx, hh⟩ : ∃ x h', want h = some x ∧ holder x = some h' := by
    obtain ⟨b, hw, -⟩ := Relation.TransGen.head'_iff.1 hp
    obtain ⟨x, hx, hh⟩ := hw
    exact ⟨x, b, hx, hh⟩
  exact lt_irrefl _ (hgrow h hp x x h' hx hx hh)

end Order

/-! ## The routines -/

inductive LockId where
  | tickslock
  | proc (p : Slot)
  | rqLock
  deriving DecidableEq, Repr

/-- What a hart does with the locks. `readTicks` is `if(holding(&tickslock)) now = ticks; else` with `acquire` and `release`
around it. -/
inductive Op where
  | acquire (x : LockId)
  | release (x : LockId)
  | readTicks
  deriving DecidableEq, Repr

/-- `rq_insert`; a process that is queued already is found by the first test. -/
def rqInsert (queued : Bool) : List Op :=
  .acquire .rqLock :: ((if queued then [] else [.readTicks]) ++ [.release .rqLock])

def rqRemove : List Op := [.acquire .rqLock, .release .rqLock]

/-- `rq_insert` where it is called, with what it finds. -/
def insertIf : Option Bool → List Op
  | none => []
  | some queued => rqInsert queued

/-- A section under the lock of `p`, which may call `rq_insert`. -/
def guarded (p : Slot) (ins : Option Bool) : List Op := .acquire (.proc p) :: (insertIf ins ++ [.release (.proc p)])

/-- `wakeup` by the process `me`; `woken` says which slots it makes runnable. -/
def wakeup (me : Option Slot) (woken : Slot → Option Bool) : List Op :=
  ((List.finRange nproc).filter (fun p => me ≠ some p)).flatMap (fun p => guarded p (woken p))

def search (p : Option Slot) : List Op :=
  ((List.finRange nproc).filter (fun q => ∀ x ∈ p, q < x)).flatMap (fun q => guarded q none)

def clockintr (me : Option Slot) (woken : Slot → Option Bool) : List Op :=
  .acquire .tickslock :: (wakeup me woken ++ [.release .tickslock])

/-- `kfork` with the slot `allocproc` finds and what its `rq_insert` finds, if it gets there. -/
def kfork : Option (Slot × Option Bool) → List Op
  | none => search none
  | some (np, ins) =>
    search (some np) ++ (guarded np none ++ (match ins with | none => [] | some queued => guarded np (some queued)))

def kkill (p : Option Slot) (ins : Option Bool) : List Op :=
  search p ++ (match p with | none => [] | some p => guarded p ins)

def yield (p : Slot) (queued : Bool) : List Op := guarded p none ++ (rqInsert queued ++ guarded p none)

/-- `sleep` with a lock that is none of these. -/
def sleep (p : Slot) (runnable : Bool) : List Op :=
  .acquire (.proc p) :: ((if runnable then rqRemove else []) ++ [.release (.proc p)])

/-- `sys_pause` from one `acquire(&tickslock)` on: with `asleep`, to the next `sleep(&ticks, &tickslock)`. -/
def pause (p : Slot) (asleep runnable : Bool) : List Op :=
  .acquire .tickslock :: (guarded p none ++
    (if asleep then .acquire (.proc p) :: .release .tickslock :: ((if runnable then rqRemove else []) ++ [.release (.proc p)])
    else [.release .tickslock]))

/-- A pass of `scheduler`: which candidates it inserts, and the process it dequeues. -/
def scheduler (scan : Slot → Option Bool) (picked : Option Slot) : List Op :=
  .acquire .tickslock :: .release .tickslock ::
    ((List.finRange nproc).flatMap (fun p => guarded p none ++ insertIf (scan p)) ++ (rqRemove ++
      (match picked with | none => [] | some p => guarded p none)))

inductive Routine where
  | clockintr (me : Option Slot) (woken : Slot → Option Bool)
  | wakeup (me : Option Slot) (woken : Slot → Option Bool)
  | kfork (np : Option (Slot × Option Bool))
  | kkill (p : Option Slot) (ins : Option Bool)
  | yield (p : Slot) (queued : Bool)
  | sleep (p : Slot) (runnable : Bool)
  | pause (p : Slot) (asleep runnable : Bool)
  | scheduler (scan : Slot → Option Bool) (picked : Option Slot)

def Routine.ops : Routine → List Op
  | .clockintr me woken => Lock.clockintr me woken
  | .wakeup me woken => Lock.wakeup me woken
  | .kfork np => Lock.kfork np
  | .kkill p ins => Lock.kkill p ins
  | .yield p queued => Lock.yield p queued
  | .sleep p runnable => Lock.sleep p runnable
  | .pause p asleep runnable => Lock.pause p asleep runnable
  | .scheduler scan picked => Lock.scheduler scan picked

/-! ## Harts -/

structure St (n : Nat) where
  holder : LockId → Option (Fin n)
  todo : Fin n → List Op

inductive Act (n : Nat) where
  | start (h : Fin n) (r : Routine)
  | advance (h : Fin n)

variable {n k : Nat}

def want (s : St n) (h : Fin n) : Option LockId :=
  match s.todo h with
  | .acquire x :: _ => some x
  | _ => none

def step (s : St n) : Act n → Option (St n)
  | .start h r => if s.todo h = [] then some { s with todo := update s.todo h r.ops } else none
  | .advance h =>
    match s.todo h with
    | [] => none
    | .acquire x :: rest =>
      if s.holder x = none then
        some ⟨update s.holder x (some h), update s.todo h rest⟩
      else none
    | .release x :: rest =>
      if s.holder x = some h then some ⟨update s.holder x none, update s.todo h rest⟩ else none
    | .readTicks :: rest =>
      let ops := if s.holder .tickslock = some h then rest else .acquire .tickslock :: .release .tickslock :: rest
      some { s with todo := update s.todo h ops }

def boot : St n := ⟨fun _ => none, fun _ => []⟩

/-- **Harts wait in a circle.** -/
def Deadlock (s : St n) : Prop := ∃ h, Relation.TransGen (Waits s.holder (want s)) h h

/-- The hart is in `rq_insert` and about to read the time. -/
def Reading (s : St n) (h : Fin n) : Prop :=
  s.holder .rqLock = some h ∧ ((s.todo h).head? = some .readTicks ∨ want s h = some .tickslock)

instance (s : St n) (h : Fin n) : Decidable (Reading s h) := inferInstanceAs (Decidable (_ ∧ _))

/-- **`tickslock` and the reading of the time in `rq_insert` are kept apart**: nobody takes `tickslock` while another hart is
about to read the time there, and nobody goes there while another hart holds `tickslock`. -/
def Apart (s : St n) : Act n → Prop
  | .start _ _ => True
  | .advance h =>
    (want s h = some .tickslock → ∀ h', h' ≠ h → ¬ Reading s h') ∧
    (want s h = some .rqLock → (s.todo h).tail.head? = some .readTicks → ∀ h', s.holder .tickslock = some h' → h' = h)

instance (s : St n) : ∀ a, Decidable (Apart s a)
  | .start _ _ => isTrue trivial
  | .advance h => inferInstanceAs (Decidable ((want s h = some .tickslock → ∀ h', h' ≠ h → ¬ Reading s h') ∧
    (want s h = some .rqLock → (s.todo h).tail.head? = some .readTicks → ∀ h', s.holder .tickslock = some h' → h' = h)))

/-! ## The order -/

def LockId.rank : LockId → Nat
  | .tickslock => 0
  | .proc _ => 1
  | .rqLock => 2

/-- **The operations `ops` keep the order**, from a point where the locks `held` are held; at the end all are released. -/
def Ordered : List LockId → List Op → Prop
  | held, [] => held = []
  | held, .acquire x :: ops => (∀ y ∈ held, y.rank < x.rank) ∧ Ordered (x :: held) ops
  | held, .release x :: ops => x ∈ held ∧ (.rqLock ∈ held → x = .rqLock) ∧ Ordered (held.erase x) ops
  | held, .readTicks :: ops => .rqLock ∈ held ∧ Ordered held ops

/-- A part of a routine that releases what it acquires. -/
def Balanced (held : List LockId) (part : List Op) : Prop := ∀ ops, Ordered held ops → Ordered held (part ++ ops)

variable {held : List LockId} {part part' : List Op}

theorem balanced_nil : Balanced held [] := fun _ h => h

theorem Balanced.append (h : Balanced held part) (h' : Balanced held part') : Balanced held (part ++ part') := fun ops ho => by
  rw [List.append_assoc]
  exact h _ (h' _ ho)

theorem balanced_flatMap {α : Type} {f : α → List Op} : ∀ (xs : List α), (∀ x, Balanced held (f x)) →
    Balanced held (xs.flatMap f)
  | [], _ => balanced_nil
  | x :: xs, h => (h x).append (balanced_flatMap xs h)

variable {x y : LockId} {rest : List Op}

theorem balanced_lock (hx : ∀ y ∈ held, y.rank < x.rank) (h : Balanced (x :: held) part) :
    Balanced held (.acquire x :: (part ++ [.release x])) := fun ops ho => by
  refine ⟨hx, ?_⟩
  change Ordered (x :: held) (part ++ [.release x] ++ ops)
  rw [List.append_assoc]
  refine h _ ⟨List.mem_cons_self, fun hrq => ?_, ?_⟩
  · rcases List.mem_cons.1 hrq with e | hrq
    · exact e.symm
    · have h2 : 2 < x.rank := hx _ hrq
      cases x <;> simp [LockId.rank] at h2
  · rwa [List.erase_cons_head]

theorem balanced_rqInsert (queued : Bool) (hx : ∀ y ∈ held, y.rank < 2) : Balanced held (rqInsert queued) := by
  refine balanced_lock (x := .rqLock) hx ?_
  cases queued with
  | true => exact balanced_nil
  | false => exact fun ops ho => ⟨mem_cons_self, ho⟩

theorem balanced_insertIf (ins : Option Bool) (hx : ∀ y ∈ held, y.rank < 2) : Balanced held (insertIf ins) := by
  cases ins with
  | none => exact balanced_nil
  | some queued => exact balanced_rqInsert queued hx

theorem balanced_rqRemove (hx : ∀ y ∈ held, y.rank < 2) : Balanced held rqRemove :=
  balanced_lock (x := .rqLock) hx balanced_nil

theorem balanced_guarded (p : Slot) (ins : Option Bool) (hx : ∀ y ∈ held, y.rank < 1) : Balanced held (guarded p ins) := by
  refine balanced_lock (x := .proc p) hx (balanced_insertIf ins (fun y hy => ?_))
  rcases mem_cons.1 hy with rfl | hy
  · exact Nat.lt_succ_self 1
  · exact lt_trans (hx y hy) (Nat.lt_succ_self 1)

theorem balanced_wakeup (me : Option Slot) (woken : Slot → Option Bool) (hx : ∀ y ∈ held, y.rank < 1) :
    Balanced held (wakeup me woken) := balanced_flatMap _ (fun p => balanced_guarded p _ hx)

theorem balanced_search (p : Option Slot) (hx : ∀ y ∈ held, y.rank < 1) : Balanced held (search p) :=
  balanced_flatMap _ (fun q => balanced_guarded q none hx)

theorem below_nil (k : Nat) : ∀ y ∈ ([] : List LockId), y.rank < k := fun _ hy => by cases hy

theorem below_one (x : LockId) (h : x.rank < k) : ∀ y ∈ [x], y.rank < k := fun y hy => by
  rw [List.mem_singleton.1 hy]
  exact h

theorem balanced_optSection (p : Option Slot) (ins : Option Bool) :
    Balanced [] (match p with | none => [] | some p => guarded p ins) := by
  cases p with
  | none => exact balanced_nil
  | some p => exact balanced_guarded p ins (below_nil 1)

theorem balanced_ops (r : Routine) : Balanced [] r.ops := by
  have h0 := below_nil 1
  have h0' := below_nil 2
  cases r with
  | clockintr me woken => exact balanced_lock (below_nil _) (balanced_wakeup me woken (below_one _ Nat.zero_lt_one))
  | wakeup me woken => exact balanced_wakeup me woken h0
  | kfork np =>
    cases np with
    | none => exact balanced_search none h0
    | some x =>
      obtain ⟨np, ins⟩ := x
      refine (balanced_search _ h0).append ((balanced_guarded np none h0).append ?_)
      cases ins with
      | none => exact balanced_nil
      | some queued => exact balanced_guarded np _ h0
  | kkill p ins => exact (balanced_search p h0).append (balanced_optSection p ins)
  | yield p queued =>
    exact (balanced_guarded p none h0).append ((balanced_rqInsert queued h0').append (balanced_guarded p none h0))
  | sleep p runnable =>
    refine balanced_lock (x := .proc p) h0 ?_
    cases runnable with
    | true => exact balanced_rqRemove (below_one _ (Nat.lt_succ_self 1))
    | false => exact balanced_nil
  | pause p asleep runnable =>
    cases asleep with
    | false => exact balanced_lock (below_nil _) (balanced_guarded p none (below_one _ Nat.zero_lt_one))
    | true =>
      -- `tickslock` is released between the `acquire` and the `release` of the process lock
      intro ops ho
      have hrest : Balanced [.proc p] (if runnable then rqRemove else []) := by
        cases runnable with
        | true => exact balanced_rqRemove (below_one _ (Nat.lt_succ_self 1))
        | false => exact balanced_nil
      have herase : ([.proc p, .tickslock] : List LockId).erase .tickslock = [.proc p] := by
        rw [erase_cons_tail (by simp), erase_cons_head]
      have hlast : Ordered [.proc p] ([.release (.proc p)] ++ ops) :=
        ⟨mem_cons_self, fun hrq => (by cases mem_singleton.1 hrq), by rwa [erase_cons_head]⟩
      have htail := hrest _ hlast
      rw [← append_assoc] at htail
      have hinner : Ordered [.tickslock] (.acquire (.proc p) :: .release .tickslock ::
          ((if runnable then rqRemove else []) ++ [.release (.proc p)] ++ ops)) := by
        refine ⟨below_one _ Nat.zero_lt_one, mem_cons_of_mem _ mem_cons_self, fun hrq => ?_, ?_⟩
        · rcases mem_cons.1 hrq with e | e
          · cases e
          · cases mem_singleton.1 e
        · exact htail
      have hbody : Ordered [.tickslock] (guarded p none ++ (.acquire (.proc p) :: .release .tickslock ::
          ((if runnable then rqRemove else []) ++ [.release (.proc p)] ++ ops))) :=
        balanced_guarded p none (below_one .tickslock Nat.zero_lt_one) _ hinner
      refine ⟨below_nil _, ?_⟩
      change Ordered [.tickslock] (guarded p none ++ _ ++ ops)
      exact hbody
  | scheduler scan picked =>
    have hscan : Balanced [] ((finRange nproc).flatMap (fun p => guarded p none ++ insertIf (scan p))) :=
      balanced_flatMap _ (fun p => (balanced_guarded p none h0).append (balanced_insertIf _ h0'))
    have hticks : Balanced [] [.acquire .tickslock, .release .tickslock] :=
      balanced_lock (x := .tickslock) (below_nil _) balanced_nil
    exact hticks.append (hscan.append ((balanced_rqRemove h0').append (balanced_optSection picked none)))

/-! ## Runs -/

/-- What a hart has still to do, from the locks it holds on; inside `rq_insert` it may be about to take or to give back
`tickslock`, out of order. -/
def Steady (held : List LockId) (ops : List Op) : Prop :=
  Ordered held ops ∨ .rqLock ∈ held ∧
    ((∃ rest, ops = .acquire .tickslock :: .release .tickslock :: rest ∧ .tickslock ∉ held ∧ Ordered held rest) ∨
      ∃ rest, ops = .release .tickslock :: rest ∧ .tickslock ∈ held ∧ Ordered (held.erase .tickslock) rest)

def Holds (s : St n) (h : Fin n) (held : List LockId) : Prop := held.Nodup ∧ ∀ x, s.holder x = some h ↔ x ∈ held

/-- **What every step keeps**: what a hart has to do keeps the order, and while it is about to read the time in `rq_insert` no
other holds `tickslock`. -/
structure Inv (s : St n) : Prop where
  steady : ∀ h, ∃ held, Holds s h held ∧ Steady held (s.todo h)
  reading : ∀ h h', Reading s h → s.holder .tickslock = some h' → h' = h

theorem boot_inv : Inv (boot : St n) :=
  ⟨fun _ => ⟨[], ⟨nodup_nil, fun x => ⟨fun e => (by cases e), fun e => (by cases e)⟩⟩, .inl rfl⟩,
    fun _ _ hr _ => by cases hr.1⟩

variable {s s' : St n} {h h' : Fin n}

theorem want_acquire (hw : want s h = some x) : ∃ rest, s.todo h = .acquire x :: rest := by
  unfold want at hw
  split at hw
  · rename_i rest hr
    cases hw
    exact ⟨rest, hr⟩
  · cases hw

theorem Inv.rank_lt (hI : Inv s) (hw : want s h = some x) (hx : s.holder x = some h')
    (hy : s.holder y = some h) : y.rank < x.rank := by
  obtain ⟨held, ⟨-, hmem⟩, hst⟩ := hI.steady h
  obtain ⟨rest, hr⟩ := want_acquire hw
  rw [hr] at hst
  rcases hst with hord | ⟨hrq, ⟨rest', e, hno, -⟩ | ⟨rest', e, -⟩⟩
  · exact hord.1 y ((hmem y).1 hy)
  · -- in `rq_insert` nobody else holds `tickslock`
    cases e
    have := hI.reading h h' ⟨(hmem _).2 hrq, .inr hw⟩ hx
    subst this
    exact absurd ((hmem _).1 hx) hno
  · cases e

theorem Inv.no_deadlock (hI : Inv s) : ¬ Deadlock s := by
  rintro ⟨h, hc⟩
  exact not_transGen_waits (fun _ _ _ _ hw hx hy => hI.rank_lt hw hx hy) h hc

theorem want_congr (he : s'.todo h = s.todo h) : want s' h = want s h := by
  unfold want
  rw [he]

theorem Reading.congr (hr : Reading s' h) (he : s'.todo h = s.todo h)
    (hq : s'.holder .rqLock = some h → s.holder .rqLock = some h) : Reading s h := by
  obtain ⟨h1, h2⟩ := hr
  rw [he, want_congr he] at h2
  exact ⟨hq h1, h2⟩

theorem Inv.start (hI : Inv s) (r : Routine) (h0 : s.todo h = []) : Inv { s with todo := update s.todo h r.ops } := by
  have hnone : ∀ x, s.holder x ≠ some h := fun x hx => by
    obtain ⟨held, ⟨-, hmem⟩, hst⟩ := hI.steady h
    rw [h0] at hst
    rcases hst with hord | ⟨-, ⟨rest, e, -⟩ | ⟨rest, e, -⟩⟩
    · rw [show held = [] from hord] at hmem
      cases (hmem x).1 hx
    · cases e
    · cases e
  refine ⟨fun h1 => ?_, fun h1 h2 hr ht => ?_⟩
  · by_cases e : h1 = h
    · subst e
      refine ⟨[], ⟨nodup_nil, fun x => ⟨fun hx => absurd hx (hnone x), fun hx => (by cases hx)⟩⟩, .inl ?_⟩
      dsimp only
      rw [update_self, ← append_nil r.ops]
      exact balanced_ops r [] rfl
    · dsimp only
      rw [update_of_ne e]
      exact hI.steady h1
  · by_cases e : h1 = h
    · subst e
      exact absurd hr.1 (hnone _)
    · exact hI.reading h1 h2 (hr.congr (update_of_ne e _ _) id) ht

theorem Holds.acquire (hh : Holds s h held) (hx : s.holder x = none)
    (todo : Fin n → List Op) : Holds ⟨update s.holder x (some h), todo⟩ h (x :: held) := by
  refine ⟨nodup_cons.2 ⟨fun hm => ?_, hh.1⟩, fun y => ?_⟩
  · rw [(hh.2 x).2 hm] at hx
    cases hx
  by_cases e : y = x
  · subst e
    simp
  · dsimp only
    rw [update_of_ne e, mem_cons, hh.2 y]
    exact ⟨.inr, fun hy => hy.resolve_left e⟩

theorem Holds.release (hh : Holds s h held) (x : LockId) (todo : Fin n → List Op) :
    Holds ⟨update s.holder x none, todo⟩ h (held.erase x) := by
  refine ⟨hh.1.erase x, fun y => ?_⟩
  rw [hh.1.mem_erase_iff]
  by_cases e : y = x
  · subst e
    simp
  · dsimp only
    rw [update_of_ne e, hh.2 y]
    exact ⟨fun hy => ⟨e, hy⟩, fun hy => hy.2⟩

theorem Holds.other (hh : Holds s h held) (he : ∀ x, s'.holder x = some h ↔ s.holder x = some h) : Holds s' h held :=
  ⟨hh.1, fun x => (he x).trans (hh.2 x)⟩

theorem Inv.acquire (hI : Inv s) (ht : s.todo h = .acquire x :: rest)
    (hx : s.holder x = none) (hok : Apart s (.advance h)) : Inv ⟨update s.holder x (some h), update s.todo h rest⟩ := by
  have hw : want s h = some x := by
    unfold want
    rw [ht]
  obtain ⟨held, hh, hst⟩ := hI.steady h
  rw [ht] at hst
  have hother : ∀ h1, h1 ≠ h → ∀ y, update s.holder x (some h) y = some h1 ↔ s.holder y = some h1 := fun h1 hne y => by
    by_cases e : y = x
    · subst e
      rw [update_self, hx]
      exact ⟨fun e => absurd (Option.some.inj e).symm hne, fun e => (by cases e)⟩
    · rw [update_of_ne e]
  refine ⟨fun h1 => ?_, fun h1 h2 hr ht2 => ?_⟩
  · by_cases e : h1 = h
    · subst e
      refine ⟨x :: held, hh.acquire hx _, ?_⟩
      dsimp only
      rw [update_self]
      rcases hst with hord | ⟨hrq, ⟨rest', e, hno, hord⟩ | ⟨rest', e, -⟩⟩
      · exact .inl hord.2
      · cases e
        refine .inr ⟨mem_cons_of_mem _ hrq, .inr ⟨rest', rfl, mem_cons_self, ?_⟩⟩
        rwa [erase_cons_head]
      · cases e
    · obtain ⟨held1, hh1, hst1⟩ := hI.steady h1
      refine ⟨held1, hh1.other (hother h1 e), ?_⟩
      dsimp only
      rwa [update_of_ne e]
  · dsimp only at ht2
    by_cases e : h1 = h
    · subst e
      obtain ⟨hrq, hnext⟩ := hr
      dsimp only at hrq hnext
      rw [update_self] at hnext
      rcases hst with hord | ⟨hrqm, ⟨rest', e, hno, hord⟩ | ⟨rest', e, -⟩⟩
      · -- the lock just taken is `rq_lock`: above it there is none
        have hxq : x = .rqLock := by
          by_contra hne
          rw [update_of_ne (Ne.symm hne)] at hrq
          have h2 : 2 < x.rank := hord.1 _ ((hh.2 _).1 hrq)
          cases x <;> simp [LockId.rank] at h2
        subst hxq
        rcases hnext with hnext | hnext
        · exact hok.2 hw (by rw [ht]; exact hnext) h2 ht2
        obtain ⟨rest', hr'⟩ := want_acquire hnext
        dsimp only at hr'
        rw [update_self] at hr'
        rw [hr'] at hord
        exact absurd (hord.2.1 _ mem_cons_self) (Nat.not_lt_zero _)
      · cases e
        exact (Option.some.inj ht2).symm
      · cases e
    · have hr1 : Reading s h1 := hr.congr (update_of_ne e _ _) (hother h1 e _).1
      by_cases ex : x = .tickslock
      · subst ex
        exact absurd hr1 (hok.1 hw h1 e)
      · rw [update_of_ne (Ne.symm ex)] at ht2
        exact hI.reading h1 h2 hr1 ht2

theorem Inv.release (hI : Inv s) (ht : s.todo h = .release x :: rest)
    (hx : s.holder x = some h) : Inv ⟨update s.holder x none, update s.todo h rest⟩ := by
  obtain ⟨held, hh, hst⟩ := hI.steady h
  rw [ht] at hst
  have hother : ∀ h1, h1 ≠ h → ∀ y, update s.holder x none y = some h1 ↔ s.holder y = some h1 := fun h1 hne y => by
    by_cases e : y = x
    · subst e
      rw [update_self, hx]
      exact ⟨fun e => (by cases e), fun e => absurd (Option.some.inj e).symm hne⟩
    · rw [update_of_ne e]
  have hrest : Ordered (held.erase x) rest ∧ (.rqLock ∈ held → x = .rqLock ∨ x = .tickslock) := by
    rcases hst with hord | ⟨-, ⟨rest', e, -⟩ | ⟨rest', e, -, hord⟩⟩
    · exact ⟨hord.2.2, fun hrq => .inl (hord.2.1 hrq)⟩
    · cases e
    · cases e
      exact ⟨hord, fun _ => .inr rfl⟩
  refine ⟨fun h1 => ?_, fun h1 h2 hr ht2 => ?_⟩
  · by_cases e : h1 = h
    · subst e
      refine ⟨held.erase x, hh.release x _, .inl ?_⟩
      dsimp only
      rw [update_self]
      exact hrest.1
    · obtain ⟨held1, hh1, hst1⟩ := hI.steady h1
      refine ⟨held1, hh1.other (hother h1 e), ?_⟩
      dsimp only
      rwa [update_of_ne e]
  · dsimp only at ht2
    by_cases ex : x = .tickslock
    · subst ex
      cases ht2
    rw [update_of_ne (Ne.symm ex)] at ht2
    by_cases e : h1 = h
    · subst e
      have hrq := hr.1
      dsimp only at hrq
      by_cases exq : x = .rqLock
      · subst exq
        cases hrq
      · rw [update_of_ne (Ne.symm exq)] at hrq
        exact absurd (hrest.2 ((hh.2 _).1 hrq)) (fun hor => hor.elim exq ex)
    · exact hI.reading h1 h2 (hr.congr (update_of_ne e _ _) (hother h1 e _).1) ht2

theorem Inv.readTicks (hI : Inv s) (ht : s.todo h = .readTicks :: rest) : Inv ⟨s.holder, update s.todo h
      (if s.holder .tickslock = some h then rest else .acquire .tickslock :: .release .tickslock :: rest)⟩ := by
  obtain ⟨held, hh, hst⟩ := hI.steady h
  rw [ht] at hst
  obtain ⟨hrq, hord⟩ : .rqLock ∈ held ∧ Ordered held rest := by
    rcases hst with hord | ⟨-, ⟨rest', e, -⟩ | ⟨rest', e, -⟩⟩
    · exact hord
    · cases e
    · cases e
  have hreading : Reading s h := ⟨(hh.2 _).2 hrq, .inl (by rw [ht]; rfl)⟩
  refine ⟨fun h1 => ?_, fun h1 h2 hr ht2 => ?_⟩
  · by_cases e : h1 = h
    · subst e
      refine ⟨held, hh, ?_⟩
      dsimp only
      rw [update_self]
      split
      · exact .inl hord
      · rename_i hno
        exact .inr ⟨hrq, .inl ⟨rest, rfl, fun hm => hno ((hh.2 _).2 hm), hord⟩⟩
    · dsimp only
      rw [update_of_ne e]
      exact hI.steady h1
  · by_cases e : h1 = h
    · subst e
      exact hI.reading h1 h2 hreading ht2
    · exact hI.reading h1 h2 (hr.congr (update_of_ne e _ _) id) ht2

theorem Inv.step {a : Act n} (hI : Inv s) (hok : Apart s a) (hs : step s a = some s') : Inv s' := by
  cases a with
  | start h r =>
    unfold Lock.step at hs
    dsimp only at hs
    split at hs
    · rename_i h0
      cases hs
      exact hI.start r h0
    · cases hs
  | advance h =>
    unfold Lock.step at hs
    dsimp only at hs
    split at hs
    · cases hs
    · rename_i x rest ht
      split at hs
      · rename_i hx
        cases hs
        exact hI.acquire ht hx hok
      · cases hs
    · rename_i x rest ht
      split at hs
      · rename_i hx
        cases hs
        exact hI.release ht hx
      · cases hs
    · rename_i rest ht
      cases hs
      exact hI.readTicks ht

/-- **Harts never wait in a circle** as long as `tickslock` and the reading of the time in `rq_insert` are kept apart: in
every run on any number of harts, in any order. -/
theorem no_lock_cycle (as : List (Act n)) (hok : Run.allSteps step Apart (boot : St n) as) :
    Run.allStates step (fun s => ¬ Deadlock s) (boot : St n) as :=
  Run.allStates_mono (fun _ hI => hI.no_deadlock) as _
    (Run.allStates_of_allSteps (fun _ _ _ hI hok hs => hI.step hok hs) as _ boot_inv hok)

def child : Slot := ⟨1, by decide⟩

/-- Hart 1 forks to the end, and then hart 0 takes a clock interrupt. -/
def forkThenClock : List (Act 2) :=
  .start 1 (.kfork (some (child, some false))) :: (List.replicate 11 (.advance 1) ++
    .start 0 (.clockintr none (fun _ => none)) :: List.replicate 6 (.advance 0))

theorem no_lock_cycle_forkThenClock : (Run.run step (boot : St 2) forkThenClock).isSome = true ∧
    Run.allStates step (fun s => ¬ Deadlock s) (boot : St 2) forkThenClock :=
  ⟨by decide +kernel, no_lock_cycle forkThenClock (by decide +kernel)⟩

/-- Hart 1 is in `kfork` with the lock of the child in slot 1 when hart 0 takes `tickslock` in `clockintr`; hart 1 goes on to
read the time in `rq_insert`, hart 0 to slot 1 in `wakeup`. -/
def clockInFork : List (Act 2) :=
  .start 1 (.kfork (some (child, some false))) :: (List.replicate 5 (.advance 1) ++
    .start 0 (.clockintr none (fun _ => none)) :: .advance 0 :: .advance 1 :: .advance 1 :: List.replicate 2 (.advance 0))

/-- **Hart 0 holds `tickslock` and waits for the lock of slot 1; hart 1 holds that lock and waits for `tickslock`.** -/
theorem clock_and_fork_deadlock : ∃ s, Run.run step (boot : St 2) clockInFork = some s ∧ Deadlock s := by
  have hrun : (Run.run step (boot : St 2) clockInFork).map (fun s =>
      (want s 0, s.holder (.proc child), want s 1, s.holder .tickslock)) =
      some (some (.proc child), some 1, some .tickslock, some 0) := by decide +kernel
  obtain ⟨s, hs, he⟩ := Option.map_eq_some_iff.1 hrun
  simp only [Prod.mk.injEq] at he
  obtain ⟨h1, h2, h3, h4⟩ := he
  have h01 : Waits s.holder (want s) 0 1 := ⟨_, h1, h2⟩
  have h10 : Waits s.holder (want s) 1 0 := ⟨_, h3, h4⟩
  exact ⟨s, hs, 0, Relation.TransGen.tail (Relation.TransGen.single h01) h10⟩

end Xv6.Lock
