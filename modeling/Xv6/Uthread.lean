import Xv6.LibRun
/-!
# Uthread — user-level threads

`thread_switch` stores the registers of one thread and loads those of another, by hand-written offsets. A thread that is
resumed
has the registers it was switched out with (`threads_transparent`). `thread_create` takes the first FREE element of
`all_thread`;
where there is none its search ends behind the table, and it writes there (`create_beyond_table`).
-/
namespace Xv6.Uthread

open Function

inductive TState
  | free | running | runnable
  deriving DecidableEq

/-- The fields of `struct regi`, in order. -/
inductive Reg
  | ra | sp | s0 | s1 | s2 | s3 | s4 | s5 | s6 | s7 | s8 | s9 | s10 | s11

def Reg.offset (r : Reg) : Nat := 8 * r.ctorIdx

def maxThread : Nat := 4

/-- The processor, and `all_thread` with the memory behind it: the registers of an element are read by their offset. `had` and
`alive` are not in the program: what a thread was made or switched out with, and where a thread is that has not exited. -/
structure St where
  allThread : Nat
  regs : Reg → Nat
  state : Nat → TState
  saved : Nat → Nat → Nat
  current : Nat
  had : Nat → Reg → Option Nat
  alive : Nat → Bool

/-- `sd r, off(a0)` and `ld r, off(a1)` -/
inductive Instr
  | sd (r : Reg) (off : Nat)
  | ld (r : Reg) (off : Nat)

def Instr.exec (a0 a1 : Nat) (s : St) : Instr → St
  | .sd r off => { s with saved := update s.saved a0 (update (s.saved a0) off (s.regs r)) }
  | .ld r off => { s with regs := fun x => if x.ctorIdx = r.ctorIdx then s.saved a1 off else s.regs x }

def threadSwitch (a0 a1 : Nat) (s : St) : St :=
  [.sd .ra 0, .sd .sp 8, .sd .s0 16, .sd .s1 24, .sd .s2 32, .sd .s3 40, .sd .s4 48, .sd .s5 56, .sd .s6 64, .sd .s7 72,
    .sd .s8 80, .sd .s9 88, .sd .s10 96, .sd .s11 104,
    .ld .ra 0, .ld .sp 8, .ld .s0 16, .ld .s1 24, .ld .s2 32, .ld .s3 40, .ld .s4 48, .ld .s5 56, .ld .s6 64, .ld .s7 72,
    .ld .s8 80, .ld .s9 88, .ld .s10 96, .ld .s11 104].foldl (Instr.exec a0 a1) s

/-- The loop of `thread_schedule`, with the turns that are left. -/
def scan (s : St) : Nat → Nat → Option Nat
  | 0, _ => none
  | n + 1, t =>
    let t := if t ≥ maxThread then 0 else t
    if s.state t = .runnable then some t else scan s n (t + 1)

/-- `thread_schedule`; without a runnable thread the process exits. -/
def threadSchedule (s : St) : Option St :=
  match scan s maxThread (s.current + 1) with
  | none => none
  | some next =>
    if s.current ≠ next then
      some { threadSwitch s.current next { s with state := update s.state next .running, current := next } with
        had := update s.had s.current (fun r => some (s.regs r)) }
    else some s

def freeFrom (s : St) : Nat → Nat → Nat
  | 0, t => t
  | n + 1, t => if s.state t = .free then t else freeFrom s n (t + 1)

def St.stackTop (s : St) (t : Nat) : Nat := s.allThread + 8312 * t + 8191

def threadCreate (func : Nat) (s : St) : St :=
  let t := freeFrom s maxThread 0
  { s with
    state := update s.state t .runnable
    saved := update s.saved t (update (update (s.saved t) Reg.sp.offset (s.stackTop t)) Reg.ra.offset func)
    had := update s.had t (fun | .ra => some func | .sp => some (s.stackTop t) | _ => none)
    alive := update s.alive t true }

def threadInit (s : St) : St :=
  { s with
    current := 0, state := update s.state 0 .running, alive := update s.alive 0 true
    saved := update s.saved 0 (fun o => if o < 112 then 0 else s.saved 0 o), had := update s.had 0 (fun _ => some 0) }

/-- A call of the running thread, or its own code, which may change every register. -/
inductive Act
  | init
  | run (regs : Reg → Nat)
  | create (func : Nat)
  | yield
  | exit
  | schedule

/-- The state in which a call reaches `thread_schedule`. -/
def St.calling (s : St) : Act → St
  | .yield => { s with state := update s.state s.current .runnable }
  | .exit => { s with state := update s.state s.current .free, alive := update s.alive s.current false }
  | _ => s

def step (s : St) : Act → Option St
  | .init => some (threadInit s)
  | .run regs => some { s with regs := regs }
  | .create func => some (threadCreate func s)
  | a => threadSchedule (s.calling a)

/-- After `thread_init`, in memory that is zero. -/
def start (allThread : Nat) (regs : Reg → Nat) : St :=
  threadInit ⟨allThread, regs, fun _ => .free, fun _ _ => 0, 0, fun _ _ => none, fun _ => false⟩

variable {s s' : St} {a0 a1 t : Nat}

/-- **The offsets of the assembly are those of the structure.** -/
theorem threadSwitch_spec (h : a0 ≠ a1) (s : St) : ∃ m, (∀ r, m (Reg.offset r) = s.regs r) ∧
    threadSwitch a0 a1 s = { s with saved := update s.saved a0 m, regs := fun r => s.saved a1 r.offset } := by
  refine ⟨(threadSwitch a0 a1 s).saved a0, fun r => ?_, ?_⟩
  · cases r <;> simp [threadSwitch, Instr.exec, Reg.offset, Reg.ctorIdx]
  simp only [threadSwitch, Instr.exec, List.foldl, update_self, update_idem, update_of_ne h.symm, St.mk.injEq,
    true_and, and_true]
  funext r
  cases r <;> rfl

/-- The `i`-th slot behind the current one is the first that is runnable. -/
def FirstRunnable (s : St) (t i : Nat) : Prop :=
  s.state ((t + i) % maxThread) = .runnable ∧ ∀ j < i, s.state ((t + j) % maxThread) ≠ .runnable

theorem scan_spec : ∀ (n t : Nat), t ≤ maxThread →
    (∃ i < n, scan s n t = some ((t + i) % maxThread) ∧ FirstRunnable s t i) ∨
    scan s n t = none ∧ ∀ j < n, s.state ((t + j) % maxThread) ≠ .runnable
  | 0, t, _ => .inr ⟨rfl, fun _ hj => absurd hj (Nat.not_lt_zero _)⟩
  | n + 1, t, ht => by
    have hmod : (if t ≥ maxThread then 0 else t) = t % maxThread := by
      unfold maxThread at *
      split <;> omega
    unfold scan
    rw [hmod]
    by_cases hr : s.state (t % maxThread) = .runnable
    · rw [if_pos hr]
      exact .inl ⟨0, by omega, rfl, hr, nofun⟩
    rw [if_neg hr]
    have hnext : ∀ j, (t % maxThread + 1 + j) % maxThread = (t + (j + 1)) % maxThread := fun j => by
      rw [Nat.add_assoc, Nat.mod_add_mod, Nat.add_comm 1 j]
    have hall : ∀ i, (∀ j < i, s.state ((t % maxThread + 1 + j) % maxThread) ≠ .runnable) →
        ∀ j < i + 1, s.state ((t + j) % maxThread) ≠ .runnable := by
      rintro i hno (_ | j) hj
      · exact hr
      · exact hnext j ▸ hno j (by omega)
    rcases scan_spec n (t % maxThread + 1) (Nat.mod_lt _ (by decide)) with ⟨i, hi, hs, hru, hno⟩ | ⟨hs, hno⟩
    · exact .inl ⟨i + 1, by omega, hs.trans (by rw [hnext]), hnext i ▸ hru, hall i hno⟩
    · exact .inr ⟨hs, hall n hno⟩

theorem freeFrom_spec : ∀ (n t : Nat), (∃ u < t + n, t ≤ u ∧ s.state u = .free) →
    freeFrom s n t < t + n ∧ s.state (freeFrom s n t) = .free
  | 0, t, ⟨u, hu, ht, _⟩ => by omega
  | n + 1, t, ⟨u, hu, ht, h⟩ => by
    unfold freeFrom
    split
    · exact ⟨by omega, ‹_›⟩
    · have hne : u ≠ t := fun e => ‹¬ _› (e ▸ h)
      have := freeFrom_spec n (t + 1) ⟨u, by omega, by omega, h⟩
      exact ⟨by omega, this.2⟩

/-- What holds whenever a thread is about to call `thread_schedule`. -/
structure Kept (s : St) : Prop where
  current : s.current < maxThread
  behind : s.state maxThread = .free
  alive : ∀ t < maxThread, s.alive t = true ↔ s.state t ≠ .free
  had : ∀ t r v, s.had t r = some v → s.saved t r.offset = v

/-- What holds between calls. -/
structure Inv (s : St) : Prop extends Kept s where
  running : s.state s.current ≠ .free

/-- **The thread that goes on** is the first runnable one behind the caller, with the registers it was made or switched out
with, and the caller's are recorded; or it is the caller, and nothing changes. -/
def Resumes (s s' : St) : Prop :=
  (∃ i < maxThread, s'.current = (s.current + 1 + i) % maxThread ∧ FirstRunnable s (s.current + 1) i) ∧
  if s'.current = s.current then s' = s
  else (∀ r, s'.had s.current r = some (s.regs r)) ∧ ∀ r v, s.had s'.current r = some v → s'.regs r = v

theorem Kept.schedule (h : Kept s) : (∀ s', threadSchedule s = some s' → Inv s' ∧ Resumes s s') ∧
    (threadSchedule s = none → ∀ t < maxThread, s.state t ≠ .runnable) := by
  have hc := h.current
  unfold threadSchedule
  rcases scan_spec (s := s) maxThread (s.current + 1) hc with ⟨i, hi, hscan, hfirst⟩ | ⟨hscan, hno⟩
  · rw [hscan]
    dsimp only
    have hlt : (s.current + 1 + i) % maxThread < maxThread := Nat.mod_lt _ (by decide)
    have hrun := hfirst.1
    generalize hnext : (s.current + 1 + i) % maxThread = next at hlt hrun
    refine ⟨fun s' hs => ?_, fun hs => ?_⟩
    · split at hs
      · rename_i hne
        cases hs
        obtain ⟨m, hm, hsw⟩ := threadSwitch_spec hne { s with state := update s.state next .running, current := next }
        rw [hsw]
        refine ⟨⟨⟨hlt, ?_, fun t ht => ?_, fun t r v hv => ?_⟩, by simp⟩, ⟨i, hi, hnext.symm, hfirst⟩, ?_⟩
        · simpa [hlt.ne'] using h.behind
        · by_cases htn : t = next
          · simpa [htn, hrun] using h.alive next hlt
          · simpa [htn] using h.alive t ht
        · dsimp only at hv ⊢
          by_cases htc : t = s.current
          · subst htc
            rw [update_self] at hv ⊢
            exact (hm r).trans (Option.some.inj hv)
          · rw [update_of_ne htc] at hv ⊢
            exact h.had t r v hv
        · rw [if_neg hne.symm]
          exact ⟨fun r => by simp, h.had next⟩
      · rename_i hne
        cases hs
        have hcur : s.current = next := not_not.1 hne
        exact ⟨⟨h, by simp [hcur, hrun]⟩, ⟨i, hi, hcur.trans hnext.symm, hfirst⟩, by rw [if_pos rfl]⟩
    · split at hs <;> cases hs
  · rw [hscan]
    refine ⟨fun _ hs => (by cases hs), fun _ t ht => ?_⟩
    -- the slot is some number of slots behind the current one
    have hslot : (s.current + 1 + (t + maxThread - (s.current + 1)) % maxThread) % maxThread = t := by
      unfold maxThread at *
      omega
    exact hslot ▸ hno _ (Nat.mod_lt _ (by decide))

/-- A step is transparent: the thread that goes on has its registers, and the process exits only if none is runnable; and a new
thread takes the place of none that has not exited. -/
def Transparent (s : St) : Act → Prop
  | .init | .run _ => True
  | .create _ => freeFrom s maxThread 0 < maxThread ∧ s.alive (freeFrom s maxThread 0) = false
  | a => (∀ s', step s a = some s' → Resumes (s.calling a) s') ∧
    (step s a = none → ∀ t < maxThread, (s.calling a).state t ≠ .runnable)

/-- A slot is FREE when a thread is made. -/
def Room (s : St) : Act → Prop
  | .create _ => ∃ t < maxThread, s.state t = .free
  | _ => True

theorem Inv.calling (h : Inv s) (a : Act) : Kept (s.calling a) := by
  have hset : ∀ x y, (y = true ↔ x ≠ .free) →
      Kept { s with state := update s.state s.current x, alive := update s.alive s.current y } := fun x y hxy => by
    refine ⟨h.current, by simpa [h.current.ne'] using h.behind, fun t ht => ?_, h.had⟩
    by_cases htc : t = s.current
    · simpa [htc] using hxy
    · simpa [htc] using h.alive t ht
  cases a with
  | yield =>
    have := hset .runnable true (by decide)
    rwa [← (h.alive _ h.current).2 h.running, update_eq_self] at this
  | exit => exact hset .free false (by decide)
  | _ => exact h.toKept

theorem Inv.create (h : Inv s) (hroom : ∃ t < maxThread, s.state t = .free) (func : Nat) :
    Transparent s (.create func) ∧ Inv (threadCreate func s) := by
  obtain ⟨hlt, hfree⟩ := freeFrom_spec maxThread 0 (by simpa using hroom)
  rw [Nat.zero_add] at hlt
  have hdead : s.alive (freeFrom s maxThread 0) = false := by simpa [hfree] using h.alive _ hlt
  refine ⟨⟨hlt, hdead⟩, ?_⟩
  unfold threadCreate
  generalize freeFrom s maxThread 0 = u at hfree hlt
  refine ⟨⟨h.current, by simpa [hlt.ne'] using h.behind, fun t ht => ?_, fun t r v hv => ?_⟩, ?_⟩
  · by_cases htu : t = u
    · simp [htu]
    · simpa [htu] using h.alive t ht
  · by_cases htu : t = u
    · subst htu
      cases r <;> simp_all [Reg.offset, Reg.ctorIdx]
    · simp only [update_of_ne htu] at hv ⊢
      exact h.had t r v hv
  · have hne : s.current ≠ u := fun e => h.running (e ▸ hfree)
    simpa [hne] using h.running

theorem Kept.init (hb : s.state maxThread = .free) (ha : ∀ t < maxThread, s.alive t = true ↔ s.state t ≠ .free)
    (hh : ∀ t r v, s.had t r = some v → s.saved t r.offset = v) : Inv (threadInit s) := by
  refine ⟨⟨(by decide : 0 < maxThread), hb, fun t ht => ?_, fun t r v hv => ?_⟩, by simp [threadInit]⟩
  all_goals by_cases e : t = 0
  · simp [threadInit, e]
  · simpa [threadInit, e] using ha t ht
  · subst e
    have hoff : r.offset < 112 := by cases r <;> decide
    simpa [threadInit, hoff] using hv
  · simpa [threadInit, e] using hh t r v (by simpa [threadInit, e] using hv)

theorem inv_step (h : Inv s) {a : Act} (hroom : Room s a) : Transparent s a ∧ ∀ s', step s a = some s' → Inv s' := by
  cases a with
  | init =>
    refine ⟨trivial, ?_⟩
    rintro s' ⟨⟩
    exact Kept.init h.behind h.alive h.had
  | run regs =>
    refine ⟨trivial, ?_⟩
    rintro s' ⟨⟩
    exact ⟨⟨h.current, h.behind, h.alive, h.had⟩, h.running⟩
  | create func =>
    refine ⟨(h.create hroom func).1, ?_⟩
    rintro s' ⟨⟩
    exact (h.create hroom func).2
  | _ =>
    obtain ⟨hsome, hnone⟩ := (h.calling _).schedule
    exact ⟨⟨fun s' hs => (hsome s' hs).2, hnone⟩, fun s' hs => (hsome s' hs).1⟩

theorem inv_start (allThread : Nat) (regs : Reg → Nat) : Inv (start allThread regs) :=
  Kept.init rfl (by simp) (by simp)

theorem transparent_run : ∀ (acts : List Act) (s : St), Inv s → Run.allSteps step Room s acts →
    Run.allSteps step Transparent s acts
  | [], _, _, _ => trivial
  | a :: acts, s, h, hroom => by
    obtain ⟨ha, hstep⟩ := inv_step h hroom.1
    refine ⟨ha, ?_⟩
    cases hs : step s a with
    | none => trivial
    | some s' => exact transparent_run acts s' (hstep s' hs) (Run.allSteps_of_some hroom hs)

/-- **Switching is transparent**: in every run from `thread_init` in which threads are made while a slot is FREE, a thread
goes on with the registers it had, a new one at its function and the top of its stack; the next thread is the first runnable
one behind the current, and the process exits only without one; and no slot is given away before its thread has exited. -/
theorem threads_transparent (allThread : Nat) (regs : Reg → Nat) (acts : List Act)
    (hroom : Run.allSteps step Room (start allThread regs) acts) : Run.allSteps step Transparent (start allThread regs) acts :=
  transparent_run acts _ (inv_start allThread regs) hroom

theorem threads_transparent_two : Run.allSteps step Transparent (start 0 fun _ => 5) [.create 7, .create 9, .yield, .exit] :=
  threads_transparent 0 _ _ ⟨⟨1, by decide, rfl⟩, ⟨2, by decide, rfl⟩, trivial, trivial, trivial⟩

/-- **`thread_create` stays inside the table**: it changes no element but one that was FREE, and none without a FREE slot. -/
def StaysInside (s : St) : Act → Prop
  | .create func =>
    (∀ t, (threadCreate func s).state t ≠ s.state t ∨ (threadCreate func s).saved t ≠ s.saved t →
      t < maxThread ∧ s.state t = .free) ∧
    ((∀ t < maxThread, s.state t ≠ .free) → (threadCreate func s).state = s.state ∧ (threadCreate func s).saved = s.saved)
  | _ => True

theorem freeFrom_none : ∀ (n t : Nat), (∀ u < t + n, t ≤ u → s.state u ≠ .free) → freeFrom s n t = t + n
  | 0, _, _ => rfl
  | n + 1, t, h => by
    rw [freeFrom, if_neg (h t (by omega) le_rfl), freeFrom_none n (t + 1) (fun u hu ht => h u (by omega) (by omega))]
    omega

theorem staysInside_iff (h : Inv s) (a : Act) : StaysInside s a ↔ Room s a := by
  cases a with
  | create func =>
    constructor
    · -- without a FREE slot the element behind the table is written, which was zero
      intro hin
      by_contra hroom
      have hno : ∀ t < maxThread, s.state t ≠ .free := fun t ht hf => hroom ⟨t, ht, hf⟩
      have hend : freeFrom s maxThread 0 = maxThread := by
        rw [freeFrom_none maxThread 0 (fun u hu _ => hno u (by omega)), Nat.zero_add]
      have hst := congrFun (hin.2 hno).1 maxThread
      rw [threadCreate, hend, h.behind] at hst
      simp at hst
    · intro hroom
      obtain ⟨hlt, hfree⟩ := freeFrom_spec maxThread 0 (by simpa [Room] using hroom)
      rw [Nat.zero_add] at hlt
      refine ⟨fun t ht => ?_, fun hno => absurd hfree (hno _ hlt)⟩
      by_cases e : t = freeFrom s maxThread 0
      · exact e ▸ ⟨hlt, hfree⟩
      · simp [threadCreate, e] at ht
  | _ => exact Iff.rfl

/-- **It does so exactly in the runs that make threads while a slot is FREE.** -/
theorem create_writes_free (allThread : Nat) (regs : Reg → Nat) (acts : List Act) :
    Run.allSteps step StaysInside (start allThread regs) acts ↔ Run.allSteps step Room (start allThread regs) acts :=
  Run.allSteps_iff (fun _ _ s' h hroom hs => (inv_step h hroom).2 s' hs) (fun _ a h => staysInside_iff h a) acts _
    (inv_start allThread regs)

/-- **The fourth thread is made behind the table.** -/
theorem create_beyond_table : (Run.run step (start 0 fun _ => 0) [.create 7, .create 7, .create 7]).map (fun s =>
    ((List.range maxThread).map s.state, s.state maxThread, (threadCreate 9 s).state maxThread,
      (threadCreate 9 s).saved maxThread 0)) =
    some ([.running, .runnable, .runnable, .runnable], .free, .runnable, 9) := by
  decide

end Xv6.Uthread
