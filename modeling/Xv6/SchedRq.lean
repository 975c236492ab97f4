import Xv6.SchedEdf
/-!
# SchedRq — the array of the ready queue

`rq.procs` is an array that `rq_insert` shifts up from its end and `rq_remove` and `rq_dequeue` shift down, in place. On the
first `count` elements they are `rqInsert`, `rqRemove` and `rqDequeue` (`kern_insert`, `kern_remove`, `kern_dequeue`): an
insertion behind all equal keys, an erasure and the tail (`ready_queue_operations`).
-/
namespace Xv6.Sched

open Function List

/-- `struct ready_queue`, with the processes and the clock; the list of `k` is not used. -/
structure Rq where
  k : Kern
  procs : Nat → Slot
  count : Nat

def Rq.kern (s : Rq) : Kern := { s.k with rq := (List.range s.count).map s.procs }

def insertLoop (s : Rq) (p : Slot) : Nat → (Nat → Slot) → Nat × (Nat → Slot)
  | 0, a => (0, a)
  | i + 1, a =>
    if (s.k.proc (a i)).behind (s.k.proc p) then insertLoop s p i (update a (i + 1) (a i)) else (i + 1, a)

def Rq.insert (s : Rq) (p : Slot) : Rq :=
  if (s.k.proc p).inRq then s
  else if (s.k.proc p).startTime > now s.k then s
  else if s.count ≥ nproc then { s with k := { s.k with panic := some .overflow } }
  else
    let (i, a) := insertLoop s p s.count s.procs
    { procs := update a i p
      count := s.count + 1
      k := { s.k with
        proc := update s.k.proc p { s.k.proc p with inRq := true }
        seq := s.k.seq + 1
        stamp := update s.k.stamp p s.k.seq } }

def findLoop (s : Rq) (p : Slot) : Nat → Nat → Option Nat
  | 0, _ => none
  | n + 1, i => if s.procs i = p then some i else findLoop s p n (i + 1)

/-- `n` turns of a loop that moves the elements from `j + 1` on down by one. -/
def shiftLoop : Nat → Nat → (Nat → Slot) → Nat → Slot
  | 0, _, a => a
  | n + 1, j, a => shiftLoop n (j + 1) (update a j (a (j + 1)))

/-- `rq_remove` and `rq_dequeue` from the element `i` on. -/
def Rq.dropAt (s : Rq) (i : Nat) : Rq where
  procs := shiftLoop (s.count - 1 - i) i s.procs
  count := s.count - 1
  k := { s.k with proc := update s.k.proc (s.procs i) { s.k.proc (s.procs i) with inRq := false } }

def Rq.remove (s : Rq) (p : Slot) : Rq :=
  match findLoop s p s.count 0 with
  | none => s
  | some i => s.dropAt i

def Rq.dequeue (s : Rq) : Option (Slot × Rq) := if s.count = 0 then none else some (s.procs 0, s.dropAt 0)

/-! ## The loops -/

variable {s : Rq} {p : Slot} {i : Nat}

theorem kern_get (hi : i < s.count) : s.kern.rq[i]? = some (s.procs i) := by simp [Rq.kern, hi]

theorem insertLoop_eq : ∀ (i : Nat) (a : Nat → Slot), i ≤ s.count → (∀ k < i, a k = s.procs k) →
    insertLoop s p i a = (rqPos s.kern p i, fun k => if rqPos s.kern p i < k ∧ k ≤ i then a (k - 1) else a k)
  | 0, a, _, _ => by
    unfold insertLoop
    congr 1
    funext k
    rw [if_neg (by omega)]
  | i + 1, a, hi, ha => by
    have ht : (s.kern.rq[i]?).any (fun q => (s.kern.proc q).behind (s.kern.proc p)) =
        (s.k.proc (a i)).behind (s.k.proc p) := by
      rw [kern_get hi, ha i (by omega)]
      rfl
    unfold insertLoop rqPos
    rw [ht]
    split
    · have hle := (rqPos_spec s.kern p i (by simp [Rq.kern]; omega)).1
      have hk : ∀ k, k ≤ i → update a (i + 1) (a i) k = a k := fun k hk => update_of_ne (by omega) _ _
      rw [insertLoop_eq i _ (by omega) (fun k h => (hk k (by omega)).trans (ha k (by omega)))]
      congr 1
      funext k
      rcases lt_trichotomy k (i + 1) with h | rfl | h
      · rw [hk k (by omega), hk (k - 1) (by omega)]
        exact if_congr (by omega) rfl rfl
      · rw [if_neg (by omega), if_pos (by omega), update_self]
        rfl
      · rw [if_neg (by omega), if_neg (by omega), update_of_ne (by omega)]
    · congr 1
      funext k
      rw [if_neg (by omega)]

theorem shiftLoop_eq : ∀ (n j : Nat) (a : Nat → Slot),
    shiftLoop n j a = fun k => if j ≤ k ∧ k < j + n then a (k + 1) else a k
  | 0, j, a => by
    funext k
    rw [if_neg (by omega)]
    rfl
  | n + 1, j, a => by
    funext k
    rw [shiftLoop, shiftLoop_eq n (j + 1)]
    dsimp only
    by_cases hk : k = j
    · subst hk
      simp
    · rw [update_of_ne hk]
      by_cases hr : j + 1 ≤ k ∧ k < j + 1 + n
      · rw [if_pos hr, if_pos (by omega), update_of_ne (by omega)]
      · rw [if_neg hr, if_neg (by omega)]

theorem findLoop_spec (n i : Nat) : match findLoop s p n i with
    | none => ∀ k, i ≤ k → k < i + n → s.procs k ≠ p
    | some j => j < i + n ∧ s.procs j = p ∧ ∀ k, i ≤ k → k < j → s.procs k ≠ p := by
  fun_induction findLoop s p n i with
  | case1 => omega
  | case2 n i he => exact ⟨by omega, he, by omega⟩
  | case3 n i hne ih =>
    have hall : ∀ {m k}, (∀ k, i + 1 ≤ k → k < m → s.procs k ≠ p) → i ≤ k → k < m → s.procs k ≠ p := by
      intro m k h h1 h2
      by_cases hk : k = i
      · rwa [hk]
      · exact h k (by omega) h2
    split at ih
    · exact fun k h1 h2 => hall ih h1 (by omega)
    · exact ⟨by omega, ih.2.1, fun k => hall ih.2.2⟩

/-! ## The array and the list -/

theorem range_insert {n j : Nat} (a : Nat → Slot) (hj : j ≤ n) : (List.range (n + 1)).map
    (update (fun k => if j < k ∧ k ≤ n then a (k - 1) else a k) j p) =
      ((List.range n).map a).take j ++ p :: ((List.range n).map a).drop j := by
  apply ext_getElem
  · simp
    omega
  intro k h1 h2
  simp only [length_map, length_range] at h1
  simp only [getElem_append, getElem_map, getElem_range, getElem_take, length_take,
    length_map, length_range, getElem_cons, getElem_drop]
  rcases lt_trichotomy k j with hk | rfl | hk
  · rw [update_of_ne (by omega), if_neg (by omega), dif_pos (by omega)]
  · simp [min_eq_left hj]
  · rw [update_of_ne (by omega), if_pos (by omega), dif_neg (by omega), dif_neg (by omega)]
    congr 1
    omega

theorem kern_insert (s : Rq) (p : Slot) : (s.insert p).kern = rqInsert s.kern p := by
  have hlen : s.kern.rq.length = s.count := by simp [Rq.kern]
  unfold Rq.insert rqInsert
  rw [hlen, insertLoop_eq s.count s.procs le_rfl (fun _ _ => rfl)]
  rw [apply_ite Rq.kern, apply_ite Rq.kern, apply_ite Rq.kern]
  have hins := range_insert (p := p) s.procs (rqPos_spec s.kern p s.count hlen.ge).1
  refine if_congr Iff.rfl rfl (if_congr Iff.rfl rfl (if_congr Iff.rfl rfl ?_))
  unfold Rq.kern at hins ⊢
  rw [hins]

theorem kern_dropAt (hi : i < s.count) :
    s.kern.rq = s.kern.rq.take i ++ s.procs i :: s.kern.rq.drop (i + 1) ∧ (s.dropAt i).kern = { s.k with
      rq := s.kern.rq.take i ++ s.kern.rq.drop (i + 1)
      proc := update s.k.proc (s.procs i) { s.k.proc (s.procs i) with inRq := false } } := by
  constructor
  · have hl : i < s.kern.rq.length := by simpa [Rq.kern] using hi
    have hp : s.kern.rq[i] = s.procs i := by simp [Rq.kern]
    rw [← hp, ← drop_eq_getElem_cons hl, take_append_drop]
  simp only [Rq.kern, Rq.dropAt, shiftLoop_eq, Kern.mk.injEq, true_and, and_true]
  refine ext_getElem ?_ (fun k h1 h2 => ?_)
  · simp
    omega
  simp only [length_map, length_range] at h1
  simp only [getElem_append, getElem_map, getElem_range,
    getElem_take, getElem_drop, length_take, length_map, length_range]
  by_cases hk : k < i
  · rw [if_neg (by omega), dif_pos (by omega)]
  · rw [if_pos (by omega), dif_neg (by omega)]
    congr 1
    omega

theorem kern_remove (s : Rq) (p : Slot) : (s.remove p).kern = rqRemove s.kern p := by
  have hspec := findLoop_spec (s := s) (p := p) s.count 0
  unfold Rq.remove rqRemove
  split at hspec
  · have hnot : p ∉ s.kern.rq := by
      intro hm
      obtain ⟨k, hk, e⟩ := mem_map.1 hm
      exact hspec k (Nat.zero_le _) (by simpa using hk) e
    rw [if_neg hnot]
  rename_i i he
  obtain ⟨hi, rfl, hfirst⟩ := hspec
  obtain ⟨hv, hd⟩ := kern_dropAt (s := s) (i := i) (by omega)
  have hnot : s.procs i ∉ s.kern.rq.take i := by
    intro hm
    obtain ⟨k, hk, e⟩ := mem_iff_getElem.1 hm
    rw [length_take] at hk
    exact hfirst k (Nat.zero_le _) (by omega) (by simpa [Rq.kern] using e)
  have hmem : s.procs i ∈ s.kern.rq := by
    rw [hv]
    simp
  have herase : s.kern.rq.erase (s.procs i) = s.kern.rq.take i ++ s.kern.rq.drop (i + 1) := by
    conv_lhs => rw [hv]
    rw [erase_append_right _ hnot, erase_cons_head]
  rw [if_pos hmem, herase]
  exact hd

theorem kern_dequeue (s : Rq) : s.dequeue.map (fun r => (r.1, r.2.kern)) = rqDequeue s.kern := by
  unfold Rq.dequeue rqDequeue
  by_cases h0 : s.count = 0
  · simp [h0, Rq.kern]
  obtain ⟨hv, hd⟩ := kern_dropAt (s := s) (i := 0) (by omega)
  rw [if_neg h0, Option.map_some, hd]
  split
  · rename_i hnil
    rw [hnil] at hv
    cases hv
  · rename_i q rest hq
    rw [hq] at hv ⊢
    cases hv
    rfl

/-! ## The order -/

def key (x : Proc) : Lex (Int × Int) := toLex (x.deadline, x.priority)

theorem behind_iff (q p : Proc) : q.behind p = true ↔ key p < key q := by
  simp only [Proc.behind, key, Prod.Lex.toLex_lt_toLex, Bool.or_eq_true, Bool.and_eq_true, decide_eq_true_eq]
  omega

theorem not_behind_iff (q p : Proc) : q.behind p = false ↔ key q ≤ key p := by
  rw [← not_lt, ← behind_iff, Bool.not_eq_true]

/-- **The queue is in order**: sorted by deadline and priority, no process twice, `in_rq` set exactly on its members. -/
structure InOrder (k : Kern) : Prop where
  sorted : k.rq.Pairwise (fun q r => key (k.proc q) ≤ key (k.proc r))
  nodup : k.rq.Nodup
  flag : ∀ p, p ∈ k.rq ↔ (k.proc p).inRq = true

variable {k : Kern}

theorem key_update (p q : Slot) (b : Bool) : key (update k.proc p { k.proc p with inRq := b } q) = key (k.proc q) := by
  by_cases h : q = p
  · subst h
    simp [key]
  · simp [h]

/-- **`rq_insert`** of a process that is absent and due: behind all members with a key as small, before the others. -/
theorem InOrder.insert (h : InOrder k) (hp : (k.proc p).inRq = false) (ht : (k.proc p).startTime ≤ now k)
    (hc : k.rq.length < nproc) : InOrder (rqInsert k p) ∧ ∃ a b, k.rq = a ++ b ∧ (rqInsert k p).rq = a ++ p :: b ∧
      (∀ q ∈ a, key (k.proc q) ≤ key (k.proc p)) ∧ ∀ q ∈ b, key (k.proc p) < key (k.proc q) := by
  have hpre := fun q hq => (not_behind_iff _ _).1
    (not_behind_of_mem_take (h.sorted.imp ((not_behind_iff _ _).2)) p q hq)
  have hpost := fun q hq => (behind_iff _ _).1 (behind_of_mem_drop k p q hq)
  rcases rqInsert_cases k p with ⟨-, h1 | h1⟩ | ⟨-, hl, -⟩ | ⟨-, -, -, e⟩
  · rw [hp] at h1
    cases h1
  · omega
  · omega
  rw [e]
  refine ⟨⟨?_, ?_, fun q => ?_⟩, _, _, (take_append_drop ..).symm, rfl, hpre, hpost⟩
  · simp only [key_update]
    have hs := h.sorted
    rw [← take_append_drop (rqPos k p k.rq.length) k.rq, pairwise_append] at hs
    rw [pairwise_append, pairwise_cons]
    refine ⟨hs.1, ⟨fun q hq => (hpost q hq).le, hs.2.1⟩, fun q hq r hr => ?_⟩
    rcases mem_cons.1 hr with rfl | hr
    · exact hpre q hq
    · exact hs.2.2 q hq r hr
  · have hnot : p ∉ k.rq := by simp [h.flag, hp]
    rw [nodup_middle, take_append_drop]
    exact nodup_cons.2 ⟨hnot, h.nodup⟩
  · rw [mem_append, mem_cons, or_left_comm, ← mem_append, take_append_drop, h.flag]
    by_cases e : q = p
    · simp [e]
    · simp [e]

theorem InOrder.leave (h : InOrder k) (p : Slot) :
    InOrder { k with rq := k.rq.erase p, proc := update k.proc p { k.proc p with inRq := false } } := by
  refine ⟨?_, h.nodup.erase p, fun q => ?_⟩
  · simp only [key_update]
    exact h.sorted.sublist erase_sublist
  · rw [h.nodup.mem_erase_iff, h.flag]
    by_cases e : q = p
    · simp [e]
    · simp [e]

/-- **The operations of the ready queue.** -/
theorem ready_queue_operations (s : Rq) (h : InOrder s.kern) (p : Slot) :
    ((s.k.proc p).inRq = false → (s.k.proc p).startTime ≤ now s.k → s.count < nproc → InOrder (s.insert p).kern ∧
      ∃ a b, s.kern.rq = a ++ b ∧ (s.insert p).kern.rq = a ++ p :: b ∧
        (∀ q ∈ a, key (s.k.proc q) ≤ key (s.k.proc p)) ∧ ∀ q ∈ b, key (s.k.proc p) < key (s.k.proc q)) ∧
    ((s.k.proc p).inRq = true ∨ now s.k < (s.k.proc p).startTime → s.insert p = s) ∧
    (InOrder (s.remove p).kern ∧ (s.remove p).kern.rq = s.kern.rq.erase p) ∧
    match s.dequeue with
    | none => s.kern.rq = []
    | some (q, s') => InOrder s'.kern ∧ s.kern.rq = q :: s'.kern.rq := by
  refine ⟨fun hp ht hc => ?_, fun hp => ?_, ?_, ?_⟩
  · rw [kern_insert]
    exact h.insert hp ht (by simpa [Rq.kern] using hc)
  · unfold Rq.insert
    rcases hp with hp | hp
    · rw [if_pos hp]
    · rw [if_pos hp, ite_self]
  · rw [kern_remove]
    unfold rqRemove
    split
    · exact ⟨h.leave p, rfl⟩
    · rename_i hm
      exact ⟨h, (erase_of_not_mem hm).symm⟩
  have hd := kern_dequeue s
  unfold rqDequeue at hd
  cases e : s.dequeue with
  | none =>
    rw [e] at hd
    split at hd
    · assumption
    · cases hd
  | some r =>
    rw [e] at hd
    split at hd
    · cases hd
    rename_i q rest hq
    obtain ⟨e1, e2⟩ := Prod.mk.inj (Option.some.inj hd)
    have hl := h.leave q
    rw [hq, erase_cons_head] at hl
    dsimp only at ⊢
    rw [e1, e2]
    exact ⟨hl, hq⟩

def threeRq : Rq where
  k := { procinit with proc := fun p =>
    { unusedProc with deadline := [5, 3, 5, 9].getD p.val 0, inRq := 0 < p.val ∧ p.val < 4 } }
  procs := fun i => procs.getD (i + 1) initSlot
  count := 3

/-- Slot 0 goes in behind slot 2, slot 2 is taken out, and slot 1 is first. -/
theorem ready_queue_operations_three : InOrder threeRq.kern ∧ threeRq.kern.rq.map Fin.val = [1, 2, 3] ∧
    InOrder (threeRq.insert initSlot).kern ∧ (threeRq.insert initSlot).kern.rq.map Fin.val = [1, 2, 0, 3] ∧
    InOrder (threeRq.remove (threeRq.procs 1)).kern ∧ (threeRq.remove (threeRq.procs 1)).kern.rq.map Fin.val = [1, 3] ∧
    ∃ q s', threeRq.dequeue = some (q, s') ∧ q.val = 1 ∧ InOrder s'.kern ∧ s'.kern.rq.map Fin.val = [2, 3] := by
  have h : InOrder threeRq.kern := ⟨by decide +kernel, by decide +kernel, by decide +kernel⟩
  obtain ⟨hins, -, -, hdeq⟩ := ready_queue_operations threeRq h initSlot
  obtain ⟨-, -, hrem, -⟩ := ready_queue_operations threeRq h (threeRq.procs 1)
  refine ⟨h, by decide +kernel, (hins (by decide +kernel) (by decide) (by decide)).1, by decide +kernel, hrem.1,
    by decide +kernel, _, _, rfl, by decide +kernel, hdeq.1, by decide +kernel⟩

/-! ## Start times -/

theorem rqInsert_same_iff (hp : k.panic = none) (hin : (k.proc p).inRq = false) :
    rqInsert k p = k ↔ now k < (k.proc p).startTime := by
  rcases rqInsert_cases k p with ⟨e, h | h⟩ | ⟨-, hl, e⟩ | ⟨-, h, -, e⟩
  · rw [hin] at h
    cases h
  · exact iff_of_true e h
  · by_cases h : now k < (k.proc p).startTime
    · refine iff_of_true ?_ h
      unfold rqInsert
      rw [if_pos h, ite_self]
    · refine iff_of_false (fun e' => ?_) h
      have := congrArg Kern.panic (e.symm.trans e')
      rw [hp] at this
      cases this
  · refine iff_of_false (fun e' => ?_) (by omega)
    have := congrArg Kern.seq (e.symm.trans e')
    dsimp only at this
    omega

/-- **A process is due when its start time has come**, as `rq_insert` and the activation loop see it, exactly up to 2^31
ticks. -/
theorem start_time_due (k : Kern) (p : Slot) (ht : k.ticks < 2 ^ 32) (hp : k.panic = none) (hin : (k.proc p).inRq = false)
    (hstart : 0 ≤ (k.proc p).startTime ∧ (k.proc p).startTime < 2 ^ 31) :
    ((rqInsert k p = k ↔ (k.ticks : Int) < (k.proc p).startTime) ∧
      ((k.proc p).state = .runnable → (activates k (now k) p = true ↔ (k.proc p).startTime ≤ k.ticks))) ↔
    k.ticks < 2 ^ 31 := by
  rw [rqInsert_same_iff hp hin]
  constructor
  · intro hdue
    by_contra hlt
    have hnow : now k = (k.ticks : Int) - 2 ^ 32 := if_neg hlt
    have := hdue.1.1 (by omega)
    omega
  · intro hlt
    rw [now_of_lt hlt]
    refine ⟨Iff.rfl, fun hs => ?_⟩
    simp [activates, hs, hin]

def waiting (t : Nat) : Kern := { setState (allocproc procinit initSlot) initSlot .runnable with ticks := t }

theorem start_time_due_zero :
    rqInsert (waiting 7) initSlot ≠ waiting 7 ∧ activates (waiting 7) (now (waiting 7)) initSlot = true := by
  obtain ⟨h1, h2⟩ := (start_time_due (waiting 7) initSlot (by decide) rfl rfl (by decide)).2 (by decide)
  exact ⟨fun e => absurd (h1.1 e) (by decide), (h2 rfl).2 (by decide)⟩

/-- **After 2^31 ticks no process is due**: the counter is negative as an `int`. -/
theorem start_time_never_due :
    ((waiting (2 ^ 31)).proc initSlot).startTime = 0 ∧ (rqInsert (waiting (2 ^ 31)) initSlot).rq = [] ∧
    activates (waiting (2 ^ 31)) (now (waiting (2 ^ 31))) initSlot = false := by
  decide

end Xv6.Sched
