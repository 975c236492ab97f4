import Xv6.LibSum
import Xv6.LogOps
/-!
# LogReserve — the log space `begin_op` reserves

`begin_op` admits an operation when the entries in use and `MAXOPBLOCKS` for every operation in progress, itself
included, fit into the log. The invariant (`Resv.room`) counts, for an operation in progress, only what it has not yet
spent: an entry it adds moves one unit from its reservation to `n`, an absorbed write moves none. So a new entry always
finds room. `log_write` tests for a full log before it looks for the block, and an absorbed write needs no room: with
the log exactly full it panics all the same (`logWrite_panics_when_full`).
-/
namespace Xv6.Log

open Function List

def opBlocks (hist : List Write) (o : Nat) : Finset Nat :=
  ((hist.filter (fun w => w.op == o)).map Write.blockno).toFinset

/-- **The operations of the run**: no crash, and an operation logs at most `MAXOPBLOCKS` distinct blocks. -/
def withinBound (s : St) : Act → Prop
  | .crash => False
  | .logWrite p b _ =>
    match opOf s p with
    | none => True
    | some o => (insert b (opBlocks s.hist o)).card ≤ maxOpBlocks
  | _ => True

/-- **A write to a block already in the log is not issued while the log is full.** -/
def leavesRoom (s : St) : Act → Prop
  | .logWrite p b _ => (opOf s p).isSome = true → (∃ i < s.lh.n, s.lh.block i = b) → s.lh.n < logBlocks
  | _ => True

/-- **What the reservation is for**: no panic, no more than `LOGBLOCKS` entries, and no block entered twice. -/
def Reserved (s : St) : Prop :=
  s.panic = none ∧ s.lh.n ≤ logBlocks ∧ ∀ i < s.lh.n, ∀ j < i, s.lh.block j ≠ s.lh.block i

instance : ∀ (s : St) (a : Act), Decidable (withinBound s a)
  | _, .crash => isFalse id
  | s, .logWrite p b _ =>
    match h : opOf s p with
    | none => isTrue (by simp [withinBound, h])
    | some o => decidable_of_iff ((insert b (opBlocks s.hist o)).card ≤ maxOpBlocks) (by simp [withinBound, h])
  | _, .beginOp _ | _, .endOp _ | _, .advance | _, .read _ | _, .evict _ => isTrue trivial

def ready (d : Nat → Block) : St := { boot d with pc := .idle }

/-- What the operations in progress may still add to the log. -/
def reserve (s : St) : Nat := (s.ops.map (fun q => maxOpBlocks - (opBlocks s.hist q.2).card)).sum

structure Resv (s : St) : Prop extends Disc s where
  panic : s.panic = none
  booted : s.pc.booted = true
  logged : ∀ q ∈ s.ops, ∀ b ∈ opBlocks s.hist q.2, ∃ i < s.lh.n, s.lh.block i = b
  bound : ∀ q ∈ s.ops, (opBlocks s.hist q.2).card ≤ maxOpBlocks
  room : s.lh.n + reserve s ≤ logBlocks
  distinct : ∀ i < s.lh.n, ∀ j < i, s.lh.block j ≠ s.lh.block i

variable {o b p start : Nat} {s s' : St} {hist : List Write} {α : Type} {a : Act}

theorem mem_opBlocks : b ∈ opBlocks hist o ↔ ∃ w ∈ hist, w.op = o ∧ w.blockno = b := by simp [opBlocks, and_assoc]

theorem opBlocks_append (hist : List Write) (w : Write) (o : Nat) :
    opBlocks (hist ++ [w]) o = if w.op = o then insert w.blockno (opBlocks hist o) else opBlocks hist o := by
  ext b
  rw [mem_opBlocks]
  split
  · rename_i h
    rw [Finset.mem_insert, mem_opBlocks]
    simp only [mem_append, mem_singleton]
    constructor
    · rintro ⟨v, hv | rfl, ho, hb⟩
      · exact .inr ⟨v, hv, ho, hb⟩
      · exact .inl hb.symm
    · rintro (rfl | ⟨v, hv, ho, hb⟩)
      · exact ⟨w, .inr rfl, h, rfl⟩
      · exact ⟨v, .inl hv, ho, hb⟩
  · rename_i h
    rw [mem_opBlocks]
    constructor
    · rintro ⟨v, hv, ho, hb⟩
      rcases mem_append.1 hv with hv | hv
      · exact ⟨v, hv, ho, hb⟩
      · rw [mem_singleton.1 hv] at ho
        exact absurd ho h
    · rintro ⟨v, hv, ho, hb⟩
      exact ⟨v, mem_append_left _ hv, ho, hb⟩

theorem opBlocks_fresh (h : ∀ w ∈ hist, w.op < o) : opBlocks hist o = ∅ := by
  apply Finset.eq_empty_of_forall_notMem
  intro b hb
  obtain ⟨w, hw, ho, -⟩ := mem_opBlocks.1 hb
  have := h w hw
  omega

theorem sum_spend (o : Nat) (f g : Nat → Nat) (hne : ∀ x, x ≠ o → g x = f x) (ho : g o + 1 = f o)
    (l : List (Nat × Nat)) (hnd : (l.map Prod.snd).Nodup) (hm : o ∈ l.map Prod.snd) :
    (l.map (fun q => g q.2)).sum + 1 = (l.map (fun q => f q.2)).sum := by
  have h := Sum.sum_map_change hnd hm (fun x _ => hne x)
  rw [map_map, map_map] at h
  unfold Function.comp at h
  omega

theorem sum_filter_le (P : α → Bool) (f : α → Nat) : ∀ (l : List α), ((l.filter P).map f).sum ≤ (l.map f).sum
  | [] => le_refl _
  | a :: l => by
    have := sum_filter_le P f l
    rw [filter_cons]
    split <;> simp only [map_cons, sum_cons] <;> omega

/-! ## One step -/

theorem resv_ready (d : Nat → Block) : Resv (ready d) := by
  constructor
  · constructor <;> simp [ready, boot]
  all_goals simp [ready, boot, Pc.booted, reserve]

theorem sum_reserve_le (hist : List Write) : ∀ (l : List (Nat × Nat)),
    (l.map (fun q => maxOpBlocks - (opBlocks hist q.2).card)).sum ≤ l.length * maxOpBlocks
  | [] => by simp
  | q :: l => by
    have := sum_reserve_le hist l
    simp only [map_cons, sum_cons, length_cons, Nat.succ_mul]
    omega

theorem resv_beginOp (hI : Resv s) (h : beginOp s p = some s') : Resv s' := by
  have hD := disc_beginOp hI.toDisc h
  obtain rfl | ⟨-, -, -, hroom, rfl⟩ := beginOp_some h
  · exact hI
  have hfresh : opBlocks s.hist s.nextOp = ∅ := opBlocks_fresh hI.hist
  refine ⟨hD, hI.panic, hI.booted, ?_, ?_, ?_, hI.distinct⟩
  · intro q hq b hb
    rcases mem_append.1 hq with hq | hq
    · exact hI.logged q hq b hb
    · rw [mem_singleton.1 hq] at hb
      simp only [hfresh] at hb
      cases hb
  · intro q hq
    rcases mem_append.1 hq with hq | hq
    · exact hI.bound q hq
    · rw [mem_singleton.1 hq]
      simp [hfresh]
  · show s.lh.n + ((s.ops ++ [(p, s.nextOp)]).map (fun q => maxOpBlocks - (opBlocks s.hist q.2).card)).sum ≤ logBlocks
    rw [map_append, sum_append]
    have hle := sum_reserve_le s.hist s.ops
    rw [hI.outs] at hroom
    simp only [map_cons, map_nil, sum_cons, sum_nil]
    simp only [maxOpBlocks] at hroom hle ⊢
    omega

theorem opBlocks_logWrite (hist : List Write) (o b : Nat) (d : Block) (x : Nat) :
    opBlocks (hist ++ [⟨o, b, d⟩]) x = if o = x then insert b (opBlocks hist x) else opBlocks hist x :=
  opBlocks_append hist ⟨o, b, d⟩ x

theorem room_logWrite (d : Block) (hI : Resv s) (hmem : (p, o) ∈ s.ops)
    (hb : (insert b (opBlocks s.hist o)).card ≤ maxOpBlocks) :
    (absorb s.lh b).n + (s.ops.map (fun q => maxOpBlocks - (opBlocks (s.hist ++ [⟨o, b, d⟩]) q.2).card)).sum
      ≤ logBlocks := by
  have hroom := hI.room
  unfold reserve at hroom
  by_cases hf : findBlock s.lh b = s.lh.n
  · have hnot : b ∉ opBlocks s.hist o := fun hbo => by
      obtain ⟨i, hi, hib⟩ := hI.logged (p, o) hmem b hbo
      exact findBlock_eq.1 hf i hi hib
    rw [Finset.card_insert_of_notMem hnot] at hb
    have hspend := sum_spend o (fun x => maxOpBlocks - (opBlocks s.hist x).card)
      (fun x => maxOpBlocks - (opBlocks (s.hist ++ [⟨o, b, d⟩]) x).card)
      (fun x hx => by simp [opBlocks_logWrite, if_neg (Ne.symm hx)])
      (by simp only [opBlocks_logWrite, if_true, Finset.card_insert_of_notMem hnot]; omega)
      s.ops hI.ids (mem_map.2 ⟨(p, o), hmem, rfl⟩)
    simp only [absorb, hf, if_true]
    omega
  · have hle : (s.ops.map (fun q => maxOpBlocks - (opBlocks (s.hist ++ [⟨o, b, d⟩]) q.2).card)).sum ≤
        (s.ops.map (fun q => maxOpBlocks - (opBlocks s.hist q.2).card)).sum := by
      apply sum_le_sum
      intro q _
      rw [opBlocks_logWrite]
      split
      · have := Finset.card_le_card (Finset.subset_insert b (opBlocks s.hist q.2))
        omega
      · exact le_refl _
    simp only [absorb, if_neg hf]
    omega

theorem distinct_absorb {lh : LogHeader} (b : Nat) (h : ∀ i < lh.n, ∀ j < i, lh.block j ≠ lh.block i) :
    ∀ i < (absorb lh b).n, ∀ j < i, (absorb lh b).block j ≠ (absorb lh b).block i := by
  intro i hi j hj
  by_cases hf : findBlock lh b = lh.n
  · have hi : i < lh.n + 1 := by simpa [absorb, hf, if_true] using hi
    simp only [absorb, hf]
    by_cases hin : i = lh.n
    · subst hin
      rw [update_self, update_of_ne (by omega)]
      exact findBlock_eq.1 hf j hj
    · rw [update_of_ne hin, update_of_ne (by omega)]
      exact h i (by omega) j hj
  · have hi : i < lh.n := by simpa [absorb, if_neg hf] using hi
    have hupd : update lh.block (findBlock lh b) b = lh.block := by
      rw [update_eq_self_iff]
      exact (findBlock_lt hf).2.symm
    simp only [absorb, hupd]
    exact h i hi j hj

section
variable (hI : Resv s)
include hI

theorem resv_logWrite {d : Block} {pins : Nat → Nat} (ho : opOf s p = some o)
    (hb : (insert b (opBlocks s.hist o)).card ≤ maxOpBlocks) :
    Resv { Log.logged s o b d with lh := absorb s.lh b, pins := pins } where
  toDisc := { disc_logged hI.toDisc ho with }
  panic := hI.panic
  booted := hI.booted
  logged := by
    intro q hq c hc
    rw [Log.logged, opBlocks_logWrite] at hc
    refine absorb_mem.2 ?_
    split at hc
    · rcases Finset.mem_insert.1 hc with rfl | hc
      · exact .inl rfl
      · exact .inr (hI.logged q hq c hc)
    · exact .inr (hI.logged q hq c hc)
  bound := by
    intro q hq
    rw [Log.logged, opBlocks_logWrite]
    split
    · rename_i heq
      rw [← heq]
      exact hb
    · exact hI.bound q hq
  room := room_logWrite d hI (opOf_mem ho) hb
  distinct := distinct_absorb b hI.distinct

theorem resv_left (ho : opOf s p = some o) : Resv (left s p o) where
  toDisc := disc_left hI.toDisc ho
  panic := hI.panic
  booted := hI.booted
  logged := fun q hq => hI.logged q (List.mem_of_mem_filter hq)
  bound := fun q hq => hI.bound q (List.mem_of_mem_filter hq)
  room := by
    have hroom := hI.room
    have hle := sum_filter_le (fun q : Nat × Nat => q.1 != p) (fun q => maxOpBlocks - (opBlocks s.hist q.2).card) s.ops
    unfold reserve at hroom ⊢
    simp only [left]
    omega
  distinct := hI.distinct

theorem resv_endOp (h : endOp s p = some s') : Resv s' := by
  have hD := disc_endOp hI.toDisc h
  obtain ⟨o, ho, hcase⟩ := endOp_some h
  have hL := resv_left hI ho
  rcases hcase with ⟨hc, -⟩ | ⟨-, -, rfl⟩ | ⟨-, -, rfl⟩
  · have hm := opOf_mem ho
    rw [(hI.quiet hc).1] at hm
    cases hm
  · exact ⟨hD, hL.panic, rfl, hL.logged, hL.bound, hL.room, hL.distinct⟩
  · exact hL

theorem resv_advance (h : advance start s = some s') : Resv s' := by
  have hD := disc_advance hI.toDisc h
  obtain ⟨hp, -, hops, -, -, -, -, -, -⟩ := advance_some h
  obtain ⟨-, -, -, -, hb⟩ := advance_pc h hI.comm (fun hb => (hI.unbooted hb).1)
  obtain ⟨hcs, hb', hbl, hn⟩ := hb hI.booted
  have hnil : s'.ops = [] := hops.trans (hI.quiet hcs).1
  refine ⟨hD, hp.trans hI.panic, hb', ?_, ?_, ?_, ?_⟩
  · rw [hnil]; intro q hq; cases hq
  · rw [hnil]; intro q hq; cases hq
  · have hroom := hI.room
    unfold reserve at hroom ⊢
    rw [hnil]
    simp only [map_nil, sum_nil]
    rcases hn with hn | hn <;> omega
  · intro i hi j hj
    rw [hbl]
    rcases hn with hn | hn
    · exact hI.distinct i (by omega) j hj
    · omega

/-! ## The run -/

theorem resv_step (hok : withinBound s a ∧ leavesRoom s a) (h : step start s a = some s') : Resv s' := by
  have hnp : s.panic.isSome = false := by rw [hI.panic]; rfl
  cases a with
  | crash => exact hok.1.elim
  | beginOp p =>
    simp only [step, hnp] at h
    exact resv_beginOp hI h
  | endOp p =>
    simp only [step, hnp] at h
    exact resv_endOp hI h
  | advance =>
    simp only [step, hnp] at h
    exact resv_advance hI h
  | read b =>
    simp only [step, hnp, Bool.false_eq_true, if_false, Option.some.injEq] at h
    subst h
    exact { hI with }
  | evict b =>
    simp only [step, hnp, Bool.false_eq_true, if_false, evict] at h
    split at h
    · cases h
      exact { hI with }
    · cases h
  | logWrite p b d =>
    simp only [step, hnp] at h
    obtain ⟨o, ho, hcase⟩ := logWrite_some h
    have hbound : (insert b (opBlocks s.hist o)).card ≤ maxOpBlocks := by
      simpa [withinBound, ho] using hok.1
    rcases hcase with ⟨hfull, -⟩ | ⟨-, hout, -⟩ | ⟨-, -, rfl⟩
    · -- the log is full: an entry for a new block would not fit the reservation, an absorbed one is excluded
      have hlt : ¬ ∃ i < s.lh.n, s.lh.block i = b := fun hex => by
        have := hok.2 (by rw [ho]; rfl) hex
        omega
      have hf : findBlock s.lh b = s.lh.n := findBlock_eq.2 (fun i hi hib => hlt ⟨i, hi, hib⟩)
      have := room_logWrite d hI (opOf_mem ho) hbound
      simp only [absorb, hf, if_true] at this
      omega
    · have := hI.outs
      have hpos := length_pos_of_mem (opOf_mem ho)
      omega
    · exact resv_logWrite hI ho hbound

theorem resv_reserved : Reserved s := ⟨hI.panic, by have := hI.room; omega, hI.distinct⟩

end

theorem logWrite_full (hP : Reserved s) (hn : ¬ leavesRoom s a) : ∃ s', step start s a = some s' ∧ ¬ Reserved s' := by
  cases a with
  | logWrite p b d =>
    simp only [leavesRoom, Classical.not_imp] at hn
    obtain ⟨ho, -, hfull⟩ := hn
    obtain ⟨o, ho⟩ := Option.isSome_iff_exists.1 ho
    have hnp : s.panic.isSome = false := by rw [hP.1]; rfl
    have hge : s.lh.n ≥ logBlocks := by omega
    refine ⟨_, by simp only [step, hnp, logWrite, ho, hge]; rfl, ?_⟩
    intro hR
    cases hR.1
  | _ => exact absurd trivial hn

/-- **The log reservation holds exactly as long as no write to a block already in the log meets a full log**: in a run
of operations that each log at most `MAXOPBLOCKS` distinct blocks, every state is free of panics, within `LOGBLOCKS`
entries and without a repeated entry if and only if every step leaves that room. -/
theorem reserved_iff_leavesRoom (start : Nat) (d : Nat → Block) (acts : List Act)
    (hb : Run.allSteps (step start) withinBound (ready d) acts) :
    Run.allStates (step start) Reserved (ready d) acts ↔ Run.allSteps (step start) leavesRoom (ready d) acts := by
  constructor
  · intro hP
    exact Run.allSteps_of_allStates (fun _ _ _ _ _ _ => trivial)
      (fun s a _ hPs _ => logWrite_full hPs) acts _ trivial hb hP
  · intro hroom
    refine Run.allStates_mono (fun _ => resv_reserved) acts _ ?_
    exact Run.allStates_of_allSteps (fun s a s' hI hok => resv_step hI hok) acts _ (resv_ready d)
      (Run.allSteps_and acts _ hb hroom)

/-- Two operations that log a block each, one of them twice, and the commit of the group up to its header write. -/
def shortRun : List Act :=
  [.beginOp 0, .beginOp 1, .logWrite 0 50 (fun _ => 7), .logWrite 1 51 (fun _ => 8), .logWrite 0 50 (fun _ => 9),
   .endOp 0, .endOp 1, .advance, .advance, .advance, .advance, .advance]

instance : ∀ (s : St) (a : Act), Decidable (leavesRoom s a)
  | s, .logWrite p b _ => inferInstanceAs
    (Decidable ((opOf s p).isSome = true → (∃ i < s.lh.n, s.lh.block i = b) → s.lh.n < logBlocks))
  | _, .crash | _, .beginOp _ | _, .endOp _ | _, .advance | _, .read _ | _, .evict _ => isTrue trivial

theorem reserved_shortRun : Run.allSteps (step 2) withinBound (ready (fun _ _ => 0)) shortRun ∧
    Run.allStates (step 2) Reserved (ready (fun _ _ => 0)) shortRun :=
  have hb : Run.allSteps (step 2) withinBound (ready (fun _ _ => 0)) shortRun := by decide +kernel
  ⟨hb, (reserved_iff_leavesRoom 2 _ shortRun hb).2 (by decide +kernel)⟩

/-- Three operations fill the log with ten blocks each; the first then logs one of its own blocks again. -/
def fullRun : List Act :=
  [.beginOp 0, .beginOp 1, .beginOp 2] ++
  (List.range 30).map (fun k => .logWrite (k / 10) (50 + k) (fun _ => k)) ++ [.logWrite 0 50 (fun _ => 99)]

/-- **With the log exactly full, `log_write` of a block it already holds panics**, though no operation has logged more
than `MAXOPBLOCKS` distinct blocks. -/
theorem logWrite_panics_when_full : Run.allSteps (step 2) withinBound (ready (fun _ _ => 0)) fullRun ∧
    (Run.run (step 2) (ready (fun _ _ => 0)) fullRun).map St.panic = some (some .tooBig) ∧
    ¬ Run.allStates (step 2) Reserved (ready (fun _ _ => 0)) fullRun := by
  have hlast : (Run.run (step 2) (ready (fun _ _ => 0)) fullRun).map St.panic = some (some .tooBig) := by
    decide +kernel
  refine ⟨by decide +kernel, hlast, fun h => ?_⟩
  obtain ⟨t, ht, hp⟩ := Option.map_eq_some_iff.1 hlast
  have := (Run.allStates_last fullRun _ t h ht).1
  rw [hp] at this
  cases this

end Xv6.Log
