import Xv6.LogModel
/-!
# LogOps — operations and groups along a run

What every step does to the operations, stated once (`beginOp_some`, `logWrite_some`, `endOp_some`, `advance_some`), and
the discipline all steps keep (`Disc`): `outstanding` counts the operations in progress, none is in progress while the
log commits, and a group is a set of ended operations disjoint from the open transaction.
-/
namespace Xv6.Log

open List Option

structure Disc (s : St) : Prop where
  comm : s.pc.booted = true → (s.committing = true ↔ s.pc ≠ .idle)
  unbooted : s.pc.booted = false → s.committing = false ∧ s.ops = [] ∧ s.cur = []
  quiet : s.committing = true → s.ops = [] ∧ s.cur = []
  pids : (s.ops.map Prod.fst).Nodup
  ids : (s.ops.map Prod.snd).Nodup
  old : ∀ q ∈ s.ops, q.2 < s.nextOp
  hist : ∀ w ∈ s.hist, w.op < s.nextOp
  outs : s.outstanding = s.ops.length
  active : ∀ q ∈ s.ops, q.2 ∈ s.cur
  curOld : ∀ o ∈ s.cur, o < s.nextOp
  curDone : ∀ o ∈ s.cur, o ∈ s.done ∨ o ∈ s.ops.map Prod.snd
  grpOld : ∀ g ∈ s.groups, ∀ o ∈ g, o < s.nextOp
  grpDone : ∀ g ∈ s.groups, ∀ o ∈ g, o ∈ s.done
  apart : ∀ o ∈ s.cur, ∀ g ∈ s.groups, o ∉ g
  pre : s.committed <+: s.groups

theorem disc_boot (d : Nat → Block) : Disc (boot d) := by constructor <;> simp [boot, Pc.booted]

variable {s s' : St} {p o b start : Nat} {d : Block}

theorem opOf_mem (h : opOf s p = some o) : (p, o) ∈ s.ops := by
  obtain ⟨q, hq, rfl⟩ := map_eq_some_iff.1 h
  have hp := find?_some hq
  simp only [beq_iff_eq] at hp
  subst hp
  exact mem_of_find?_eq_some hq

theorem opOf_none (h : opOf s p = none) : p ∉ s.ops.map Prod.fst := by
  intro hp
  obtain ⟨q, hq, rfl⟩ := mem_map.1 hp
  simp only [opOf, map_eq_none_iff, find?_eq_none] at h
  exact h q hq (by simp)

theorem beginOp_some (h : beginOp s p = some s') :
    s' = s ∨ (s.pc.booted = true ∧ opOf s p = none ∧ s.committing = false ∧
      (s.lh.n : Int) + (s.outstanding + 1) * maxOpBlocks ≤ logBlocks ∧ s' = { s with
        outstanding := s.outstanding + 1
        ops := s.ops ++ [(p, s.nextOp)]
        cur := s.cur ++ [s.nextOp]
        nextOp := s.nextOp + 1 }) := by
  unfold beginOp at h
  split at h
  · cases h
  rename_i hp
  split at h
  · exact .inl (some.inj h).symm
  rename_i hc
  split at h
  · exact .inl (some.inj h).symm
  simp only [not_or, not_isSome_iff_eq_none] at hp
  exact .inr ⟨by simpa using hp.1, hp.2, by simpa using hc, by omega, (some.inj h).symm⟩

theorem length_filter_pid (hp : (s.ops.map Prod.fst).Nodup) (hm : (p, o) ∈ s.ops) :
    (s.ops.filter (fun q => q.1 != p)).length + 1 = s.ops.length := by
  generalize s.ops = l at hp hm
  induction l with
  | nil => cases hm
  | cons q l ih =>
    rw [map_cons, nodup_cons] at hp
    rcases mem_cons.1 hm with rfl | hm
    · have : l.filter (fun q => q.1 != p) = l := filter_eq_self.2 (fun x hx => by
        simp only [bne_iff_ne]
        exact fun he => hp.1 (mem_map.2 ⟨x, hx, he⟩))
      simp [this]
    · have hq : q.1 ≠ p := fun he => hp.1 (he ▸ mem_map.2 ⟨(p, o), hm, rfl⟩)
      have := ih hp.2 hm
      simp only [filter_cons, bne_iff_ne, ne_eq, hq, not_false_eq_true, if_true, length_cons]
      omega

/-- The state in which `log_write` tests for a full log: the buffer changed, the write on record. -/
def logged (s : St) (o b : Nat) (d : Block) : St :=
  { s with cache := Function.update s.cache b (some d), hist := s.hist ++ [⟨o, b, d⟩] }

theorem logWrite_some (h : logWrite s p b d = some s') :
    ∃ o, opOf s p = some o ∧
      ((logBlocks ≤ s.lh.n ∧ s' = { logged s o b d with panic := some .tooBig }) ∨
       (s.lh.n < logBlocks ∧ s.outstanding < 1 ∧ s' = { logged s o b d with panic := some .outsideTrans }) ∨
       (s.lh.n < logBlocks ∧ 1 ≤ s.outstanding ∧ s' = { logged s o b d with
          lh := absorb s.lh b
          pins := if findBlock s.lh b = s.lh.n then Function.update s.pins b (s.pins b + 1) else s.pins })) := by
  unfold logWrite at h
  split at h
  · cases h
  rename_i o ho
  refine ⟨o, ho, ?_⟩
  simp only at h
  split at h
  · rename_i hf
    exact .inl ⟨hf, (some.inj h).symm⟩
  split at h
  · rename_i hout
    exact .inr (.inl ⟨by omega, hout, (some.inj h).symm⟩)
  exact .inr (.inr ⟨by omega, by omega, (some.inj h).symm⟩)

def left (s : St) (p o : Nat) : St :=
  { s with outstanding := s.outstanding - 1, ops := s.ops.filter (fun q => q.1 != p), done := s.done ++ [o] }

theorem endOp_some (h : endOp s p = some s') :
    ∃ o, opOf s p = some o ∧ ((s.committing = true ∧ s' = { left s p o with panic := some .logCommitting }) ∨
       (s.committing = false ∧ s.outstanding - 1 = 0 ∧
        s' = { left s p o with committing := true, pc := .commit, groups := s.groups ++ [s.cur], cur := [] }) ∨
       (s.committing = false ∧ s.outstanding - 1 ≠ 0 ∧ s' = left s p o)) := by
  unfold endOp at h
  split at h
  · cases h
  rename_i o ho
  refine ⟨o, ho, ?_⟩
  simp only at h
  split at h
  · rename_i hc
    exact .inl ⟨hc, (some.inj h).symm⟩
  rename_i hc
  split at h
  · rename_i h0
    exact .inr (.inl ⟨by simpa using hc, h0, (some.inj h).symm⟩)
  rename_i h0
  exact .inr (.inr ⟨by simpa using hc, h0, (some.inj h).symm⟩)

theorem advance_some (h : advance start s = some s') :
    s'.panic = s.panic ∧ s'.outstanding = s.outstanding ∧ s'.ops = s.ops ∧ s'.nextOp = s.nextOp ∧ s'.hist = s.hist ∧
    s'.done = s.done ∧ s'.cur = s.cur ∧ s'.groups = s.groups ∧
    (s'.committed = s.committed ∨ s'.committed = s.groups) := by
  unfold advance at h
  split at h
  · cases h
  all_goals rw [← some.inj h]
  all_goals try split
  all_goals simp [writeHead, bwrite, bread]

theorem advance_pc (h : advance start s = some s')
    (hc : s.pc.booted = true → (s.committing = true ↔ s.pc ≠ .idle)) (hu : s.pc.booted = false → s.committing = false) :
    (s'.pc.booted = true → (s'.committing = true ↔ s'.pc ≠ .idle)) ∧ (s'.pc.booted = false → s'.committing = false) ∧
    (s'.committing = true → s.committing = true) ∧ (s'.pc.booted = false → s.pc.booted = false) ∧
    (s.pc.booted = true → s.committing = true ∧ s'.pc.booted = true ∧ s'.lh.block = s.lh.block ∧
      (s'.lh.n = s.lh.n ∨ s'.lh.n = 0)) := by
  unfold advance at h
  split at h <;> rename_i hpc
  · cases h
  all_goals rw [← some.inj h]
  all_goals rw [hpc] at hc hu ⊢
  all_goals simp only [Pc.booted] at hc hu
  all_goals try split
  all_goals simp [writeHead, bwrite, bread, Pc.booted, hc, hu]

/-! ## The discipline, step by step -/

section
variable (hI : Disc s)
include hI

theorem disc_beginOp (h : beginOp s p = some s') : Disc s' := by
  obtain rfl | ⟨hb, hp, hc, -, rfl⟩ := beginOp_some h
  · exact hI
  constructor
  · exact hI.comm
  · intro hnb
    rw [show s.pc.booted = false from hnb] at hb
    cases hb
  · intro hcm
    rw [show s.committing = true from hcm] at hc
    cases hc
  · rw [map_append, nodup_append]
    refine ⟨hI.pids, by simp, ?_⟩
    intro a ha b hb hab
    simp only [map_cons, map_nil, mem_singleton] at hb
    rw [hab, hb] at ha
    exact opOf_none hp ha
  · rw [map_append, nodup_append]
    refine ⟨hI.ids, by simp, ?_⟩
    intro a ha b hb hab
    obtain ⟨q, hq, rfl⟩ := mem_map.1 ha
    have hlt := hI.old q hq
    simp only [map_cons, map_nil, mem_singleton] at hb
    omega
  · intro q hq
    show q.2 < s.nextOp + 1
    rcases mem_append.1 hq with hq | hq
    · have := hI.old q hq
      omega
    · rw [mem_singleton.1 hq]
      exact Nat.lt_succ_self _
  · exact fun w hw => Nat.lt_succ_of_lt (hI.hist w hw)
  · rw [hI.outs]
    simp
  · intro q hq
    rcases mem_append.1 hq with hq | hq
    · exact mem_append_left _ (hI.active q hq)
    · rw [mem_singleton.1 hq]
      exact mem_append_right _ (mem_singleton.2 rfl)
  · intro o ho
    rcases mem_append.1 ho with ho | ho
    · exact Nat.lt_succ_of_lt (hI.curOld o ho)
    · rw [mem_singleton.1 ho]
      exact Nat.lt_succ_self _
  · intro o ho
    rw [map_append, mem_append]
    rcases mem_append.1 ho with ho | ho
    · exact (hI.curDone o ho).imp_right .inl
    · exact .inr (.inr ho)
  · exact fun g hg o ho => Nat.lt_succ_of_lt (hI.grpOld g hg o ho)
  · exact hI.grpDone
  · intro o ho g hg hog
    rcases mem_append.1 ho with ho | ho
    · exact hI.apart o ho g hg hog
    · have := hI.grpOld g hg o hog
      rw [mem_singleton.1 ho] at this
      exact lt_irrefl _ this
  · exact hI.pre

theorem disc_logged (ho : opOf s p = some o) : Disc (logged s o b d) :=
  { hI with
    hist := by
      intro w hw
      rcases mem_append.1 hw with hw | hw
      · exact hI.hist w hw
      · rw [mem_singleton.1 hw]
        exact hI.old (p, o) (opOf_mem ho) }

theorem disc_logWrite (h : logWrite s p b d = some s') : Disc s' := by
  obtain ⟨o, ho, hcase⟩ := logWrite_some h
  have hL : Disc (logged s o b d) := disc_logged hI ho
  rcases hcase with ⟨-, rfl⟩ | ⟨-, -, rfl⟩ | ⟨-, -, rfl⟩
  · exact { hL with }
  · exact { hL with }
  · exact { hL with }

theorem disc_left (ho : opOf s p = some o) : Disc (left s p o) :=
  { hI with
    quiet := fun hc => by
      have := hI.quiet hc
      exact ⟨by simp [left, this.1], this.2⟩
    unbooted := fun hb => by
      have := hI.unbooted hb
      exact ⟨this.1, by simp [left, this.2.1], this.2.2⟩
    pids := List.Nodup.sublist ((filter_sublist).map _) hI.pids
    ids := List.Nodup.sublist ((filter_sublist).map _) hI.ids
    old := fun q hq => hI.old q (mem_of_mem_filter hq)
    outs := by
      have := length_filter_pid hI.pids (opOf_mem ho)
      have houts := hI.outs
      show s.outstanding - 1 = ((s.ops.filter (fun q => q.1 != p)).length : Int)
      omega
    active := fun q hq => hI.active q (mem_of_mem_filter hq)
    curDone := by
      intro x hx
      rcases hI.curDone x hx with hd | hm
      · exact .inl (mem_append_left _ hd)
      obtain ⟨q, hq, rfl⟩ := mem_map.1 hm
      by_cases hqp : q.1 = p
      · -- the operation of `p` is the one that leaves
        have hqo : q.2 = o := by
          have := inj_on_of_nodup_map hI.pids hq (opOf_mem ho) hqp
          rw [this]
        exact .inl (mem_append_right _ (mem_singleton.2 hqo))
      · exact .inr (mem_map.2 ⟨q, mem_filter.2 ⟨hq, by simpa using hqp⟩, rfl⟩)
    grpDone := fun g hg x hx => mem_append_left _ (hI.grpDone g hg x hx) }

theorem left_ops_nil (ho : opOf s p = some o) (h0 : s.outstanding - 1 = 0) : (left s p o).ops = [] := by
  have houts := (disc_left hI ho).outs
  apply eq_nil_of_length_eq_zero
  simp only [left] at houts ⊢
  omega

theorem disc_endOp (h : endOp s p = some s') : Disc s' := by
  obtain ⟨o, ho, hcase⟩ := endOp_some h
  have hL : Disc (left s p o) := disc_left hI ho
  rcases hcase with ⟨hc, rfl⟩ | ⟨hc, h0, rfl⟩ | ⟨-, -, rfl⟩
  · exact { hL with }
  · have hnil := left_ops_nil hI ho h0
    constructor
    · intro _; simp
    · intro hb; cases hb
    · intro _; exact ⟨hnil, rfl⟩
    · exact hL.pids
    · exact hL.ids
    · exact hL.old
    · exact hL.hist
    · exact hL.outs
    · intro q hq
      rw [show ({ left s p o with committing := true, pc := .commit, groups := s.groups ++ [s.cur], cur := [] } : St).ops
        = (left s p o).ops from rfl, hnil] at hq
      cases hq
    · intro x hx; cases hx
    · intro x hx; cases hx
    · intro g hg x hx
      rcases mem_append.1 hg with hg | hg
      · exact hI.grpOld g hg x hx
      · rw [mem_singleton.1 hg] at hx
        exact hI.curOld x hx
    · intro g hg x hx
      rcases mem_append.1 hg with hg | hg
      · exact hL.grpDone g hg x hx
      rw [mem_singleton.1 hg] at hx
      rcases hL.curDone x hx with hd | hm
      · exact hd
      · rw [hnil] at hm
        cases hm
    · intro x hx; cases hx
    · exact hI.pre.trans (prefix_append _ _)
  · exact hL

theorem disc_advance (h : advance start s = some s') : Disc s' := by
  obtain ⟨-, ho, hops, hnx, hh, hd, hcur, hg, hcm⟩ := advance_some h
  obtain ⟨h1, h2, h3, h4, -⟩ := advance_pc h hI.comm (fun hb => (hI.unbooted hb).1)
  constructor
  · exact h1
  · intro hb
    rw [hops, hcur]
    exact ⟨h2 hb, (hI.unbooted (h4 hb)).2⟩
  · intro hc
    rw [hops, hcur]
    exact hI.quiet (h3 hc)
  · rw [hops]; exact hI.pids
  · rw [hops]; exact hI.ids
  · rw [hops, hnx]; exact hI.old
  · rw [hh, hnx]; exact hI.hist
  · rw [ho, hops]; exact hI.outs
  · rw [hops, hcur]; exact hI.active
  · rw [hcur, hnx]; exact hI.curOld
  · rw [hcur, hd, hops]; exact hI.curDone
  · rw [hg, hnx]; exact hI.grpOld
  · rw [hg, hd]; exact hI.grpDone
  · rw [hcur, hg]; exact hI.apart
  · rw [hg]
    rcases hcm with hcm | hcm
    · rw [hcm]; exact hI.pre
    · rw [hcm]

theorem disc_crash : Disc (crash s) := by
  have hsub : ∀ g ∈ s.committed, g ∈ s.groups := fun g hg => hI.pre.subset hg
  constructor
  · intro hb; cases hb
  · intro _; exact ⟨rfl, rfl, rfl⟩
  · intro hc; cases hc
  · exact nodup_nil
  · exact nodup_nil
  · intro q hq; cases hq
  · exact hI.hist
  · rfl
  · intro q hq; cases hq
  · intro o ho; cases ho
  · intro o ho; cases ho
  · exact fun g hg => hI.grpOld g (hsub g hg)
  · exact fun g hg => hI.grpDone g (hsub g hg)
  · intro o ho; cases ho
  · exact prefix_refl _

end

end Xv6.Log
