import Xv6.LogOps
/-!
# LogCrash — crash atomicity of the redo log

The state a prefix of the commit groups produces is `replayGroups`: the groups in order, each applying all writes of its
operations in the order they were issued. `Durable start d V` says what a disk must look like for `recover_from_log` to
leave `V` at every home location; it holds of the disk at every moment of every run, crashes and recoveries included,
with `V` the groups past their header write (`durable_of_run`). The cache is bound to the disk by `Phase`, one clause
for each place where the thread in `commit` or in recovery can stand.
-/
namespace Xv6.Log

open Function List Option

/-! ## What a group of operations does -/

def applyWrites (st : Nat → Block) (ws : List Write) : Nat → Block :=
  ws.foldl (fun st w => update st w.blockno w.data) st

def groupWrites (hist : List Write) (g : List Nat) : List Write := hist.filter (fun w => decide (w.op ∈ g))

def replayGroups (base : Nat → Block) (hist : List Write) (gs : List (List Nat)) : Nat → Block :=
  gs.foldl (fun st g => applyWrites st (groupWrites hist g)) base

def visible (base : Nat → Block) (s : St) : Nat → Block := replayGroups base s.hist s.committed

variable {start : Nat}

/-- All groups, and the open transaction on top. -/
def pending (base : Nat → Block) (s : St) : Nat → Block :=
  applyWrites (replayGroups base s.hist s.groups) (groupWrites s.hist s.cur)

theorem groupWrites_append (hist : List Write) (w : Write) (g : List Nat) :
    groupWrites (hist ++ [w]) g = if w.op ∈ g then groupWrites hist g ++ [w] else groupWrites hist g := by
  unfold groupWrites
  by_cases h : w.op ∈ g <;> simp [h]

@[simp] theorem groupWrites_nil (hist : List Write) : groupWrites hist [] = [] := by simp [groupWrites]

theorem groupWrites_fresh (hist : List Write) (g : List Nat) (o : Nat) (h : ∀ w ∈ hist, w.op ≠ o) :
    groupWrites hist (g ++ [o]) = groupWrites hist g := by
  apply filter_congr
  intro w hw
  simp [h w hw]

theorem replayGroups_hist (base : Nat → Block) (hist : List Write) (w : Write) :
    ∀ (gs : List (List Nat)), (∀ g ∈ gs, w.op ∉ g) → replayGroups base (hist ++ [w]) gs = replayGroups base hist gs := by
  intro gs
  unfold replayGroups
  induction gs generalizing base with
  | nil => intro _; rfl
  | cons g gs ih =>
    intro h
    rw [foldl_cons, foldl_cons, groupWrites_append, if_neg (h g (by simp))]
    exact ih _ (fun g' hg' => h g' (mem_cons_of_mem _ hg'))

theorem replayGroups_snoc (base : Nat → Block) (hist : List Write) (gs : List (List Nat)) (g : List Nat) :
    replayGroups base hist (gs ++ [g]) = applyWrites (replayGroups base hist gs) (groupWrites hist g) := by
  unfold replayGroups
  rw [foldl_append]
  rfl

variable {s s' : St} {base d V V' : Nat → Block} {i b p tail c o : Nat} {x : Block} {lh : LogHeader}

theorem pending_of_cur_nil (h : s.cur = []) : pending base s = replayGroups base s.hist s.groups := by
  unfold pending
  rw [h, groupWrites_nil]
  rfl

/-! ## What recovery needs of a disk -/

/-- **The disk recovers to `V`**: the header names at most `LOGBLOCKS` home blocks, the log holds `V`'s contents of
them, and every other home block holds `V`'s already. -/
structure Durable (start : Nat) (d : Nat → Block) (V : Nat → Block) : Prop where
  n_le : headN (d start) ≤ logBlocks
  home : ∀ i < headN (d start), ¬ logArea start (headBlock (d start) i)
  copy : ∀ i < headN (d start), d (start + i + 1) = V (headBlock (d start) i)
  rest : ∀ b, ¬ logArea start b → (∀ i < headN (d start), headBlock (d start) i ≠ b) → d b = V b

theorem durable_congr (hD : Durable start d V) (h : ∀ b, ¬ logArea start b → V b = V' b) : Durable start d V' where
  n_le := hD.n_le
  home := hD.home
  copy := fun i hi => (hD.copy i hi).trans (h _ (hD.home i hi))
  rest := fun b hb hn => (hD.rest b hb hn).trans (h b hb)

theorem start_logArea (start : Nat) : logArea start start := ⟨le_refl _, Nat.le_add_right _ _⟩

theorem tail_logArea (h : i < logBlocks) : logArea start (start + i + 1) := ⟨by omega, by omega⟩

theorem ne_of_logArea (hb : ¬ logArea start b) (hc : logArea start c) : b ≠ c := by
  rintro rfl
  exact hb hc

theorem durable_install (hD : Durable start d V) (hi : i < headN (d start)) :
    Durable start (update d (headBlock (d start) i) (d (start + i + 1))) V := by
  have hne : start ≠ headBlock (d start) i := (ne_of_logArea (hD.home i hi) (start_logArea start)).symm
  have hhead : update d (headBlock (d start) i) (d (start + i + 1)) start = d start := by
    rw [update_of_ne hne]
  have hle := hD.n_le
  constructor
  · rw [hhead]; exact hle
  · rw [hhead]; exact hD.home
  · rw [hhead]
    intro j hj
    have hlog : logArea start (start + j + 1) := tail_logArea (by omega)
    rw [update_of_ne (ne_of_logArea (hD.home i hi) hlog).symm]
    exact hD.copy j hj
  · rw [hhead]
    intro b hb hn
    rw [update_of_ne (hn i hi).symm]
    exact hD.rest b hb hn

theorem durable_erase (hn : lh.n = 0)
    (hV : ∀ b, ¬ logArea start b → d b = V b) : Durable start (update d start (putHead lh x)) V := by
  have h0 : headN (update d start (putHead lh x) start) = 0 := by
    simp [headN, putHead, hn]
  constructor
  · rw [h0]; exact Nat.zero_le _
  · rw [h0]; intro i hi; omega
  · rw [h0]; intro i hi; omega
  · intro b hb _
    rw [update_of_ne (ne_of_logArea hb (start_logArea start))]
    exact hV b hb

theorem headN_putHead (lh : LogHeader) (x : Block) : headN (putHead lh x) = lh.n := by simp [headN, putHead]

theorem headBlock_putHead (x : Block) (hi : i < lh.n) : headBlock (putHead lh x) i = lh.block i := by
  simp [headBlock, putHead, hi]

/-! ## `recover_from_log` on such a disk -/

theorem installTrans_spec (hD : Durable start d V)
    (hn : lh.n = headN (d start)) (hb : ∀ i < lh.n, lh.block i = headBlock (d start) i) :
    ∀ k ≤ lh.n, Durable start (installTrans start lh k d) V ∧ installTrans start lh k d start = d start ∧
      ∀ i < k, installTrans start lh k d (lh.block i) = V (lh.block i)
  | 0, _ => ⟨hD, rfl, fun i hi => by omega⟩
  | k + 1, hk => by
    obtain ⟨hD', hs, hin⟩ := installTrans_spec hD hn hb k (by omega)
    have hstep : installTrans start lh (k + 1) d =
        update (installTrans start lh k d) (lh.block k) (installTrans start lh k d (start + k + 1)) := by
      unfold installTrans
      rw [range_succ, foldl_append]
      rfl
    have hkn : k < headN (installTrans start lh k d start) := by rw [hs]; omega
    have hblk : headBlock (installTrans start lh k d start) k = lh.block k := by rw [hs, hb k (by omega)]
    have hDk := durable_install hD' hkn
    rw [hblk, ← hstep] at hDk
    have hcopy := hD'.copy k hkn
    rw [hblk] at hcopy
    have hne : start ≠ lh.block k := by
      rw [← hblk]
      exact (ne_of_logArea (hD'.home k hkn) (start_logArea start)).symm
    refine ⟨hDk, ?_, ?_⟩
    · rw [hstep, update_of_ne hne, hs]
    intro i hi
    rw [hstep]
    by_cases hik : lh.block i = lh.block k
    · rw [hik, update_self, hcopy]
    · rw [update_of_ne hik]
      refine hin i ?_
      by_contra hge
      exact hik (by rw [show i = k by omega])

theorem readHead_spec (d : Nat → Block) (start : Nat) (lh : LogHeader) : (readHead lh (d start)).n = headN (d start) ∧
    ∀ i < (readHead lh (d start)).n, (readHead lh (d start)).block i = headBlock (d start) i := by
  refine ⟨rfl, fun i hi => ?_⟩
  exact if_pos hi

theorem durable_recoverCut (hD : Durable start d V) (k : Nat) : Durable start (recoverCut start d k) V := by
  obtain ⟨hn, hb⟩ := readHead_spec d start ⟨0, fun _ => 0⟩
  unfold recoverCut
  simp only
  split
  · rename_i hk
    exact (installTrans_spec hD hn hb k hk).1
  obtain ⟨hD', hs, hin⟩ := installTrans_spec hD hn hb _ le_rfl
  refine durable_erase rfl (fun b hb' => ?_)
  by_cases hex : ∃ i < headN (d start), headBlock (d start) i = b
  · obtain ⟨i, hi, rfl⟩ := hex
    rw [← hb i (by rw [hn]; exact hi)]
    exact hin i (by rw [hn]; exact hi)
  · refine hD'.rest b hb' ?_
    rw [hs]
    exact fun i hi he => hex ⟨i, hi, he⟩

theorem recoverFromLog_home (hD : Durable start d V) (b : Nat)
    (hb : ¬ logArea start b) : recoverFromLog start d b = V b := by
  have hD' := durable_recoverCut hD (headN (d start) + 1)
  refine hD'.rest b hb ?_
  have h0 : headN (recoverCut start d (headN (d start) + 1) start) = 0 := by
    unfold recoverCut
    have hlt : ¬ headN (d start) + 1 ≤ (readHead ⟨0, fun _ => 0⟩ (d start)).n := by
      rw [(readHead_spec d start ⟨0, fun _ => 0⟩).1]
      omega
    simp only [if_neg hlt, update_self, headN_putHead]
  intro i hi
  omega

/-! ## Cache and disk, phase by phase -/

/-- A buffer the log does not pin, or one of the log's own blocks, is what is on disk. -/
def Clean (start : Nat) (s : St) : Prop :=
  ∀ b, s.pins b = 0 ∨ logArea start b → ∀ x, s.cache b = some x → x = s.disk b

def CleanAll (s : St) : Prop := ∀ b x, s.cache b = some x → x = s.disk b

/-- The file system's view: `bread` finds every group and the open transaction. -/
structure Coh (start : Nat) (base : Nat → Block) (s : St) : Prop where
  view : ∀ b, ¬ logArea start b → content s b = pending base s b
  clean : Clean start s
  outside : ∀ i < s.lh.n, ¬ logArea start (s.lh.block i)
  n_le : s.lh.n ≤ logBlocks

/-- Before the header write: the disk's log is empty, and what the open transaction changed is pinned. -/
structure Pre (start : Nat) (base : Nat → Block) (s : St) : Prop where
  head : headN (s.disk start) = 0
  same : ∀ b, ¬ logArea start b → (∀ i < s.lh.n, s.lh.block i ≠ b) → pending base s b = visible base s b
  pinned : ∀ i < s.lh.n, s.pins (s.lh.block i) ≠ 0

def Copied (start : Nat) (base : Nat → Block) (s : St) (k : Nat) : Prop :=
  ∀ i < k, s.disk (start + i + 1) = pending base s (s.lh.block i)

def Head (start : Nat) (s : St) : Prop :=
  headN (s.disk start) = s.lh.n ∧ ∀ i < s.lh.n, headBlock (s.disk start) i = s.lh.block i

def Installed (base : Nat → Block) (s : St) (k : Nat) : Prop :=
  ∀ i < k, s.disk (s.lh.block i) = visible base s (s.lh.block i)

def AllHome (start : Nat) (base : Nat → Block) (s : St) : Prop :=
  ∀ b, ¬ logArea start b → s.disk b = visible base s b

def Phase (start : Nat) (base : Nat → Block) (s : St) : Pc → Prop
  | .idle => Coh start base s ∧ Pre start base s ∧ s.committed = s.groups
  | .commit => Coh start base s ∧ Pre start base s
  | .writeLog tail => Coh start base s ∧ Pre start base s ∧ tail ≤ s.lh.n ∧ Copied start base s tail
  | .writeHead => Coh start base s ∧ Pre start base s ∧ Copied start base s s.lh.n
  | .install tail =>
    Coh start base s ∧ s.committed = s.groups ∧ tail ≤ s.lh.n ∧ Head start s ∧ Installed base s tail
  | .eraseHead => Coh start base s ∧ s.committed = s.groups ∧ s.lh.n = 0 ∧ AllHome start base s
  | .finish => Coh start base s ∧ s.committed = s.groups ∧ s.lh.n = 0 ∧ headN (s.disk start) = 0
  | .recRead => CleanAll s ∧ s.committed = s.groups
  | .recInstall tail => CleanAll s ∧ s.committed = s.groups ∧ tail ≤ s.lh.n ∧ Head start s ∧ Installed base s tail
  | .recErase => CleanAll s ∧ s.committed = s.groups ∧ s.lh.n = 0 ∧ AllHome start base s

structure Crash (start : Nat) (base : Nat → Block) (s : St) : Prop where
  disc : Disc s
  dur : Durable start s.disk (visible base s)
  phase : s.panic = none → Phase start base s s.pc

theorem content_of_clean (h : Clean start s) (hb : s.pins b = 0 ∨ logArea start b) : content s b = s.disk b := by
  unfold content
  cases hc : s.cache b with
  | none => rfl
  | some x => exact h b hb x hc

theorem content_of_cleanAll (h : CleanAll s) (b : Nat) : content s b = s.disk b := by
  unfold content
  cases hc : s.cache b with
  | none => rfl
  | some x => exact h b x hc

theorem clean_bread (h : Clean start s) (b : Nat) : Clean start (bread s b) := by
  intro c hc x hx
  by_cases hcb : c = b
  · subst hcb
    simp only [bread, update_self, some.injEq] at hx
    rw [← hx]
    exact content_of_clean h hc
  · simp only [bread, update_of_ne hcb] at hx
    exact h c hc x hx

theorem cleanAll_bread (h : CleanAll s) (b : Nat) : CleanAll (bread s b) := by
  intro c x hx
  by_cases hcb : c = b
  · subst hcb
    simp only [bread, update_self, some.injEq] at hx
    rw [← hx]
    exact content_of_cleanAll h c
  · simp only [bread, update_of_ne hcb] at hx
    exact h c x hx

theorem clean_bwrite (h : Clean start s) (b : Nat) (d : Block) : Clean start (bwrite s b d) := by
  intro c hc x hx
  by_cases hcb : c = b
  · subst hcb
    simp only [bwrite, update_self, some.injEq] at hx ⊢
    exact hx.symm
  · simp only [bwrite, update_of_ne hcb] at hx ⊢
    exact h c hc x hx

theorem cleanAll_bwrite (h : CleanAll s) (b : Nat) (d : Block) : CleanAll (bwrite s b d) := by
  intro c x hx
  by_cases hcb : c = b
  · subst hcb
    simp only [bwrite, update_self, some.injEq] at hx ⊢
    exact hx.symm
  · simp only [bwrite, update_of_ne hcb] at hx ⊢
    exact h c x hx

theorem phase_cache {c : Nat → Option Block}
    (hcont : Clean start s ∨ CleanAll s → ∀ b, content { s with cache := c } b = content s b)
    (hclean : Clean start s → Clean start { s with cache := c }) (hall : CleanAll s → CleanAll { s with cache := c })
    (pc : Pc) (h : Phase start base s pc) : Phase start base { s with cache := c } pc := by
  have hcoh : Coh start base s → Coh start base { s with cache := c } := fun hC =>
    ⟨fun b hb => (hcont (.inl hC.clean) b).trans (hC.view b hb), hclean hC.clean, hC.outside, hC.n_le⟩
  have hpre : Pre start base s → Pre start base { s with cache := c } := fun hP => ⟨hP.head, hP.same, hP.pinned⟩
  cases pc with
  | idle => exact ⟨hcoh h.1, hpre h.2.1, h.2.2⟩
  | commit => exact ⟨hcoh h.1, hpre h.2⟩
  | writeLog tail => exact ⟨hcoh h.1, hpre h.2.1, h.2.2⟩
  | writeHead => exact ⟨hcoh h.1, hpre h.2.1, h.2.2⟩
  | install tail => exact ⟨hcoh h.1, h.2⟩
  | eraseHead => exact ⟨hcoh h.1, h.2⟩
  | finish => exact ⟨hcoh h.1, h.2⟩
  | recRead => exact ⟨hall h.1, h.2⟩
  | recInstall tail => exact ⟨hall h.1, h.2⟩
  | recErase => exact ⟨hall h.1, h.2⟩

section
variable (hI : Crash start base s)
include hI

theorem crash_read (b : Nat) : Crash start base (bread s b) where
  disc := { hI.disc with }
  dur := hI.dur
  phase := fun hp => phase_cache (fun _ => bread_content s b) (fun h => clean_bread h b)
    (fun h => cleanAll_bread h b) _ (hI.phase hp)

theorem crash_evict (h : evict s b = some s') : Crash start base s' := by
  unfold evict at h
  split at h
  · rename_i hpin
    cases h
    have hnone : ∀ c x, update s.cache b none c = some x → c ≠ b ∧ s.cache c = some x := by
      intro c x hx
      by_cases hcb : c = b
      · subst hcb
        rw [update_self] at hx
        cases hx
      · rw [update_of_ne hcb] at hx
        exact ⟨hcb, hx⟩
    refine ⟨{ hI.disc with }, hI.dur, fun hp => phase_cache ?_ ?_ ?_ _ (hI.phase hp)⟩
    · intro hcl c
      by_cases hcb : c = b
      · subst hcb
        have hdisk : content s c = s.disk c := by
          rcases hcl with hcl | hcl
          · exact content_of_clean hcl (.inl hpin)
          · exact content_of_cleanAll hcl c
        rw [hdisk]
        simp [content]
      · simp [content, update_of_ne hcb]
    · intro hcl c hc x hx
      exact hcl c hc x (hnone c x hx).2
    · intro hcl c x hx
      exact hcl c x (hnone c x hx).2
  · cases h

theorem crash_crash : Crash start base (crash s) where
  disc := disc_crash hI.disc
  dur := hI.dur
  phase := fun _ => ⟨fun _ _ hx => by simp [crash] at hx, rfl⟩

end

/-! ## Operations -/

theorem pc_idle_of_ops (hD : Disc s) (ho : opOf s p = some o) : s.pc = .idle ∧ s.committing = false := by
  have hm := opOf_mem ho
  have hb : s.pc.booted = true := by
    cases hb : s.pc.booted with
    | true => rfl
    | false =>
      rw [(hD.unbooted hb).2.1] at hm
      cases hm
  have hc : s.committing = false := by
    cases hc : s.committing with
    | false => rfl
    | true =>
      rw [(hD.quiet hc).1] at hm
      cases hm
  refine ⟨?_, hc⟩
  by_contra hne
  rw [(hD.comm hb).2 hne] at hc
  cases hc

theorem crash_beginOp (hI : Crash start base s) (h : beginOp s p = some s') : Crash start base s' := by
  have hD := disc_beginOp hI.disc h
  obtain rfl | ⟨hb, -, hc, -, rfl⟩ := beginOp_some h
  · exact hI
  have hidle : s.pc = .idle := by
    by_contra hne
    rw [(hI.disc.comm hb).2 hne] at hc
    cases hc
  refine ⟨hD, hI.dur, fun hp => ?_⟩
  have hph := hI.phase hp
  rw [hidle] at hph
  obtain ⟨hC, hP, hg⟩ := hph
  -- the new operation has no write on record, so the view is the same
  have hpend : ∀ b, pending base { s with
      outstanding := s.outstanding + 1
      ops := s.ops ++ [(p, s.nextOp)]
      cur := s.cur ++ [s.nextOp]
      nextOp := s.nextOp + 1 } b = pending base s b := by
    intro b
    unfold pending
    rw [groupWrites_fresh]
    exact fun w hw => ne_of_lt (hI.disc.hist w hw)
  simp only [hidle]
  exact ⟨⟨fun b hb' => (hC.view b hb').trans (hpend b).symm, hC.clean, hC.outside, hC.n_le⟩,
    ⟨hP.head, fun b hb' hn => (hpend b).trans (hP.same b hb' hn), hP.pinned⟩, hg⟩

theorem views_logged {o : Nat} {d : Block} (hD : Disc s) (ho : opOf s p = some o) :
    visible base (logged s o b d) = visible base s ∧ pending base (logged s o b d) = update (pending base s) b d := by
  have hcur := hD.active (p, o) (opOf_mem ho)
  constructor
  · exact replayGroups_hist base s.hist ⟨o, b, d⟩ s.committed (fun g hg => hD.apart o hcur g (hD.pre.subset hg))
  unfold pending
  simp only [logged]
  rw [replayGroups_hist base s.hist ⟨o, b, d⟩ s.groups (fun g => hD.apart o hcur g), groupWrites_append, if_pos hcur]
  unfold applyWrites
  rw [foldl_append]
  rfl

theorem crash_logWrite {d : Block}
    (hI : Crash start base s) (hnp : s.panic = none) (hout : ¬ logArea start b) (h : logWrite s p b d = some s') :
    Crash start base s' := by
  have hD := disc_logWrite hI.disc h
  obtain ⟨o, ho, hcase⟩ := logWrite_some h
  obtain ⟨hvis, hpen⟩ := @views_logged s base b p o d hI.disc ho
  have hdur : Durable start s.disk (visible base (logged s o b d)) := by rw [hvis]; exact hI.dur
  rcases hcase with ⟨-, rfl⟩ | ⟨-, -, rfl⟩ | ⟨hlt, -, rfl⟩
  · exact ⟨hD, hdur, fun hp => by cases hp⟩
  · exact ⟨hD, hdur, fun hp => by cases hp⟩
  refine ⟨hD, hdur, fun _ => ?_⟩
  have hidle := (pc_idle_of_ops hI.disc ho).1
  have hph := hI.phase hnp
  rw [hidle] at hph
  obtain ⟨hC, hP, hg⟩ := hph
  generalize hpins : (if findBlock s.lh b = s.lh.n then update s.pins b (s.pins b + 1) else s.pins) = pins
  have hpin : pins b ≠ 0 ∧ ∀ c, c ≠ b → pins c = s.pins c := by
    rw [← hpins]
    split
    · exact ⟨by simp, fun c hc => update_of_ne hc _ _⟩
    rename_i hf
    obtain ⟨hi, hib⟩ := findBlock_lt hf
    refine ⟨?_, fun _ _ => rfl⟩
    rw [← hib]
    exact hP.pinned _ hi
  show Phase start base { logged s o b d with lh := absorb s.lh b, pins := pins } s.pc
  rw [hidle]
  refine ⟨⟨?_, ?_, ?_, ?_⟩, ⟨hP.head, ?_, ?_⟩, hg⟩
  · intro c hc
    show (update s.cache b (some d) c).getD (s.disk c) = pending base (logged s o b d) c
    rw [hpen]
    by_cases hcb : c = b
    · subst hcb; simp
    · rw [update_of_ne hcb, update_of_ne hcb]
      exact hC.view c hc
  · intro c hc x hx
    have hcb : c ≠ b := by
      rintro rfl
      rcases hc with hc | hc
      · exact hpin.1 hc
      · exact hout hc
    have hx' : s.cache c = some x := by simpa [logged, update_of_ne hcb] using hx
    refine hC.clean c ?_ x hx'
    rw [← hpin.2 c hcb]
    exact hc
  · intro i hi
    rcases absorb_mem.1 ⟨i, hi, rfl⟩ with he | ⟨j, hj, he⟩
    · rw [he]; exact hout
    · rw [← he]; exact hC.outside j hj
  · simp only [absorb]
    split <;> omega
  · intro c hc hn
    show pending base (logged s o b d) c = visible base (logged s o b d) c
    have hcb : c ≠ b := by
      rintro rfl
      obtain ⟨i, hi, he⟩ := absorb_mem.2 (.inl rfl : c = c ∨ ∃ i < s.lh.n, s.lh.block i = c)
      exact hn i hi he
    rw [hpen, hvis, update_of_ne hcb]
    refine hP.same c hc (fun i hi he => ?_)
    obtain ⟨j, hj, hje⟩ := absorb_mem.2 (.inr ⟨i, hi, he⟩ : c = b ∨ ∃ i < s.lh.n, s.lh.block i = c)
    exact hn j hj hje
  · intro i hi
    show pins ((absorb s.lh b).block i) ≠ 0
    by_cases hcb : (absorb s.lh b).block i = b
    · rw [hcb]; exact hpin.1
    · rcases absorb_mem.1 ⟨i, hi, rfl⟩ with he | ⟨j, hj, he⟩
      · exact absurd he hcb
      · rw [hpin.2 _ hcb, ← he]
        exact hP.pinned j hj

theorem crash_endOp (hI : Crash start base s) (hnp : s.panic = none) (h : endOp s p = some s') : Crash start base s' := by
  have hD := disc_endOp hI.disc h
  obtain ⟨o, ho, hcase⟩ := endOp_some h
  obtain ⟨hidle, -⟩ := pc_idle_of_ops hI.disc ho
  have hph := hI.phase hnp
  rw [hidle] at hph
  obtain ⟨hC, hP, hg⟩ := hph
  rcases hcase with ⟨-, rfl⟩ | ⟨-, -, rfl⟩ | ⟨-, -, rfl⟩
  · exact ⟨hD, hI.dur, fun hp => by cases hp⟩
  · have hpend : ∀ b, pending base
        { left s p o with committing := true, pc := .commit, groups := s.groups ++ [s.cur], cur := [] } b =
        pending base s b := by
      intro b
      rw [pending_of_cur_nil rfl]
      unfold pending
      simp only [left]
      rw [replayGroups_snoc]
    exact ⟨hD, hI.dur, fun _ => ⟨⟨fun b hb => (hC.view b hb).trans (hpend b).symm, hC.clean, hC.outside, hC.n_le⟩,
      ⟨hP.head, fun b hb hn => (hpend b).trans (hP.same b hb hn), hP.pinned⟩⟩⟩
  · refine ⟨hD, hI.dur, fun _ => ?_⟩
    show Phase start base (left s p o) s.pc
    rw [hidle]
    exact ⟨⟨hC.view, hC.clean, hC.outside, hC.n_le⟩, ⟨hP.head, hP.same, hP.pinned⟩, hg⟩

/-! ## `commit` -/

theorem pending_eq_visible (hcur : s.cur = []) (hg : s.committed = s.groups) : pending base s = visible base s := by
  rw [pending_of_cur_nil hcur, visible, hg]

section
variable (hD : Durable start s.disk (visible base s))
include hD

theorem disk_home (h0 : headN (s.disk start) = 0) : AllHome start base s :=
  fun b hb => hD.rest b hb (fun i hi => by omega)

theorem allHome_of_installed (hH : Head start s) (hin : Installed base s s.lh.n) : AllHome start base s := by
  intro b hb
  by_cases hex : ∃ i < s.lh.n, s.lh.block i = b
  · obtain ⟨i, hi, rfl⟩ := hex
    exact hin i hi
  · refine hD.rest b hb (fun i hi he => hex ⟨i, by rw [← hH.1]; exact hi, ?_⟩)
    rw [← he, hH.2 i (by rw [← hH.1]; exact hi)]

theorem durable_installStep (hH : Head start s) (ht : tail < s.lh.n)
    (hcont : content s (start + tail + 1) = s.disk (start + tail + 1)) :
    content s (start + tail + 1) = visible base s (s.lh.block tail) ∧
    Durable start (update s.disk (s.lh.block tail) (content s (start + tail + 1))) (visible base s) ∧
    ¬ logArea start (s.lh.block tail) := by
  have hlt : tail < headN (s.disk start) := by rw [hH.1]; exact ht
  have hblk := hH.2 tail ht
  have hcopy := hD.copy tail hlt
  have hhome := hD.home tail hlt
  have hins := durable_install hD hlt
  rw [hblk] at hcopy hhome hins
  rw [hcont]
  exact ⟨hcopy, hins, hhome⟩

end

theorem installed_succ {block : Nat → Nat} (hin : ∀ i < tail, d (block i) = V (block i)) (hx : x = V (block tail)) :
    ∀ i < tail + 1, update d (block tail) x (block i) = V (block i) := by
  intro i hi
  by_cases hb : block i = block tail
  · rw [hb, update_self, hx]
  · rw [update_of_ne hb]
    refine hin i ?_
    by_contra hge
    exact hb (by rw [show i = tail by omega])

theorem Head.write (hH : Head start s) (hb : ¬ logArea start b) (hlh : s'.lh = s.lh)
    (hd : s'.disk = update s.disk b x) : Head start s' := by
  unfold Head
  rw [hlh, hd, update_of_ne (ne_of_logArea hb (start_logArea start)).symm]
  exact hH

section
variable (hI : Crash start base s)
include hI

theorem crash_writeLog
    (hC : Coh start base s) (hP : Pre start base s) (hcp : Copied start base s tail) (ht : tail < s.lh.n) :
    let s' := bwrite (bread (bread s (start + tail + 1)) (s.lh.block tail)) (start + tail + 1)
      (content s (s.lh.block tail))
    Durable start s'.disk (visible base s') ∧ Coh start base s' ∧ Pre start base s' ∧ Copied start base s' (tail + 1) := by
  intro s'
  have hlog : logArea start (start + tail + 1) := tail_logArea (lt_of_lt_of_le ht hC.n_le)
  have hstart : s'.disk start = s.disk start := update_of_ne (by omega) _ _
  have hhome : ∀ b, ¬ logArea start b → s'.disk b = s.disk b := fun b hb =>
    update_of_ne (ne_of_logArea hb hlog) _ _
  have hview := hC.view _ (hC.outside tail ht)
  have h0 : headN (s'.disk start) = 0 := by rw [hstart]; exact hP.head
  refine ⟨⟨?_, ?_, ?_, ?_⟩, ⟨?_, ?_, hC.outside, hC.n_le⟩, ⟨h0, hP.same, hP.pinned⟩, ?_⟩
  · rw [h0]; exact Nat.zero_le _
  · rw [h0]; intro i hi; omega
  · rw [h0]; intro i hi; omega
  · intro b hb _
    rw [hhome b hb]
    exact disk_home hI.dur hP.head b hb
  · intro b hb
    rw [content_bwrite, if_neg (ne_of_logArea hb hlog), bread_content, bread_content]
    exact hC.view b hb
  · exact clean_bwrite (clean_bread (clean_bread hC.clean _) _) _ _
  intro i hi
  show update s.disk (start + tail + 1) (content s (s.lh.block tail)) (start + i + 1) =
    pending base s (s.lh.block i)
  by_cases hit : i = tail
  · subst hit
    rw [update_self]
    exact hview
  · rw [update_of_ne (by omega)]
    exact hcp i (by omega)

theorem crash_writeHead (hcur : s.cur = [])
    (hC : Coh start base s) (hP : Pre start base s) (hcp : Copied start base s s.lh.n) :
    let s' : St := { writeHead start s with pc := .install 0, committed := s.groups }
    Durable start s'.disk (visible base s') ∧ Coh start base s' ∧ Head start s' := by
  intro s'
  have hvis : visible base s' = pending base s := (pending_of_cur_nil hcur).symm
  have hself : s'.disk start = putHead s.lh (content s start) := update_self ..
  have hne : ∀ b, b ≠ start → s'.disk b = s.disk b := fun b hb => update_of_ne hb _ _
  have hhead : Head start s' := by
    unfold Head
    rw [hself, headN_putHead]
    exact ⟨rfl, fun i hi => headBlock_putHead _ hi⟩
  refine ⟨⟨?_, ?_, ?_, ?_⟩, ⟨?_, ?_, hC.outside, hC.n_le⟩, hhead⟩
  · rw [hhead.1]; exact hC.n_le
  · rw [hhead.1]
    intro i hi
    rw [hhead.2 i hi]
    exact hC.outside i hi
  · rw [hhead.1]
    intro i hi
    rw [hhead.2 i hi, hvis, hne _ (by omega)]
    exact hcp i hi
  · rw [hhead.1]
    intro b hb hn
    have hn' : ∀ i < s.lh.n, s.lh.block i ≠ b := fun i hi => by
      have := hn i hi
      rwa [hhead.2 i hi] at this
    rw [hvis, hne b (ne_of_logArea hb (start_logArea start)), hP.same b hb hn']
    exact disk_home hI.dur hP.head b hb
  · intro b hb
    show content (bwrite s start (putHead s.lh (content s start))) b = pending base s b
    rw [content_bwrite, if_neg (ne_of_logArea hb (start_logArea start))]
    exact hC.view b hb
  · exact clean_bwrite hC.clean _ _

theorem crash_install {pins : Nat → Nat}
    (hcur : s.cur = []) (hC : Coh start base s) (hg : s.committed = s.groups) (hH : Head start s)
    (hin : Installed base s tail) (ht : tail < s.lh.n) (hpins : ∀ b, b ≠ s.lh.block tail → pins b = s.pins b) :
    let s' : St := { bwrite (bread s (start + tail + 1)) (s.lh.block tail) (content s (start + tail + 1)) with
      pins := pins }
    Durable start s'.disk (visible base s') ∧ Coh start base s' ∧ Head start s' ∧ Installed base s' (tail + 1) := by
  intro s'
  have hlog : logArea start (start + tail + 1) := tail_logArea (lt_of_lt_of_le ht hC.n_le)
  obtain ⟨hx, hdur, hhome⟩ := durable_installStep hI.dur hH ht (content_of_clean hC.clean (.inr hlog))
  have hpv : pending base s' = visible base s' := pending_eq_visible hcur hg
  refine ⟨hdur, ⟨?_, ?_, hC.outside, hC.n_le⟩, ?_, installed_succ hin hx⟩
  · intro b hb
    show content (bwrite (bread s (start + tail + 1)) (s.lh.block tail) (content s (start + tail + 1))) b = _
    rw [content_bwrite]
    split
    · rename_i he
      rw [he, hpv]
      exact hx
    · rw [bread_content]
      exact hC.view b hb
  · intro b hb x hx'
    by_cases hbt : b = s.lh.block tail
    · subst hbt
      have hx'' : some (content s (start + tail + 1)) = some x := by
        simpa [s', bwrite] using hx'
      show x = update s.disk (s.lh.block tail) (content s (start + tail + 1)) (s.lh.block tail)
      rw [update_self]
      exact (some.inj hx'').symm
    · refine clean_bwrite (clean_bread hC.clean (start + tail + 1)) (s.lh.block tail) _ b ?_ x hx'
      show s.pins b = 0 ∨ logArea start b
      rw [← hpins b hbt]
      exact hb
  · exact hH.write hhome rfl rfl

theorem crash_recInstall (hC : CleanAll s) (hH : Head start s) (hin : Installed base s tail) (ht : tail < s.lh.n) :
    let s' := bwrite (bread s (start + tail + 1)) (s.lh.block tail) (content s (start + tail + 1))
    Durable start s'.disk (visible base s') ∧ CleanAll s' ∧ Head start s' ∧ Installed base s' (tail + 1) := by
  intro s'
  obtain ⟨hx, hdur, hhome⟩ := durable_installStep hI.dur hH ht (content_of_cleanAll hC _)
  exact ⟨hdur, cleanAll_bwrite (cleanAll_bread hC _) _ _, hH.write hhome rfl rfl, installed_succ hin hx⟩

theorem crash_advance (hnp : s.panic = none) (h : advance start s = some s') : Crash start base s' := by
  have hD := disc_advance hI.disc h
  have hph := hI.phase hnp
  have hcur : s.pc ≠ .idle → s.cur = [] := fun hne => by
    cases hb : s.pc.booted with
    | true => exact (hI.disc.quiet ((hI.disc.comm hb).2 hne)).2
    | false => exact (hI.disc.unbooted hb).2.2
  unfold advance at h
  split at h <;> rename_i hpc
  · cases h
  all_goals rw [hpc] at hph
  all_goals have hnil := hcur (by rw [hpc]; simp)
  · -- commit
    obtain ⟨hC, hP⟩ := hph
    split at h <;> cases h
    · exact ⟨hD, hI.dur, fun _ => ⟨⟨hC.view, hC.clean, hC.outside, hC.n_le⟩, ⟨hP.head, hP.same, hP.pinned⟩,
        Nat.zero_le _, fun i hi => by omega⟩⟩
    have hsame : ∀ b, ¬ logArea start b → visible base s b = replayGroups base s.hist s.groups b := fun b hb => by
      rw [← pending_of_cur_nil hnil]
      exact (hP.same b hb (fun i hi => by omega)).symm
    exact ⟨hD, durable_congr hI.dur hsame, fun _ => ⟨⟨hC.view, hC.clean, hC.outside, hC.n_le⟩, rfl,
      show s.lh.n = 0 by omega, hP.head⟩⟩
  · -- writeLog
    rename_i tail
    obtain ⟨hC, hP, hle, hcp⟩ := hph
    split at h
    · rename_i ht
      obtain ⟨h1, h2, h3, h4⟩ := crash_writeLog hI hC hP hcp ht
      cases h
      refine ⟨hD, ?_, fun _ => ?_⟩
      · simp only [bread_content]; exact h1
      · simp only [bread_content]
        exact ⟨⟨h2.view, h2.clean, h2.outside, h2.n_le⟩, ⟨h3.head, h3.same, h3.pinned⟩, ht, h4⟩
    · cases h
      have htn : tail = s.lh.n := by omega
      subst htn
      exact ⟨hD, hI.dur, fun _ => ⟨⟨hC.view, hC.clean, hC.outside, hC.n_le⟩, ⟨hP.head, hP.same, hP.pinned⟩, hcp⟩⟩
  · -- writeHead
    obtain ⟨hC, hP, hcp⟩ := hph
    obtain ⟨h1, h2, h3⟩ := crash_writeHead hI hnil hC hP hcp
    cases h
    exact ⟨hD, h1, fun _ => ⟨h2, rfl, Nat.zero_le _, h3, fun i hi => by omega⟩⟩
  · -- install
    rename_i tail
    obtain ⟨hC, hg, hle, hH, hin⟩ := hph
    split at h
    · rename_i ht
      obtain ⟨h1, h2, h3, h4⟩ := crash_install hI hnil hC hg hH hin ht
        (fun b hb => update_of_ne hb (s.pins (s.lh.block tail) - 1) s.pins)
      cases h
      refine ⟨hD, ?_, fun _ => ?_⟩
      · simp only [bread_content]; exact h1
      · simp only [bread_content]
        exact ⟨⟨h2.view, h2.clean, h2.outside, h2.n_le⟩, hg, ht, h3, h4⟩
    · cases h
      have htn : tail = s.lh.n := by omega
      subst htn
      have hall : AllHome start base s := allHome_of_installed hI.dur hH hin
      exact ⟨hD, hI.dur, fun _ => ⟨⟨hC.view, hC.clean, fun i hi => absurd hi (Nat.not_lt_zero i), Nat.zero_le _⟩, hg, rfl,
        hall⟩⟩
  · -- eraseHead
    obtain ⟨hC, hg, hn, hall⟩ := hph
    cases h
    refine ⟨hD, durable_erase hn hall, fun _ => ⟨⟨?_, clean_bwrite hC.clean _ _, hC.outside, hC.n_le⟩, hg, hn, ?_⟩⟩
    · intro b hb
      show content (bwrite s start (putHead s.lh (content s start))) b = pending base s b
      rw [content_bwrite, if_neg (ne_of_logArea hb (start_logArea start))]
      exact hC.view b hb
    · show headN (update s.disk start (putHead s.lh (content s start)) start) = 0
      rw [update_self, headN_putHead, hn]
  · -- finish
    obtain ⟨hC, hg, hn, h0⟩ := hph
    cases h
    refine ⟨hD, hI.dur, fun _ => ⟨⟨hC.view, hC.clean, hC.outside, hC.n_le⟩, ⟨h0, fun b _ _ => ?_, ?_⟩, hg⟩⟩
    · exact congrFun (@pending_eq_visible s base hnil hg) b
    · intro i hi
      rw [show s.lh.n = 0 from hn] at hi
      omega
  · -- recRead
    obtain ⟨hC, hg⟩ := hph
    cases h
    obtain ⟨hrn, hrb⟩ := readHead_spec s.disk start s.lh
    refine ⟨hD, hI.dur, fun _ => ⟨cleanAll_bread hC start, hg, Nat.zero_le _, ?_, fun i hi => by omega⟩⟩
    rw [bread_content, content_of_cleanAll hC]
    exact ⟨hrn.symm, fun i hi => (hrb i hi).symm⟩
  · -- recInstall
    rename_i tail
    obtain ⟨hC, hg, hle, hH, hin⟩ := hph
    split at h
    · rename_i ht
      obtain ⟨h1, h2, h3, h4⟩ := crash_recInstall hI hC hH hin ht
      cases h
      refine ⟨hD, ?_, fun _ => ?_⟩
      · simp only [bread_content]; exact h1
      · simp only [bread_content]
        exact ⟨h2, hg, ht, h3, h4⟩
    · cases h
      have htn : tail = s.lh.n := by omega
      subst htn
      have hall : AllHome start base s := allHome_of_installed hI.dur hH hin
      exact ⟨hD, hI.dur, fun _ => ⟨hC, hg, rfl, hall⟩⟩
  · -- recErase
    obtain ⟨hC, hg, hn, hall⟩ := hph
    cases h
    have hclean : CleanAll (writeHead start s) := cleanAll_bwrite hC _ _
    have h0 : headN ((writeHead start s).disk start) = 0 := by
      show headN (update s.disk start (putHead s.lh (content s start)) start) = 0
      rw [update_self, headN_putHead, hn]
    have hvis : pending base s = visible base s := pending_eq_visible hnil hg
    refine ⟨hD, durable_erase hn hall, fun _ => ⟨⟨?_, fun b _ => hclean b, ?_, ?_⟩, ⟨h0, fun b _ _ => ?_, ?_⟩, hg⟩⟩
    · intro b hb
      show content (writeHead start s) b = pending base s b
      rw [content_of_cleanAll hclean, hvis]
      show update s.disk start (putHead s.lh (content s start)) b = _
      rw [update_of_ne (ne_of_logArea hb (start_logArea start))]
      exact hall b hb
    · intro i hi
      rw [show (writeHead start s).lh.n = 0 from hn] at hi
      omega
    · show s.lh.n ≤ logBlocks
      omega
    · exact congrFun hvis b
    · intro i hi
      rw [show (writeHead start s).lh.n = 0 from hn] at hi
      omega

/-! ## The run -/

/-- No logged block number lies inside the log area. -/
def Act.outside (start : Nat) : Act → Prop
  | .logWrite _ b _ => ¬ logArea start b
  | _ => True

theorem crash_step {a : Act} (ha : a.outside start) (h : step start s a = some s') : Crash start base s' := by
  have hnp : ¬ s.panic.isSome = true → s.panic = none := fun hn => by simpa using hn
  cases a with
  | crash =>
    cases h
    exact crash_crash hI
  | beginOp p =>
    simp only [step] at h
    split at h
    · cases h
    · exact crash_beginOp hI h
  | logWrite p b d =>
    simp only [step] at h
    split at h
    · cases h
    · rename_i hp
      exact crash_logWrite hI (hnp hp) ha h
  | endOp p =>
    simp only [step] at h
    split at h
    · cases h
    · rename_i hp
      exact crash_endOp hI (hnp hp) h
  | advance =>
    simp only [step] at h
    split at h
    · cases h
    · rename_i hp
      exact crash_advance hI (hnp hp) h
  | read b =>
    simp only [step] at h
    split at h
    · cases h
    · cases h
      exact crash_read hI b
  | evict b =>
    simp only [step] at h
    split at h
    · cases h
    · exact crash_evict hI h

end

/-- The header of a disk that `log.c` may have written: at most `LOGBLOCKS` distinct home blocks. -/
structure WfHead (start : Nat) (d : Nat → Block) : Prop where
  n_le : headN (d start) ≤ logBlocks
  home : ∀ i < headN (d start), ¬ logArea start (headBlock (d start) i)
  distinct : ∀ i < headN (d start), ∀ j < i, headBlock (d start) j ≠ headBlock (d start) i

/-- What the header and the log blocks of a disk say about its home locations. -/
def home (start : Nat) (d : Nat → Block) : Nat → Block :=
  fun b => match (List.range (headN (d start))).find? (fun i => headBlock (d start) i == b) with
    | some i => d (start + i + 1)
    | none => d b

theorem durable_home (hw : WfHead start d) : Durable start d (home start d) where
  n_le := hw.n_le
  home := hw.home
  copy := by
    intro i hi
    unfold home
    split
    · rename_i j hj
      have hji := find?_some hj
      have hjn := mem_of_find?_eq_some hj
      simp only [beq_iff_eq] at hji
      rw [mem_range] at hjn
      -- the entries are distinct, so the one found is `i`
      have : i = j := by
        rcases lt_trichotomy i j with hlt | heq | hgt
        · exact absurd hji.symm (hw.distinct j hjn i hlt)
        · exact heq
        · exact absurd hji (hw.distinct i hi j hgt)
      rw [this]
    · rename_i hnone
      have := find?_eq_none.1 hnone i (mem_range.2 hi)
      simp at this
  rest := by
    intro b _ hn
    unfold home
    split
    · rename_i j hj
      have hji := find?_some hj
      have hjn := mem_of_find?_eq_some hj
      simp only [beq_iff_eq] at hji
      exact absurd hji (hn j (mem_range.1 hjn))
    · rfl

theorem crash_boot (hw : WfHead start d) : Crash start (home start d) (boot d) where
  disc := disc_boot d
  dur := durable_home hw
  phase := fun _ => ⟨fun _ _ hx => by simp [boot] at hx, rfl⟩

theorem durable_of_run {acts : List Act} (hw : WfHead start d)
    (hout : ∀ a ∈ acts, a.outside start) (hr : Run.run (step start) (boot d) acts = some s) :
    Crash start (home start d) s :=
  Run.inv_of_run (fun _ _ _ hI ha h => crash_step hI ha h) acts _ s (crash_boot hw) hout hr

/-- **Crash atomicity of the redo log.**  Start the machine on a disk whose log header is well formed and let any run of
operations, commits, evictions, crashes and recoveries take it to `s`. The groups past their header write are the first
of the groups handed to `commit`, every group consists of ended operations, and whatever recoveries are begun and cut
short after `s`, a recovery that runs to its end leaves at every home location the state these groups produce. -/
theorem crash_atomicity (start : Nat) (d : Nat → Block) (acts : List Act) (s : St) (cuts : List Nat)
    (hw : WfHead start d) (hout : ∀ a ∈ acts, a.outside start)
    (hr : Run.run (step start) (boot d) acts = some s) :
    s.committed <+: s.groups ∧ (∀ g ∈ s.groups, ∀ o ∈ g, o ∈ s.done) ∧
    ∀ b, ¬ logArea start b →
      recoverFromLog start (cuts.foldl (recoverCut start) s.disk) b =
        replayGroups (home start d) s.hist s.committed b := by
  have hI := durable_of_run hw hout hr
  refine ⟨hI.disc.pre, hI.disc.grpDone, fun b hb => ?_⟩
  have hcuts : ∀ (cuts : List Nat) (x : Nat → Block), Durable start x (visible (home start d) s) →
      Durable start (cuts.foldl (recoverCut start) x) (visible (home start d) s) := by
    intro cuts
    induction cuts with
    | nil => exact fun x hx => hx
    | cons k cuts ih => exact fun x hx => ih _ (durable_recoverCut hx k)
  exact recoverFromLog_home (hcuts cuts s.disk hI.dur) b hb

/-- The log is recovered, two operations share a group, and the machine crashes after the first home write. -/
def cutCommit : List Act :=
  [.advance, .advance, .advance, .beginOp 0, .beginOp 1, .logWrite 0 50 (fun _ => 7), .logWrite 1 51 (fun _ => 8),
   .endOp 0, .endOp 1, .advance, .advance, .advance, .advance, .advance, .advance, .crash]

theorem crash_atomicity_cutCommit : ∃ s, Run.run (step 2) (boot (fun _ _ => 0)) cutCommit = some s ∧
    s.committed <+: s.groups ∧ (∀ g ∈ s.groups, ∀ o ∈ g, o ∈ s.done) ∧
    ∀ b, ¬ logArea 2 b → recoverFromLog 2 ([1, 0].foldl (recoverCut 2) s.disk) b =
      replayGroups (home 2 (fun _ _ => 0)) s.hist s.committed b := by
  obtain ⟨s, hs⟩ := isSome_iff_exists.1
    (show (Run.run (step 2) (boot (fun _ _ => 0)) cutCommit).isSome = true by decide +kernel)
  refine ⟨s, hs, crash_atomicity 2 _ cutCommit s [1, 0] ?_ ?_ hs⟩
  · constructor <;> simp [headN]
  · simp [cutCommit, Act.outside, logArea, logBlocks, maxOpBlocks]

end Xv6.Log
