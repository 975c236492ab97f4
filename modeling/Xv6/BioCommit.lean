import Xv6.BioCoherent
/-!
# BioCommit — whole commits, and runs of the buffer cache

The loops of `write_log` and `install_trans` are inductions over their turns; a commit leaves every block on the disk as
it was last logged and nothing pinned. It needs one buffer beside the pinned ones, so it runs to its end exactly if the
transaction is smaller than the cache (`commit_completes`). Over runs of complete calls the cache always returns what was last
logged
or written.
-/
namespace Xv6.Bio

open Function List Option Wp
open Log (Block LogHeader)
variable {F : Halt → Prop} {b start : Nat}

def logged (lh : LogHeader) : List Nat := (List.range lh.n).map lh.block

theorem mem_logged {lh : LogHeader} : b ∈ logged lh ↔ ∃ t < lh.n, lh.block t = b := by simp [logged]

theorem length_logged (lh : LogHeader) : (logged lh).length = lh.n := by simp [logged]

theorem logged_absorb (lh : LogHeader) (b : Nat) :
    logged (Log.absorb lh b) = if Log.findBlock lh b = lh.n then logged lh ++ [b] else logged lh := by
  split
  · rename_i hf
    simp only [logged, Log.absorb, hf, if_true, range_succ, map_append, map_cons, update_self]
    congr 1
    apply map_congr_left
    intro t ht
    exact update_of_ne (by have := mem_range.1 ht; omega) _ _
  · rename_i hf
    have hupd : update lh.block (Log.findBlock lh b) b = lh.block := by
      rw [update_eq_self_iff]
      exact (Log.findBlock_lt hf).2.symm
    simp [Log.absorb, if_neg hf, hupd]

theorem findBlock_iff (lh : LogHeader) (b : Nat) : Log.findBlock lh b = lh.n ↔ b ∉ logged lh := by
  rw [Log.findBlock_eq, mem_logged]
  simp

/-! ## The loops -/

structure Sweep (s s' : St) : Prop where
  locks : ∀ i, (s'.buf i).lock = (s.buf i).lock
  frame : Frame s s'

variable {s s' : St} {P P' : List Nat} {a : Act}

theorem Turn.sweep {d : Block} (h : Turn s b d s') : Sweep s s' := ⟨h.locks, h.frame⟩

theorem Sweep.trans {t u : St} (h : Sweep s t) (h' : Sweep t u) : Sweep s u :=
  ⟨fun i => (h'.locks i).trans (h.locks i), h.frame.trans h'.frame⟩

theorem Room.sweep (hr : Room F P s) (ht : Sweep s s') (hP : P'.length ≤ P.length) : Room F P' s' :=
  hr.imp_right (fun h => ⟨fun i => (ht.locks i).trans (h.1 i), by omega⟩)

/-- No logged block is the log block its copy goes to, unless the caller accepts that a commit sleeps. -/
def Apart (F : Halt → Prop) (s : St) : Prop :=
  F .sleeps ∧ F .noBuffers ∨ ∀ t < s.lh.n, s.lh.block t ≠ s.start + t + 1

theorem Apart.frame (h : Apart F s) (hf : Frame s s') : Apart F s' := by
  unfold Apart
  rw [hf.lh, hf.start]
  exact h

/-- The logged blocks lie outside the log. -/
def Home (s : St) : Prop := s.lh.n ≤ logBlocks ∧ ∀ t < s.lh.n, ¬ Log.logArea s.start (s.lh.block t)

theorem Home.ne (h : Home s) {t u : Nat} (ht : t < s.lh.n) (hu : u < s.lh.n) : s.lh.block t ≠ s.start + u + 1 := by
  intro e
  have := h.1
  exact h.2 t ht ⟨by omega, by omega⟩

theorem Home.frame (h : Home s) (hf : Frame s s') : Home s' := by
  unfold Home
  rw [hf.lh, hf.start]
  exact h

theorem writeLog_loop (p : Nat) : ∀ (m k : Nat) (s : St), k + m = s.lh.n → Inv P s →
    Room F P s → Apart F s → (∀ t < s.lh.n, s.lh.block t ∈ P) →
    wp ((List.range' k m).forM (writeLogAt p)) (fun _ s' => Inv P s' ∧ Sweep s s' ∧
      (∀ t, k ≤ t → t < s.lh.n → s.lh.block t ≠ s.start + t + 1 ∧ (nbuf ≤ P.length → s.start + t + 1 ∈ P)) ∧
      (∀ b, (∀ t, k ≤ t → t < s.lh.n → b ≠ s.start + t + 1) → s'.flat b = s.flat b) ∧
      (Home s → ∀ t, k ≤ t → t < s.lh.n → s'.flat (s.start + t + 1) = s.flat (s.lh.block t))) F s
  | 0, k, s, hk, h, _, _, _ => by
    refine wp_pure.2 ⟨h, ⟨fun _ => rfl, rfl, rfl, rfl, rfl⟩, fun t ht ht' => ?_, fun _ _ => rfl, fun _ t ht ht' => ?_⟩
    all_goals omega
  | m + 1, k, s, hk, h, hr, ha, hP => by
    rw [range'_succ]
    refine wp_bind.2 (wp_use (writeLogAt_spec p k h hr (hP k (by omega)) (ha.imp_right (fun ha => ha k (by omega))))
      (fun _ s₁ ⟨h₁, ht₁, hpass⟩ => ?_))
    have hlh := ht₁.frame.lh
    have hst := ht₁.frame.start
    refine wp_use (writeLog_loop p m (k + 1) s₁ (by rw [hlh]; omega) h₁ (hr.turn ht₁ le_rfl) (ha.frame ht₁.frame)
      (by rw [hlh]; exact hP)) (fun _ s₂ ⟨h₂, hs₂, hrest, hout, hin⟩ => ?_)
    rw [hlh, hst] at hrest hout hin
    refine ⟨h₂, ht₁.sweep.trans hs₂, fun t ht ht' => ?_, fun b hb => ?_, fun hh t ht ht' => ?_⟩
    · rcases eq_or_lt_of_le ht with rfl | ht
      · exact hpass
      · exact hrest t ht ht'
    · rw [hout b (fun t ht ht' => hb t (by omega) ht'), ht₁.flat, update_of_ne (hb k le_rfl (by omega))]
    · by_cases htk : t = k
      · subst htk
        rw [hout _ (fun u hu _ => by omega), ht₁.flat, update_self]
      · rw [hin (hh.frame ht₁.frame) t (by omega) ht', ht₁.flat, update_of_ne (hh.ne ht' (by omega))]

theorem install_loop (p : Nat) : ∀ (m k : Nat) (s : St), k + m = s.lh.n →
    Inv ((List.range' k m).map s.lh.block) s → Room F ((List.range' k m).map s.lh.block) s → Apart F s →
    wp ((List.range' k m).forM (installAt p)) (fun _ s' => Inv [] s' ∧ Sweep s s' ∧
      (Home s → (∀ t, k ≤ t → t < s.lh.n → s.flat (s.start + t + 1) = s.flat (s.lh.block t)) → s'.flat = s.flat)) F s
  | 0, k, s, _, h, _, _ => wp_pure.2 ⟨h, ⟨fun _ => rfl, rfl, rfl, rfl, rfl⟩, fun _ _ => rfl⟩
  | m + 1, k, s, hk, h, hr, ha => by
    refine wp_bind.2 (wp_use (installAt_spec p k h hr (ha.imp_right (fun ha => ha k (by omega))))
      (fun _ s₁ ⟨h₁, ht₁⟩ => ?_))
    have hlh := ht₁.frame.lh
    have hst := ht₁.frame.start
    rw [← hlh] at h₁
    refine wp_use (install_loop p m (k + 1) s₁ (by rw [hlh]; omega) h₁ (hr.turn ht₁ (by simp)) (ha.frame ht₁.frame))
      (fun _ s₂ ⟨h₂, hs₂, hflat⟩ => ⟨h₂, ht₁.sweep.trans hs₂, fun hh hcopy => ?_⟩)
    -- the turn writes back what is there already
    have hsame : s₁.flat = s.flat := by
      rw [ht₁.flat, hcopy k le_rfl (by omega), update_eq_self]
    rw [hlh, hst, hsame] at hflat
    exact hflat (hh.frame ht₁.frame) (fun t ht ht' => hcopy t (by omega) ht')

theorem Inv.clear (h : Inv P s) (lh : LogHeader) : Inv P { s with lh := lh } :=
  ⟨h.ring, h.uniq, h.refs, h.pins, h.pinned, h.locked, h.valid, h.disk, h.nodup, h.kept⟩

/-- What a commit leaves: nothing logged, the locks as they were, and every block outside the log on the disk as it was
last logged. -/
structure Committed (s s' : St) : Prop where
  fits : s.lh.n < nbuf ∧ ∀ t < s.lh.n, s.lh.block t ≠ s.start + t + 1
  empty : s'.lh.n = 0
  locks : ∀ i, (s'.buf i).lock = (s.buf i).lock
  start : s'.start = s.start
  outstanding : s'.outstanding = s.outstanding
  committing : s'.committing = s.committing
  flat : Home s → ∀ b, ¬ Log.logArea s.start b → s'.flat b = s.flat b

-- the header block and the log blocks of the copies are one more than the transaction has pinned
theorem log_not_pinned (hst : s.start ∈ logged s.lh) (hlog : ∀ t < s.lh.n, s.start + t + 1 ∈ logged s.lh) : False := by
  have hsub : List.range' s.start (s.lh.n + 1) ⊆ logged s.lh := by
    intro b hb
    obtain ⟨hlo, hhi⟩ := mem_range'_1.1 hb
    rcases eq_or_lt_of_le hlo with rfl | hlt
    · exact hst
    · have := hlog (b - s.start - 1) (by omega)
      rwa [show s.start + (b - s.start - 1) + 1 = b by omega] at this
  have hlen := (List.subperm_of_subset nodup_range' hsub).length_le
  rw [length_range', length_logged] at hlen
  omega

theorem commit_spec (p : Nat) (h : Inv (logged s.lh) s) (hr : Room F (logged s.lh) s)
    (ha : Apart F s) : wp (commit p) (fun _ s' => Inv (logged s'.lh) s' ∧ Committed s s') F s := by
  unfold commit
  rw [wp_bind, wp_get]
  refine wp_ite (fun hn => ?_) (fun hn => ?_)
  swap
  · refine wp_pure.2 ⟨h, ⟨?_, fun t ht => ?_⟩, by omega, fun _ => rfl, rfl, rfl, rfl, fun _ _ _ => rfl⟩
    · rw [Nat.eq_zero_of_not_pos hn]
      decide
    · omega
  unfold commitAll writeLog installTrans clearLog
  rw [wp_bind, wp_bind, wp_get, range_eq_range']
  refine wp_use (writeLog_loop p s.lh.n 0 s (by omega) h hr ha (fun t ht => mem_logged.2 ⟨t, ht, rfl⟩))
    (fun _ s₁ ⟨h₁, hs₁, hpass, hout, hin⟩ => ?_)
  refine wp_then (writeHead_spec p h₁ (hr.sweep hs₁ le_rfl)) (fun _ s₂ ⟨h₂, ht₂, hhead⟩ => ?_)
  have hfits : s.lh.n < nbuf ∧ ∀ t < s.lh.n, s.lh.block t ≠ s.start + t + 1 := by
    refine ⟨?_, fun t ht => (hpass t (Nat.zero_le t) ht).1⟩
    by_contra hge
    rw [not_lt, ← length_logged] at hge
    rw [hs₁.frame.start] at hhead
    exact log_not_pinned (hhead hge) (fun t ht => (hpass t (Nat.zero_le t) ht).2 hge)
  have hs₂ := hs₁.trans ht₂.sweep
  have hlh := hs₂.frame.lh
  have hP : logged s.lh = (range' 0 s₂.lh.n).map s₂.lh.block := by
    rw [hlh, logged, range_eq_range']
  have hr₂ := hr.sweep hs₂ le_rfl
  rw [hP] at h₂ hr₂
  rw [wp_bind, wp_bind, wp_get, range_eq_range']
  refine wp_use (install_loop p s₂.lh.n 0 s₂ (by omega) h₂ hr₂ (ha.frame hs₂.frame)) (fun _ s₃ ⟨h₃, hs₃, hflat⟩ => ?_)
  have hs := hs₂.trans hs₃
  rw [wp_bind, wp_modify]
  have hr₃ : Room F [] { s₃ with lh := { s₃.lh with n := 0 } } :=
    (hr.sweep hs (Nat.zero_le _)).imp_right (fun hi => ⟨hi.1, hi.2⟩)
  refine wp_use (writeHead_spec p (h₃.clear _) hr₃) (fun _ s₄ ⟨h₄, ht₄, _⟩ => ?_)
  have hn₄ : s₄.lh.n = 0 := by rw [ht₄.frame.lh]
  have hempty : logged s₄.lh = [] := by simp [logged, hn₄]
  refine ⟨hempty ▸ h₄, hfits, hn₄, fun i => (ht₄.locks i).trans (hs.locks i), ht₄.frame.start.trans hs.frame.start,
    ht₄.frame.outstanding.trans hs.frame.outstanding, ht₄.frame.committing.trans hs.frame.committing, fun hh b hb => ?_⟩
  -- the copies in the log survive the header write, so installing them changes nothing
  have hst₁ := hs₁.frame.start
  have hst₂ := hs₂.frame.start
  have hcopy : ∀ t, 0 ≤ t → t < s₂.lh.n → s₂.flat (s₂.start + t + 1) = s₂.flat (s₂.lh.block t) := by
    intro t _ ht
    rw [hlh] at ht ⊢
    rw [hst₂, ht₂.flat, hst₁, update_of_ne (by omega), hin hh t (Nat.zero_le _) ht, update_of_ne,
      hout _ (fun u _ => hh.ne ht)]
    intro e
    exact hh.2 t ht ⟨by omega, by omega⟩
  have hb' : ∀ u, s.start ≤ u → u ≤ s.start + logBlocks → b ≠ u := fun u hu hu' e => hb ⟨by omega, by omega⟩
  have hn' := hh.1
  rw [ht₄.flat, update_of_ne]
  · rw [hflat (hh.frame hs₂.frame) hcopy, ht₂.flat, hst₁, update_of_ne (hb' _ le_rfl (by omega)),
      hout b (fun t _ ht => hb' _ (by omega) (by omega))]
  · rw [hs.frame.start]
    exact hb' _ le_rfl (by omega)

/-! ## `log_write` -/

theorem modifyLogged_spec {i : Bno} (d : Block) (h : Inv (logged s.lh) s)
    (hl : (s.buf i).lock.isSome) (hbig : s.lh.n ≥ logBlocks → F .tooBig) (hout : s.outstanding < 1 → F .outsideTrans) :
    wp (modifyLogged i d) (fun _ s' => Inv (logged s'.lh) s' ∧ s'.lh = Log.absorb s.lh (s.buf i).blockno ∧
      s.lh.n < logBlocks ∧ s'.committing = s.committing) F s := by
  have hd : (s.buf i).dev = rootDev := h.locked i hl
  have hpins := h.pins i
  have hrefs := h.refs i
  have hv := (h.valid i hd).1
  rw [hd] at hpins
  simp only [true_and] at hpins
  unfold modifyLogged setData logWrite setBuf
  simp only [wp_bind, wp_get, wp_modify, update_self]
  refine wp_ite hbig (fun hb => wp_ite hout (fun _ => ?_))
  rw [wp_bind, wp_set]
  unfold pinNew bpin setBuf
  by_cases hf : Log.findBlock s.lh (s.buf i).blockno = s.lh.n
  -- a block new to the transaction
  · have hnew := (findBlock_iff s.lh _).1 hf
    rw [if_neg hnew] at hpins
    simp only [beq_iff_eq, hf, if_true, wp_bind, wp_get, wp_modify, update_idem]
    refine ⟨?_, trivial, by omega, trivial⟩
    rw [logged_absorb, if_pos hf]
    refine h.put i (s.buf i).blockno h.ring (fun j hj => update_of_ne hj _ _)
      (fun j hj => update_of_ne hj _ _) ?_ ?_ ?_ (h.alone hd) (fun _ _ => rfl) ?_ ?_ ?_ ?_ ?_ h.kept
    · exact fun b hb => ⟨by simp [hb], update_of_ne hb _ _, rfl⟩
    · simpa using hd
    · simp
    · simp [hrefs, hl]
    · simp [hpins]
    · simpa using hv
    · intro hP
      simp at hP
    · exact nodup_append.2 ⟨h.nodup, by simp, by
        intro a ha b hb e
        rw [mem_singleton] at hb
        exact hnew (hb ▸ e ▸ ha)⟩
  -- absorbed
  · have hold := not_not.1 (mt (findBlock_iff s.lh _).2 hf)
    simp only [beq_iff_eq, hf, if_false, wp_pure]
    refine ⟨?_, trivial, by omega, trivial⟩
    rw [logged_absorb, if_neg hf]
    refine h.put i (s.buf i).blockno h.ring (fun j hj => update_of_ne hj _ _) (fun _ _ => rfl) ?_ ?_ ?_
      (h.alone hd) (fun _ _ => rfl) ?_ ?_ ?_ ?_ h.nodup h.kept
    · exact fun b hb => ⟨Iff.rfl, update_of_ne hb _ _, rfl⟩
    · simpa using hd
    · simp
    · simp [hrefs]
    · simp [hpins]
    · simpa using hv
    · exact fun hP => absurd hold hP

/-! ## Runs -/

structure Good (s : St) : Prop where
  inv : Inv (logged s.lh) s
  small : s.lh.n ≤ logBlocks
  idle : s.committing = false

/-- The reasons for which a call of a run may not return. -/
def May (e : Halt) : Prop := e = .sleeps ∨ e = .noBuffers ∨ e = .tooBig ∨ e = .outsideTrans

theorem Good.frame (h : Good s) (hi : Inv (logged s.lh) s') (hf : Frame s s') : Good s' :=
  ⟨by rw [hf.lh]; exact hi, by rw [hf.lh]; exact h.small, hf.committing.trans h.idle⟩

theorem good_lastOp (p : Nat) (h : Good s) : wp (lastOp p) (fun _ s' => Good s') May s := by
  have hF : May .sleeps ∧ May .noBuffers := ⟨.inl rfl, .inr (.inl rfl)⟩
  unfold lastOp
  rw [wp_bind, wp_modify]
  refine wp_then (commit_spec p ⟨h.inv.ring, h.inv.uniq, h.inv.refs, h.inv.pins, h.inv.pinned, h.inv.locked, h.inv.valid,
    h.inv.disk, h.inv.nodup, h.inv.kept⟩ (.inl hF) (.inl hF)) (fun _ s' ⟨hi, hc⟩ => wp_modify.2 ?_)
  exact ⟨⟨hi.ring, hi.uniq, hi.refs, hi.pins, hi.pinned, hi.locked, hi.valid, hi.disk, hi.nodup, hi.kept⟩,
    hc.empty.le.trans (Nat.zero_le _), rfl⟩

/-- **The step lemma**: a complete call keeps the cache, and a call that does not return is asleep, out of buffers or
stopped by `log_write`. -/
theorem good_program {m : BM Unit} (h : Good s) (hm : program s a = some m) : wp m (fun _ s' => Good s') May s := by
  have hi := h.inv
  cases a with
  | beginOp =>
    obtain rfl : beginOp = m := by simpa [program] using hm
    unfold beginOp
    refine wp_ite (fun _ => .inl rfl) (fun hc => wp_ite (fun _ => .inl rfl) (fun _ => ?_))
    exact ⟨⟨hi.ring, hi.uniq, hi.refs, hi.pins, hi.pinned, hi.locked, hi.valid, hi.disk, hi.nodup, hi.kept⟩, h.small,
      h.idle⟩
  | bread p b =>
    obtain rfl : discard (bread p rootDev b) = m := by simpa [program] using hm
    refine wp_map.2 (wp_use (bread_spec p b hi (.inl (.inl rfl)) (.inl (.inr (.inl rfl)))) ?_)
    rintro _ s' ⟨hi', ht⟩
    exact h.frame hi' ht.frame
  | logWrite p i d =>
    simp only [program] at hm
    split at hm
    · rename_i hl
      obtain rfl := some.inj hm
      refine wp_use (modifyLogged_spec d hi (by simp [hl]) (fun _ => .inr (.inr (.inl rfl)))
        (fun _ => .inr (.inr (.inr rfl)))) ?_
      rintro _ s' ⟨hi', hlh, hn, hc⟩
      refine ⟨hi', ?_, hc.trans h.idle⟩
      rw [hlh, Log.absorb]
      dsimp only
      split <;> omega
    · cases hm
  | brelse p i =>
    simp only [program] at hm
    split at hm
    · rename_i hl
      obtain rfl := some.inj hm
      refine wp_use (brelse_spec hi hl) ?_
      rintro _ s' ⟨hi', hg⟩
      exact h.frame hi' hg.frame
    · cases hm
  | endOp p =>
    simp only [program] at hm
    split at hm
    · obtain rfl := some.inj hm
      have h' : Good { s with outstanding := s.outstanding - 1 } :=
        ⟨⟨hi.ring, hi.uniq, hi.refs, hi.pins, hi.pinned, hi.locked, hi.valid, hi.disk, hi.nodup, hi.kept⟩, h.small, h.idle⟩
      unfold endOp
      refine wp_ite (fun hc => ?_) (fun _ => wp_ite (fun _ => good_lastOp p h') (fun _ => h'))
      rw [h'.idle] at hc
      cases hc
    · cases hm

theorem good_step (h : Good s) (hs : step s a = some s') : Good s' := by
  unfold step at hs
  split at hs
  · cases hs
  rename_i m hm
  split at hs
  · rename_i u t hrun
    obtain rfl := some.inj hs
    exact wp_of_ok (good_program h hm) hrun
  · cases hs

theorem ring_binit : ∃ l, Ring.IsRing binit l ∧ ∀ i, i ∈ l := by
  have key : ∀ (l r : List Bno) (g : Ring.Links Bno), Ring.IsRing g r → (∀ i ∈ l, i ∉ r) → l.Nodup →
      Ring.IsRing (l.foldl Ring.Links.insert g) (l.reverse ++ r) := by
    intro l
    induction l with
    | nil => exact fun r g hg _ _ => hg
    | cons i l ih =>
      intro r g hg hd hnd
      obtain ⟨hi, hnd⟩ := nodup_cons.1 hnd
      rw [foldl_cons, reverse_cons, append_assoc]
      refine ih (i :: r) _ (hg.insert (hd i mem_cons_self)) (fun j hj => ?_) hnd
      rw [mem_cons, not_or]
      exact ⟨fun e => hi (e ▸ hj), hd j (mem_cons_of_mem _ hj)⟩
  refine ⟨_, key _ [] _ Ring.isRing_empty (by simp) (nodup_finRange nbuf), fun i => ?_⟩
  simp

theorem good_boot (start : Nat) (disk : Nat → Block) : Good (boot start disk) where
  inv := {
    ring := ring_binit
    uniq := fun i j hi _ _ => by simp [boot, rootDev] at hi
    refs := fun i => by simp [boot]
    pins := fun i => by simp [boot, logged]
    pinned := fun b hb => by simp [boot, logged] at hb
    locked := fun i hi => by simp [boot] at hi
    valid := fun i hi => by simp [boot, rootDev] at hi
    disk := fun _ _ => rfl
    nodup := by simp [boot, logged]
    kept := rfl }
  small := Nat.zero_le _
  idle := rfl

theorem good_run {disk : Nat → Block} (as : List Act) : Run.allStates step Good (boot start disk) as :=
  Run.allStates_of_allSteps (fun _ _ _ h _ => good_step h) as _ (good_boot start disk) (Run.allSteps_true as _)

/-- What a process sees of the cache in a state, and how the list of buffers stands. -/
structure Coherent (s : St) : Prop where
  /-- `bread` returns the content last logged or written, or sleeps, or finds no buffer. -/
  fresh : ∀ p b, wp (bread p rootDev b)
    (fun i s' => (s'.buf i).dev = rootDev ∧ (s'.buf i).blockno = b ∧ (s'.buf i).data = s.flat b)
    (fun e => e = .sleeps ∧ (∃ i, (s.buf i).blockno = b ∧ (s.buf i).lock.isSome) ∨
      e = .noBuffers ∧ ∀ i, 0 < (s.buf i).refcnt) s
  uniq : ∀ i j, (s.buf i).dev = rootDev → (s.buf j).dev = rootDev → (s.buf i).blockno = (s.buf j).blockno → i = j
  /-- The count is the holder's reference and the log's pins, and no such buffer was ever recycled. -/
  refs : ∀ i, (s.buf i).refcnt = s.pins i + if (s.buf i).lock.isSome then 1 else 0
  kept : s.stolen = false
  /-- A commit changes no content outside the log and leaves it on the disk. -/
  installed : ∀ p, wp (commit p) (fun _ s' => Home s → ∀ b, ¬ Log.logArea s.start b →
    s'.flat b = s.flat b ∧ s'.disk b = s.flat b) (fun e => e = .sleeps ∨ e = .noBuffers) s
  /-- `next` leads from the head through every buffer once and back, `prev` the other way round. -/
  ring : ∃ l : List Bno, l.Nodup ∧ (∀ i, i ∈ l) ∧ Ring.Seg s.links none l none

theorem Good.coherent (h : Good s) : Coherent s where
  fresh := by
    intro p b
    have hi := h.inv
    refine wp_use (bread_spec p b hi ?_ ?_) (fun i s' ⟨_, ht⟩ => ⟨ht.dev, ht.blockno, ht.data⟩)
    · by_cases hl : ∃ i, (s.buf i).blockno = b ∧ (s.buf i).lock.isSome
      · exact .inl (.inl ⟨rfl, hl⟩)
      · exact .inr (fun i _ hb => by simpa using fun hs => hl ⟨i, hb, hs⟩)
    · by_cases hz : ∃ i, (s.buf i).refcnt = 0
      · exact .inr (.inl hz)
      · refine .inl (.inr ⟨rfl, fun i => ?_⟩)
        have hne : (s.buf i).refcnt ≠ 0 := fun e => hz ⟨i, e⟩
        have := hi.refs i
        split at this <;> omega
  uniq := h.inv.uniq
  refs := h.inv.refs
  kept := h.inv.kept
  installed := by
    intro p
    refine wp_use (commit_spec p h.inv (.inl ⟨.inl rfl, .inr rfl⟩) (.inl ⟨.inl rfl, .inr rfl⟩))
      (fun _ s' ⟨hi, hc⟩ hh b hb => ?_)
    have hempty : b ∉ logged s'.lh := by simp [logged, hc.empty]
    exact ⟨hc.flat hh b hb, (hi.disk b hempty).trans (hc.flat hh b hb)⟩
  ring := by
    obtain ⟨l, hl, hall⟩ := h.inv.ring
    exact ⟨l, hl.nodup, hall, hl.seg⟩

/-- **The buffer cache is coherent in every run** of complete calls on any blocks. -/
theorem cache_coherent (start : Nat) (disk : Nat → Block) (as : List Act) :
    Run.allStates step Coherent (boot start disk) as :=
  Run.allStates_mono (fun _ h => h.coherent) as _ (good_run as)

/-! ## Buffers for a commit -/

/-- **A commit runs to its end exactly if the transaction is smaller than the cache**: take any run to a state in which no
buffer is locked; `commit` returns with the log empty if fewer than `NBUF` blocks are logged and none of them is the log
block of its own copy, and otherwise it panics or sleeps. -/
theorem commit_completes (start : Nat) (disk : Nat → Block) (as : List Act) (s : St) (p : Nat)
    (hr : Run.run step (boot start disk) as = some s) (hfree : ∀ i, (s.buf i).lock = none) :
    (∃ s', (commit p).run s = .ok ((), s') ∧ s'.lh.n = 0) ↔
      s.lh.n < nbuf ∧ ∀ t < s.lh.n, s.lh.block t ≠ s.start + t + 1 := by
  have h : Good s := Run.allStates_last as _ _ (good_run as) hr
  refine ⟨fun ⟨s', hc, _⟩ => ?_, fun ⟨hn, happ⟩ => ?_⟩
  · exact (wp_of_ok (commit_spec (F := fun _ => True) p h.inv (.inl ⟨trivial, trivial⟩) (.inl ⟨trivial, trivial⟩)) hc).2.fits
  have hw := commit_spec (F := fun _ => False) p h.inv (.inr ⟨hfree, by rw [length_logged]; exact hn⟩) (.inr happ)
  cases hc : (commit p).run s with
  | error e => exact (wp_of_error hw hc).elim
  | ok r => exact ⟨r.2, rfl, (wp_of_ok hw hc).2.empty⟩

def logBlock (b : Nat) (i : Bno) : List Act := [.bread 0 b, .logWrite 0 i (fun _ => b), .brelse 0 i]

/-- Three operations log the blocks `100, …` between them, `n` in all. -/
def fillLog (n : Nat) : List Act :=
  [.beginOp, .beginOp, .beginOp] ++ ((List.finRange nbuf).take n).flatMap (fun i => logBlock (100 + i.val) i)

theorem commit_completes_small : ∃ s, Run.run step (boot 2 (fun _ _ => 0)) (fillLog 3) = some s ∧ s.lh.n = 3 ∧
    ∃ s', (commit 0).run s = .ok ((), s') ∧ s'.lh.n = 0 := by
  have hrun : (Run.run step (boot 2 (fun _ _ => 0)) (fillLog 3)).map (fun s =>
      (decide (∀ i, (s.buf i).lock = none), s.lh.n, s.start, (range 3).map s.lh.block)) =
      some (true, 3, 2, [100, 101, 102]) := by decide +kernel
  obtain ⟨s, hs, he⟩ := map_eq_some_iff.1 hrun
  simp only [Prod.mk.injEq, decide_eq_true_eq] at he
  obtain ⟨hfree, hn, hst, hb⟩ := he
  refine ⟨s, hs, hn, (commit_completes 2 _ (fillLog 3) s 0 hs hfree).2 ⟨by rw [hn]; decide, ?_⟩⟩
  intro t ht
  have h0 : s.lh.block 0 = 100 ∧ s.lh.block 1 = 101 ∧ s.lh.block 2 = 102 := by simpa [range_succ] using hb
  obtain rfl | rfl | rfl : t = 0 ∨ t = 1 ∨ t = 2 := by omega
  all_goals omega

/-- **A full transaction cannot be committed**: three operations log `LOGBLOCKS` blocks, every buffer of the cache is
pinned, and `write_log`'s first `bread` panics. -/
theorem commit_full_log : ∃ s, Run.run step (boot 2 (fun _ _ => 0)) (fillLog logBlocks) = some s ∧
    (∀ i, (s.buf i).lock = none) ∧ s.lh.n = logBlocks ∧ (logged s.lh).Nodup ∧
    (∀ t < s.lh.n, s.lh.block t ≠ s.start + t + 1) ∧ (commit 0).run s = .error .noBuffers := by
  have hrun : (Run.run step (boot 2 (fun _ _ => 0)) (fillLog logBlocks)).map (fun s =>
      (decide (∀ i, (s.buf i).lock = none), s.lh.n, decide (logged s.lh).Nodup,
        decide (∀ t < s.lh.n, s.lh.block t ≠ s.start + t + 1),
        (match (commit 0).run s with | .ok _ => none | .error e => some e))) =
      some (true, logBlocks, true, true, some .noBuffers) := by decide +kernel
  obtain ⟨s, hs, he⟩ := map_eq_some_iff.1 hrun
  simp only [Prod.mk.injEq, decide_eq_true_eq] at he
  obtain ⟨hfree, hn, hnd, happ, hc⟩ := he
  refine ⟨s, hs, hfree, hn, hnd, happ, ?_⟩
  cases hr : (commit 0).run s with
  | ok r => simp [hr] at hc
  | error e => simpa [hr] using hc

end Xv6.Bio
