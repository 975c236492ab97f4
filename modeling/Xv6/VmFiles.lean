import Xv6.VmOwn
/-!
# VmFiles — `file.c` and `pipe.c`: a pipe's page lives as long as one of its ends

The functions on open files change no process and no user memory; the page of a pipe is taken when the pipe is made and
given back when the second of its two files is closed.
-/
namespace Xv6.Vm

open Function Multiset Wp
variable {file : Fin 100 → File} {pipe : Nat → Bool × Bool}

theorem Ends.setRef (h : Ends file pipe) (f : Fin 100) {n : Nat}
    (hn : 0 < n) : Ends (update file f { file f with ref := n }) pipe := by
  have hkind : ∀ g, (update file f { file f with ref := n } g).kind = (file g).kind := by
    intro g
    by_cases e : g = f
    · subst e
      rw [update_self]
    · rw [update_of_ne e]
  refine ⟨fun g hg => ?_, fun g pi w => ?_, fun g g' pi w => ?_, fun pi w hw => ?_, h.range⟩
  · rw [hkind]
    by_cases e : g = f
    · subst e
      rw [update_self] at hg
      dsimp only at hg
      omega
    · rw [update_of_ne e] at hg
      exact h.closed g hg
  · rw [hkind]
    exact h.isOpen g pi w
  · rw [hkind, hkind]
    exact h.only g g' pi w
  · obtain ⟨g, hg⟩ := h.hasEnd pi w hw
    exact ⟨g, by rw [hkind]; exact hg⟩

variable {f g : Fin 100} {w : Bool} {pi : Nat}

theorem Ends.setOther (h : Ends file pipe) {x : File}
    (hf : ∀ pi w, (file f).kind ≠ .pipe pi w) (hx : ∀ pi w, x.kind ≠ .pipe pi w) (h0 : x.ref = 0 → x.kind = .none) :
    Ends (update file f x) pipe := by
  have hkind : ∀ g pi w, (update file f x g).kind = .pipe pi w ↔ (file g).kind = .pipe pi w := by
    intro g pi w
    by_cases e : g = f
    · subst e
      rw [update_self]
      exact iff_of_false (hx pi w) (hf pi w)
    · rw [update_of_ne e]
  refine ⟨fun g hg => ?_, fun g pi w hg => ?_, fun g g' pi w hg hg' => ?_, fun pi w hw => ?_, h.range⟩
  · by_cases e : g = f
    · subst e
      rw [update_self] at hg ⊢
      exact h0 hg
    · rw [update_of_ne e] at hg ⊢
      exact h.closed g hg
  · exact h.isOpen g pi w ((hkind g pi w).1 hg)
  · exact h.only g g' pi w ((hkind g pi w).1 hg) ((hkind g' pi w).1 hg')
  · obtain ⟨g, hg⟩ := h.hasEnd pi w hw
    exact ⟨g, (hkind g pi w).2 hg⟩

theorem endOpen_closeEnd (o : Bool × Bool) (w w' : Bool) :
    endOpen (closeEnd o w) w' = true ↔ w' ≠ w ∧ endOpen o w' = true := by
  cases w <;> cases w' <;> simp [endOpen, closeEnd]

theorem ne_of_endOpen {o : Bool × Bool} (h : endOpen o w = true) : o ≠ (false, false) := by
  rintro rfl
  cases w <;> cases h

theorem Ends.close (h : Ends file pipe) (hf : (file f).kind = .pipe pi w) :
    Ends (update file f ⟨0, .none⟩) (update pipe pi (closeEnd (pipe pi) w)) := by
  have hkind : ∀ g pi' w', (update file f ⟨0, .none⟩ g).kind = .pipe pi' w' ↔ g ≠ f ∧ (file g).kind = .pipe pi' w' := by
    intro g pi' w'
    by_cases e : g = f
    · subst e
      rw [update_self]
      exact iff_of_false nofun (fun h => h.1 rfl)
    · rw [update_of_ne e]
      exact ⟨fun h => ⟨e, h⟩, fun h => h.2⟩
  have hend : ∀ pi' w', endOpen (update pipe pi (closeEnd (pipe pi) w) pi') w' = true ↔
      (pi' = pi → w' ≠ w) ∧ endOpen (pipe pi') w' = true := by
    intro pi' w'
    by_cases e : pi' = pi
    · subst e
      rw [update_self, endOpen_closeEnd]
      simp
    · simp [e]
  refine ⟨fun g hg => ?_, fun g pi' w' hg => ?_, fun g g' pi' w' hg hg' => ?_, fun pi' w' hw => ?_, fun pi' hp => ?_⟩
  · by_cases e : g = f
    · subst e
      rw [update_self]
    · rw [update_of_ne e] at hg ⊢
      exact h.closed g hg
  · obtain ⟨hne, hg⟩ := (hkind g pi' w').1 hg
    refine (hend pi' w').2 ⟨?_, h.isOpen g pi' w' hg⟩
    rintro rfl rfl
    exact hne (h.only g f pi' w' hg hf)
  · exact h.only g g' pi' w' ((hkind ..).1 hg).2 ((hkind ..).1 hg').2
  · obtain ⟨hne, hw⟩ := (hend pi' w').1 hw
    obtain ⟨g, hg⟩ := h.hasEnd pi' w' hw
    refine ⟨g, (hkind g pi' w').2 ⟨?_, hg⟩⟩
    rintro rfl
    rw [hf] at hg
    cases hg
    exact hne rfl rfl
  · by_cases e : pi' = pi
    · subst e
      exact h.range pi' (ne_of_endOpen (h.isOpen f pi' w hf))
    · rw [update_of_ne e] at hp
      exact h.range pi' hp

theorem Ends.openPipe (h : Ends file pipe)
    (hfg : f ≠ g) (hf : (file f).kind = .none) (hg : (file g).kind = .none) (hrf : (file f).ref ≠ 0)
    (hrg : (file g).ref ≠ 0) (hpi : pipe pi = (false, false)) (hlt : pi < stopPage) :
    Ends (update (update file f { file f with kind := .pipe pi false }) g
      { file g with kind := .pipe pi true }) (update pipe pi (true, true)) := by
  have hno : ∀ x w, (file x).kind ≠ .pipe pi w := by
    intro x w hx
    exact ne_of_endOpen (h.isOpen x pi w hx) hpi
  -- a file is an end of the new pipe, or what it was
  have hkind : ∀ x pi' w, (update (update file f { file f with kind := .pipe pi false }) g
      { file g with kind := .pipe pi true } x).kind = .pipe pi' w ↔
      (pi' = pi ∧ x = (if w then g else f)) ∨ (pi' ≠ pi ∧ (file x).kind = .pipe pi' w) := by
    intro x pi' w
    by_cases eg : x = g
    · subst eg
      cases w <;> simp [hg, hfg.symm, eq_comm]
    rw [update_of_ne eg]
    by_cases ef : x = f
    · subst ef
      cases w <;> simp [hf, hfg, eq_comm]
    rw [update_of_ne ef]
    by_cases ep : pi' = pi
    · subst ep
      cases w <;> simp [eg, ef, hno x]
    · simp [ep]
  have hend : ∀ pi' w, endOpen (update pipe pi (true, true) pi') w = true ↔
      pi' = pi ∨ (pi' ≠ pi ∧ endOpen (pipe pi') w = true) := by
    intro pi' w
    by_cases e : pi' = pi
    · subst e
      cases w <;> simp [endOpen]
    · simp [e]
  refine ⟨fun x hx => ?_, fun x pi' w hx => ?_, fun x y pi' w hx hy => ?_, fun pi' w hw => ?_, fun pi' hp => ?_⟩
  · have hx0 : (file x).ref = 0 := by
      by_cases eg : x = g
      · subst eg
        rwa [update_self] at hx
      rw [update_of_ne eg] at hx
      by_cases ef : x = f
      · subst ef
        rwa [update_self] at hx
      · rwa [update_of_ne ef] at hx
    have ef : x ≠ f := by
      rintro rfl
      exact hrf hx0
    have eg : x ≠ g := by
      rintro rfl
      exact hrg hx0
    rw [update_of_ne eg, update_of_ne ef]
    exact h.closed x hx0
  · rcases (hkind x pi' w).1 hx with ⟨e, -⟩ | ⟨e, hx⟩
    · exact (hend pi' w).2 (.inl e)
    · exact (hend pi' w).2 (.inr ⟨e, h.isOpen x pi' w hx⟩)
  · rcases (hkind x pi' w).1 hx with ⟨e, ex⟩ | ⟨e, hx⟩
    · rcases (hkind y pi' w).1 hy with ⟨-, ey⟩ | ⟨e', -⟩
      · exact ex.trans ey.symm
      · exact absurd e e'
    · rcases (hkind y pi' w).1 hy with ⟨e', -⟩ | ⟨-, hy⟩
      · exact absurd e' e
      · exact h.only x y pi' w hx hy
  · rcases (hend pi' w).1 hw with e | ⟨e, hw⟩
    · exact ⟨if w then g else f, (hkind ..).2 (.inl ⟨e, rfl⟩)⟩
    · obtain ⟨x, hx⟩ := h.hasEnd pi' w hw
      exact ⟨x, (hkind _ _ _).2 (.inr ⟨e, hx⟩)⟩
  · by_cases e : pi' = pi
    · rw [e]
      exact hlt
    · rw [update_of_ne e] at hp
      exact h.range pi' hp

/-! ## The functions -/

variable [Link] {F : Panic → Prop} {M : Slot → Nat → UInt8} {s : VmState}

structure Filed (M : Slot → Nat → UInt8) (s s' : VmState) : Prop where
  inv : VmInv M s'
  proc : s'.proc = s.proc
  trace : s'.trace = s.trace

theorem Filed.trans {s' s'' : VmState} (h : Filed M s s') (h' : Filed M s' s'') : Filed M s s'' :=
  ⟨h'.inv, h'.proc.trans h.proc, h'.trace.trans h.trace⟩

theorem VmInv.files (h : VmInv M s) (hf : Ends file s.pipe) : Filed M s { s with file := file } :=
  ⟨⟨h.acc, h.proc, hf, h.kstack, h.calm⟩, rfl, rfl⟩

theorem VmInv.pipes {k' : Kmem} (h : VmInv M s) (hf : Ends file pipe)
    (ha : Acc k' (owners { s with pipe := pipe })) (hk : ∀ p, Keeps (procUses (s.proc p)) s.k k') :
    Filed M s { s with k := k', file := file, pipe := pipe } :=
  ⟨⟨ha, fun p => (h.proc p).frame (hk p) le_rfl, hf, h.kstack, h.calm⟩, rfl, rfl⟩

omit [Link] in
theorem procUses_le_owners (s : VmState) (p : Slot) : procUses (s.proc p) ≤ owners s := by
  rw [owners_split s p]
  exact Multiset.le_add_left _ _

theorem filedup_spec [Mild F] (f : Fin 100) (h : VmInv M s) : wp (filedup f) (fun _ s' => Filed M s s') F s := by
  unfold filedup
  exact wp_ite (fun _ => Mild.of) (fun _ => h.files (h.ends.setRef f (Nat.succ_pos _)))

theorem filealloc_spec (h : VmInv M s) : wp filealloc (fun r s' => Filed M s s' ∧ match r with
    | none => s' = s
    | some f => (s.file f).ref = 0 ∧ s' = { s with file := update s.file f { s.file f with ref := 1 } }) F s := by
  unfold filealloc
  rw [wp_bind, wp_get]
  split
  · exact ⟨⟨h, rfl, rfl⟩, rfl⟩
  · rename_i f hf
    have h0 : (s.file f).ref = 0 := by simpa using List.find?_some hf
    exact ⟨h.files (h.ends.setRef f one_pos), h0, rfl⟩

omit [Link] in
theorem owners_pipe (s : VmState) (pipe : Nat → Bool × Bool) : owners { s with pipe := pipe } = core s + pipes pipe := rfl

theorem pipeclose_spec (h : VmInv M s) (hf : (s.file f).kind = .pipe pi w) :
    wp (pipeclose pi w) (fun _ s' => Filed M s s') F { s with file := update s.file f ⟨0, .none⟩ } := by
  have hopen := ne_of_endOpen (h.ends.isOpen f pi w hf)
  have hends := h.ends.close hf
  have hpipes := pipes_update s.pipe (closeEnd (s.pipe pi) w) (h.ends.range pi hopen)
  rw [pipeUse, if_neg hopen, pipeUse, update_self] at hpipes
  unfold pipeclose
  simp only [wp_bind]
  refine wp_ite (fun hlast => ?_) (fun hmore => ?_)
  · rw [if_pos hlast, add_zero] at hpipes
    have ha : Acc s.k (pi ::ₘ owners { s with pipe := update s.pipe pi (closeEnd (s.pipe pi) w) }) := by
      refine h.acc.of_eq ?_
      rw [owners, ← hpipes, ← add_assoc, ← singleton_add, add_comm ({pi} : Multiset Nat)]
      rfl
    rw [wp_onMem]
    refine wp_use (kfree_spec ha) ?_
    rintro _ k' ⟨ha', hk'⟩
    refine h.pipes hends ha' (fun p => hk'.mono ?_)
    exact procUses_le_owners { s with pipe := update s.pipe pi (closeEnd (s.pipe pi) w) } p
  · rw [if_neg hmore] at hpipes
    refine h.pipes hends (h.acc.of_eq ?_) (fun p => Keeps.refl _ _)
    rw [owners, ← add_right_cancel hpipes]
    rfl

theorem fileclose_spec [Mild F] (f : Fin 100) (h : VmInv M s) : wp (fileclose f) (fun _ s' => Filed M s s') F s := by
  unfold fileclose
  refine wp_ite (fun _ => Mild.of) (fun _ => ?_)
  refine wp_ite (fun hpos => h.files (h.ends.setRef f hpos)) (fun _ => ?_)
  rw [wp_bind, setFile, wp_modify]
  cases hk : (s.file f).kind with
  | none => exact h.files (h.ends.setOther (fun _ _ => by rw [hk]; exact nofun) (fun _ _ => nofun) (fun _ => rfl))
  | other => exact h.files (h.ends.setOther (fun _ _ => by rw [hk]; exact nofun) (fun _ _ => nofun) (fun _ => rfl))
  | pipe pi w => exact pipeclose_spec h hk

theorem pipealloc_spec [Mild F] (h : VmInv M s) : wp pipealloc (fun _ s' => Filed M s s') F s := by
  refine wp_then (filealloc_spec h) (fun r s1 ⟨h1, hr⟩ => ?_)
  cases r with
  | none => exact h1
  | some f0 =>
    obtain ⟨hf0, hs1⟩ := hr
    refine wp_then (filealloc_spec h1.inv) (fun r s2 ⟨h2, hr⟩ => ?_)
    cases r with
    | none =>
      exact wp_then (fileclose_spec f0 h2.inv) (fun _ s3 => (h1.trans h2).trans)
    | some f1 =>
      obtain ⟨hf1, hs2⟩ := hr
      have h12 := h1.trans h2
      have hne : f0 ≠ f1 := by
        rintro rfl
        rw [hs1] at hf1
        simp at hf1
      rw [wp_bind, wp_onMem]
      refine wp_use (kalloc_spec h2.inv.acc) (fun r k' hr => ?_)
      cases r with
      | none =>
        rw [hr]
        simp only [wp_bind]
        refine wp_use (fileclose_spec f0 h2.inv) (fun _ s3 h3 => ?_)
        exact wp_then (fileclose_spec f1 h3.inv) (fun _ s4 h4 => (h12.trans h3).trans h4)
      | some pi =>
        obtain ⟨ha', hk', hnew, -⟩ := hr
        have hlt : pi < stopPage := (ha'.range pi (Multiset.mem_cons_self _ _)).2
        have hpi : s2.pipe pi = (false, false) := by
          by_contra hno
          exact hnew (mem_add.2 (.inr (mem_pipes hno hlt)))
        have hk0 : (s2.file f0).kind = .none := by
          rw [hs2]
          simp only [update_of_ne hne, hs1, update_self]
          exact h.ends.closed f0 hf0
        have hr0 : (s2.file f0).ref ≠ 0 := by
          rw [hs2]
          simp [update_of_ne hne, hs1]
        have hk1 : (s2.file f1).kind = .none := by
          rw [hs2]
          simp only [update_self]
          exact h1.inv.ends.closed f1 hf1
        have hr1 : (s2.file f1).ref ≠ 0 := by
          rw [hs2]
          simp
        have hpipes := pipes_update s2.pipe (true, true) hlt
        rw [pipeUse, if_pos hpi, pipeUse, update_self, if_neg (by decide), add_zero] at hpipes
        have hacc : Acc k' (owners { s2 with pipe := update s2.pipe pi (true, true) }) := by
          refine ha'.of_eq ?_
          rw [owners_pipe s2 (update s2.pipe pi (true, true)), hpipes, ← add_assoc,
            add_comm _ ({pi} : Multiset Nat), singleton_add]
          rfl
        have hopen := h2.inv.pipes (h2.inv.ends.openPipe hne hk0 hk1 hr0 hr1 hpi hlt) hacc
          (fun p => hk'.mono (procUses_le_owners s2 p))
        simp only [wp_bind, wp_modify, wp_get, wp_pure, setFile, update_of_ne hne.symm]
        exact h12.trans hopen

end Xv6.Vm
