import Xv6.BioModel
/-!
# BioCoherent — the buffer cache refines a flat map of blocks

`Inv P s` holds between any two statements: `P` is the list of blocks the log still pins. A block that is not pinned is
on the disk as it was last written, so recycling its buffer loses nothing; a pinned one has its buffer, and a count above
zero keeps it from being recycled. `bread`, `brelse` and the turns of `commit` get one specification each, over the
reasons `F` the caller accepts for not returning; the run lemma is the induction over complete calls.
-/
namespace Xv6.Bio

open Function List Wp
open Log (Block)

structure Inv (P : List Nat) (s : St) : Prop where
  ring : ∃ l, Ring.IsRing s.links l ∧ ∀ i, i ∈ l
  uniq : ∀ i j, (s.buf i).dev = rootDev → (s.buf j).dev = rootDev → (s.buf i).blockno = (s.buf j).blockno → i = j
  refs : ∀ i, (s.buf i).refcnt = s.pins i + if (s.buf i).lock.isSome then 1 else 0
  pins : ∀ i, s.pins i = if (s.buf i).dev = rootDev ∧ (s.buf i).blockno ∈ P then 1 else 0
  pinned : ∀ b ∈ P, ∃ i, (s.buf i).dev = rootDev ∧ (s.buf i).blockno = b
  locked : ∀ i, (s.buf i).lock.isSome → (s.buf i).dev = rootDev
  valid : ∀ i, (s.buf i).dev = rootDev → (s.buf i).valid = true ∧ (s.buf i).data = s.flat (s.buf i).blockno
  disk : ∀ b, b ∉ P → s.disk b = s.flat b
  nodup : P.Nodup
  kept : s.stolen = false

variable {s s' t : St} {P P' : List Nat} {p b : Nat}

/-- **One buffer changes**: afterwards it holds block `B`, and only `B` changes in the flat map, on the disk and among the
pinned blocks. -/
theorem Inv.put (h : Inv P s) (i : Bno) (B : Nat) (hring : ∃ l, Ring.IsRing s'.links l ∧ ∀ i, i ∈ l)
    (hbuf : ∀ j, j ≠ i → s'.buf j = s.buf j) (hpin : ∀ j, j ≠ i → s'.pins j = s.pins j)
    (hB : ∀ b, b ≠ B → (b ∈ P' ↔ b ∈ P) ∧ s'.flat b = s.flat b ∧ s'.disk b = s.disk b)
    (hdev : (s'.buf i).dev = rootDev) (hno : (s'.buf i).blockno = B)
    (huniq : ∀ j, j ≠ i → (s.buf j).dev = rootDev → (s.buf j).blockno ≠ B)
    (hold : (s.buf i).dev = rootDev → (s.buf i).blockno ∈ P → (s.buf i).blockno = B)
    (hrefs : (s'.buf i).refcnt = s'.pins i + if (s'.buf i).lock.isSome then 1 else 0)
    (hpins : s'.pins i = if B ∈ P' then 1 else 0) (hvalid : (s'.buf i).valid = true ∧ (s'.buf i).data = s'.flat B)
    (hdisk : B ∉ P' → s'.disk B = s'.flat B) (hnodup : P'.Nodup) (hkept : s'.stolen = false) : Inv P' s' where
  ring := hring
  uniq := by
    intro a c ha hc hac
    by_cases hai : a = i <;> by_cases hci : c = i
    · rw [hai, hci]
    · subst hai
      rw [hbuf c hci] at hc hac
      exact absurd (hac.symm.trans hno) (huniq c hci hc)
    · subst hci
      rw [hbuf a hai] at ha hac
      exact absurd (hac.trans hno) (huniq a hai ha)
    · rw [hbuf a hai] at ha hac
      rw [hbuf c hci] at hc hac
      exact h.uniq a c ha hc hac
  refs := by
    intro j
    by_cases hj : j = i
    · rw [hj, hrefs]
    · rw [hbuf j hj, hpin j hj]
      exact h.refs j
  pins := by
    intro j
    by_cases hj : j = i
    · rw [hj, hpins, hno, hdev]
      simp
    · rw [hbuf j hj, hpin j hj, h.pins j]
      by_cases hd : (s.buf j).dev = rootDev
      · simp [(hB _ (huniq j hj hd)).1]
      · simp [hd]
  pinned := by
    intro b hb
    by_cases hbB : b = B
    · exact ⟨i, hdev, hno.trans hbB.symm⟩
    obtain ⟨j, hd, hj⟩ := h.pinned b ((hB b hbB).1.1 hb)
    by_cases hji : j = i
    · subst hji
      exact absurd (hj.symm.trans (hold hd (hj ▸ (hB b hbB).1.1 hb))) hbB
    · exact ⟨j, by rw [hbuf j hji]; exact ⟨hd, hj⟩⟩
  locked := by
    intro j hl
    by_cases hj : j = i
    · rw [hj, hdev]
    · rw [hbuf j hj] at hl ⊢
      exact h.locked j hl
  valid := by
    intro j hd
    by_cases hj : j = i
    · rw [hj, hno]
      exact hvalid
    · rw [hbuf j hj] at hd ⊢
      rw [(hB _ (huniq j hj hd)).2.1]
      exact h.valid j hd
  disk := by
    intro b hb
    by_cases hbB : b = B
    · subst hbB
      exact hdisk hb
    · obtain ⟨hP, hf, hd⟩ := hB b hbB
      rw [hf, hd]
      exact h.disk b (fun hbP => hb (hP.2 hbP))
  nodup := hnodup
  kept := hkept

variable {i : Bno} {F : Halt → Prop} {g : Ring.Links Bno} {l : List Bno}

theorem Inv.alone (h : Inv P s) (hd : (s.buf i).dev = rootDev) (j : Bno) (hj : j ≠ i)
    (hdj : (s.buf j).dev = rootDev) : (s.buf j).blockno ≠ (s.buf i).blockno := fun e => hj (h.uniq j i hdj hd e)

/-! ## The two searches -/

theorem length_of_ring (h : Ring.IsRing g l) : l.length < nbuf + 1 := by
  have := List.Nodup.length_le_card h.nodup
  rw [Fintype.card_fin] at this
  omega

theorem Inv.cached (h : Inv P s) (dev b : Nat) :
    ∃ r, Bio.cached s dev b = some r ∧ (∀ i, r = some i → (s.buf i).dev = dev ∧ (s.buf i).blockno = b) ∧
    (r = none → ∀ i, (s.buf i).dev = dev → (s.buf i).blockno ≠ b) := by
  obtain ⟨l, hl, hall⟩ := h.ring
  refine ⟨_, hl.seg.search_next _ (length_of_ring hl), fun i hi => ?_, fun hn i hd hb => ?_⟩
  · simpa using find?_some hi
  · simpa [hd, hb] using find?_eq_none.1 hn i (hall i)

theorem Inv.recyclable (h : Inv P s) :
    ∃ r, Bio.recyclable s = some r ∧ (∀ i, r = some i → (s.buf i).refcnt = 0) ∧ (r = none → ∀ i, (s.buf i).refcnt ≠ 0) := by
  obtain ⟨l, hl, hall⟩ := h.ring
  have hlen : l.reverse.length < nbuf + 1 := by
    rw [length_reverse]
    exact length_of_ring hl
  refine ⟨_, Ring.Seg.search_prev _ (l.reverse_reverse.symm ▸ hl.seg) hlen, fun i hi => ?_, fun hn i hi => ?_⟩
  · simpa using find?_some hi
  · simpa [hi] using find?_eq_none.1 hn i (mem_reverse.2 (hall i))

/-! ## `bread` -/

structure Frame (s s' : St) : Prop where
  lh : s'.lh = s.lh
  start : s'.start = s.start
  outstanding : s'.outstanding = s.outstanding
  committing : s'.committing = s.committing

theorem Frame.trans {u : St} (h : Frame s t) (h' : Frame t u) : Frame s u :=
  ⟨h'.lh.trans h.lh, h'.start.trans h.start, h'.outstanding.trans h.outstanding, h'.committing.trans h.committing⟩

/-- The buffer `bread` returns, and what it leaves alone. -/
structure Took (p b : Nat) (s : St) (i : Bno) (s' : St) : Prop where
  had : (s.buf i).refcnt = 0 ∨ (s.buf i).dev = rootDev ∧ (s.buf i).blockno = b
  free : (s.buf i).lock = none
  lock : (s'.buf i).lock = some p
  dev : (s'.buf i).dev = rootDev
  blockno : (s'.buf i).blockno = b
  data : (s'.buf i).data = s.flat b
  others : ∀ j, j ≠ i → s'.buf j = s.buf j
  flat : s'.flat = s.flat
  frame : Frame s s'

theorem bgetHit_spec (p : Nat) (h : Inv P s) (hd : (s.buf i).dev = rootDev) (hs : F .sleeps ∨ (s.buf i).lock = none) :
    wp (bgetHit p i) (fun r s' => wp (do fill r; pure r)
      (fun r s'' => Inv P s'' ∧ Took p (s.buf i).blockno s r s'') F s') F s := by
  obtain ⟨hv, hdata⟩ := h.valid i hd
  unfold bgetHit acquiresleep fill setBuf
  simp only [wp_bind, wp_get, wp_modify, update_self]
  refine wp_ite (fun hl => ?_) (fun hl => ?_)
  · rw [wp_throw]
    exact hs.resolve_right (fun e => by simp [e] at hl)
  simp only [wp_modify, wp_pure, update_self, hv, if_true, update_idem]
  have hfree : (s.buf i).lock = none := by simpa using hl
  have hrefs := h.refs i
  refine ⟨h.put i (s.buf i).blockno h.ring ?_ (fun _ _ => rfl) (fun b _ => ⟨Iff.rfl, rfl, rfl⟩) ?_ ?_ (h.alone hd)
    (fun _ _ => rfl) ?_ ?_ ?_ (h.disk _) h.nodup h.kept, ?_⟩
  · exact fun j hj => update_of_ne hj _ _
  · simpa using hd
  · simp
  · simp [hrefs, hfree]
  · simpa [hd] using h.pins i
  · simpa [hv] using hdata
  · exact ⟨.inr ⟨hd, rfl⟩, hfree, by simp, by simpa using hd, by simp, by simpa using hdata,
      fun j hj => update_of_ne hj _ _, rfl, rfl, rfl, rfl, rfl⟩

theorem recycle_spec (p b : Nat) (h : Inv P s)
    (hi : (s.buf i).refcnt = 0) (hb : ∀ j, (s.buf j).dev = rootDev → (s.buf j).blockno ≠ b) :
    wp (recycle p i rootDev b) (fun r s' => wp (do fill r; pure r)
      (fun r s'' => Inv P s'' ∧ Took p b s r s'') F s') F s := by
  have hrefs := h.refs i
  have hpin : s.pins i = 0 := by
    split at hrefs <;> omega
  have hfree : (s.buf i).lock = none := by
    cases hl : (s.buf i).lock with
    | none => rfl
    | some q => simp [hl] at hrefs; omega
  have hbP : b ∉ P := fun hbP => by
    obtain ⟨j, hd, hj⟩ := h.pinned b hbP
    exact hb j hd hj
  have hflat : s.disk b = s.flat b := h.disk b hbP
  have hold : (s.buf i).dev = rootDev → (s.buf i).blockno ∉ P := by
    intro hd hP
    have := h.pins i
    simp [hd, hP, hpin] at this
  unfold recycle acquiresleep fill setBuf
  simp only [wp_bind, wp_get, wp_modify, update_self, hfree, Option.isSome_none, Bool.false_eq_true, if_false,
    wp_pure, update_idem]
  refine ⟨h.put i b h.ring ?_ (fun _ _ => rfl) (fun b _ => ⟨Iff.rfl, rfl, rfl⟩) ?_ ?_ (fun j _ => hb j)
    (fun hd hP => absurd hP (hold hd)) ?_ ?_ ?_ (fun _ => hflat) h.nodup ?_, ?_⟩
  · exact fun j hj => update_of_ne hj _ _
  · simp
  · simp
  · simp [hpin]
  · simp [hpin, hbP]
  · simpa using hflat
  · simp [h.kept, hpin]
  · exact ⟨.inl hi, hfree, by simp, by simp, by simp, by simpa using hflat, fun j hj => update_of_ne hj _ _,
      rfl, rfl, rfl, rfl, rfl⟩

/-- **`bread` returns the block's current content in a buffer it has locked**, or sleeps on a buffer somebody holds, or
runs out of buffers when every count is above zero. -/
theorem bread_spec (p b : Nat) (h : Inv P s)
    (hs : F .sleeps ∨ ∀ i, (s.buf i).dev = rootDev → (s.buf i).blockno = b → (s.buf i).lock = none)
    (hn : F .noBuffers ∨ (∃ i, (s.buf i).refcnt = 0) ∨ ∃ i, (s.buf i).dev = rootDev ∧ (s.buf i).blockno = b) :
    wp (bread p rootDev b) (fun i s' => Inv P s' ∧ Took p b s i s') F s := by
  obtain ⟨r, hr, hsome, hnone⟩ := h.cached rootDev b
  unfold bread bget
  simp only [wp_bind, wp_get, hr]
  cases r with
  | some i =>
    obtain ⟨hd, rfl⟩ := hsome i rfl
    exact bgetHit_spec p h hd (hs.imp_right (fun hs => hs i hd rfl))
  | none =>
    have hmiss := hnone rfl
    obtain ⟨r, hr', hsome', hnone'⟩ := h.recyclable
    unfold bgetMiss
    simp only [wp_bind, wp_get, hr']
    cases r with
    | none =>
      rcases hn with hn | ⟨i, hi⟩ | ⟨i, hd, hi⟩
      · exact hn
      · exact absurd hi (hnone' rfl i)
      · exact absurd hi (hmiss i hd)
    | some i => exact recycle_spec p b h (hsome' i rfl) hmiss

/-! ## The other statements -/

structure Gave (s : St) (i : Bno) (s' : St) : Prop where
  lock : (s'.buf i).lock = none
  others : ∀ j, j ≠ i → s'.buf j = s.buf j
  flat : s'.flat = s.flat
  frame : Frame s s'

theorem ring_front (h : Ring.IsRing g l) (hall : ∀ i, i ∈ l) (i : Bno) :
    ∃ l, Ring.IsRing ((g.unlink i).insert i) l ∧ ∀ j, j ∈ l := by
  obtain ⟨l₁, l₂, rfl⟩ := append_of_mem (hall i)
  have hi : i ∉ l₁ ++ l₂ := (nodup_cons.1 (nodup_middle.1 h.nodup)).1
  refine ⟨i :: (l₁ ++ l₂), h.unlink.insert hi, fun j => ?_⟩
  have := hall j
  simp only [mem_append, mem_cons] at this ⊢
  tauto

theorem brelse_spec (h : Inv P s)
    (hl : (s.buf i).lock = some p) : wp (brelse p i) (fun _ s' => Inv P s' ∧ Gave s i s') F s := by
  have hd : (s.buf i).dev = rootDev := h.locked i (by simp [hl])
  obtain ⟨l, hring, hall⟩ := h.ring
  have hrefs := h.refs i
  have hpins := h.pins i
  rw [hl] at hrefs
  rw [hd] at hpins
  have key : ∀ s' : St, (∃ l, Ring.IsRing s'.links l ∧ ∀ i, i ∈ l) →
      s' = { s with
        buf := update s.buf i { s.buf i with lock := none, refcnt := (s.buf i).refcnt - 1 }
        links := s'.links } → Inv P s' ∧ Gave s i s' := by
    intro s' hr he
    generalize s'.links = g at he
    subst he
    refine ⟨h.put i (s.buf i).blockno hr (fun j hj => update_of_ne hj _ _) (fun _ _ => rfl)
      (fun b _ => ⟨Iff.rfl, rfl, rfl⟩) ?_ ?_ (h.alone hd) (fun _ _ => rfl) ?_ ?_ ?_ (h.disk _) h.nodup h.kept, ?_⟩
    · simpa using hd
    · simp
    · simp [hrefs]
    · simpa using hpins
    · simpa using h.valid i hd
    · exact ⟨by simp, fun j hj => update_of_ne hj _ _, rfl, rfl, rfl, rfl, rfl⟩
  unfold brelse unref setBuf
  simp only [wp_bind, wp_get, hl, if_true, wp_modify, update_self, update_idem]
  refine wp_ite (fun _ => ?_) (fun _ => ?_)
  · exact wp_modify.2 (key _ (ring_front hring hall i) rfl)
  · exact wp_pure.2 (key _ ⟨l, hring, hall⟩ rfl)

/-- The buffer that is filled with `d` and written to the disk, and what that leaves alone. -/
structure Wrote (s : St) (i : Bno) (d : Block) (s' : St) : Prop where
  lock : (s'.buf i).lock = (s.buf i).lock
  dev : (s'.buf i).dev = (s.buf i).dev
  blockno : (s'.buf i).blockno = (s.buf i).blockno
  others : ∀ j, j ≠ i → s'.buf j = s.buf j
  flat : s'.flat = update s.flat (s.buf i).blockno d
  disk : s'.disk (s.buf i).blockno = d
  frame : Frame s s'

theorem write_spec (d : Block) (h : Inv P s) (hl : (s.buf i).lock = some p) :
    wp (setData i d) (fun _ s₁ => wp (bwrite p i) (fun _ s' => Inv P s' ∧ Wrote s i d s') F s₁) F s := by
  have hd : (s.buf i).dev = rootDev := h.locked i (by simp [hl])
  have hpins := h.pins i
  rw [hd] at hpins
  unfold setData bwrite setBuf
  simp only [wp_bind, wp_get, wp_modify, update_self, hl]
  refine ⟨h.put i (s.buf i).blockno h.ring (fun j hj => update_of_ne hj _ _) (fun _ _ => rfl) ?_ ?_ ?_
    (h.alone hd) (fun _ _ => rfl) ?_ ?_ ?_ ?_ h.nodup h.kept, ?_⟩
  · exact fun b hb => ⟨Iff.rfl, update_of_ne hb _ _, update_of_ne hb _ _⟩
  · simpa using hd
  · simp
  · simpa [hl] using h.refs i
  · simpa using hpins
  · simpa using (h.valid i hd).1
  · simp
  · exact ⟨by simp [hl], by simp, by simp, fun j hj => update_of_ne hj _ _, rfl, by simp, rfl, rfl, rfl, rfl⟩

theorem bunpin_spec (h : Inv ((s.buf i).blockno :: P) s)
    (hd : (s.buf i).dev = rootDev) (hdisk : s.disk (s.buf i).blockno = s.flat (s.buf i).blockno) :
    wp (bunpin i) (fun _ s' => Inv P s' ∧ (s'.buf i).lock = (s.buf i).lock ∧ (∀ j, j ≠ i → s'.buf j = s.buf j) ∧
      s'.flat = s.flat ∧ Frame s s') F s := by
  have hpins := h.pins i
  have hrefs := h.refs i
  have hnd := nodup_cons.1 h.nodup
  rw [hd] at hpins
  simp only [mem_cons, true_or, and_self, if_true] at hpins
  unfold bunpin setBuf
  simp only [wp_bind, wp_get, wp_modify]
  refine ⟨h.put i (s.buf i).blockno h.ring (fun j hj => update_of_ne hj _ _)
    (fun j hj => update_of_ne hj _ _) ?_ ?_ ?_ (h.alone hd) (fun _ _ => rfl) ?_ ?_ ?_ ?_ hnd.2 h.kept, ?_⟩
  · exact fun b hb => ⟨by simp [hb], rfl, rfl⟩
  · simpa using hd
  · simp
  · simp only [update_self]
    omega
  · simp [hpins, hnd.1]
  · simpa using h.valid i hd
  · exact fun _ => hdisk
  · exact ⟨by simp, fun j hj => update_of_ne hj _ _, trivial, rfl, rfl, rfl, rfl⟩

/-! ## The turns of `commit` -/

/-- Either the caller accepts that `bread` sleeps or runs out, or nothing is locked and a buffer is free. -/
def Room (F : Halt → Prop) (P : List Nat) (s : St) : Prop :=
  (F .sleeps ∧ F .noBuffers) ∨ ((∀ i, (s.buf i).lock = none) ∧ P.length < nbuf)

theorem Inv.spare (h : Inv P s) (hfree : ∀ i, (s.buf i).lock = none) (hP : P.length < nbuf) :
    ∃ i, (s.buf i).refcnt = 0 := by
  by_contra hno
  have hin : ∀ i, (s.buf i).dev = rootDev ∧ (s.buf i).blockno ∈ P := by
    intro i
    by_contra hi
    apply hno
    refine ⟨i, ?_⟩
    rw [h.refs i, h.pins i, if_neg hi, hfree i]
    rfl
  have hinj : Function.Injective (fun i => (⟨(s.buf i).blockno, mem_toFinset.2 (hin i).2⟩ : P.toFinset)) := by
    intro i j hij
    exact h.uniq i j (hin i).1 (hin j).1 (congrArg Subtype.val hij)
  have hcard := Fintype.card_le_of_injective _ hinj
  rw [Fintype.card_fin, Fintype.card_coe] at hcard
  have := P.toFinset_card_le
  omega

theorem Inv.full (h : Inv P s) (hP : nbuf ≤ P.length) (i : Bno) : (s.buf i).dev = rootDev ∧ (s.buf i).blockno ∈ P := by
  let held : Finset Bno := Finset.univ.filter (fun i => (s.buf i).dev = rootDev ∧ (s.buf i).blockno ∈ P)
  have hsub : P.toFinset ⊆ held.image (fun i => (s.buf i).blockno) := by
    intro b hb
    obtain ⟨i, hd, hi⟩ := h.pinned b (mem_toFinset.1 hb)
    refine Finset.mem_image.2 ⟨i, Finset.mem_filter.2 ⟨Finset.mem_univ i, hd, ?_⟩, hi⟩
    rw [hi]
    exact mem_toFinset.1 hb
  have hcard := (Finset.card_le_card hsub).trans Finset.card_image_le
  rw [toFinset_card_of_nodup h.nodup] at hcard
  have huniv : held = Finset.univ := Finset.eq_univ_of_card held
    (le_antisymm (Finset.card_le_univ held) (by rw [Fintype.card_fin]; exact hP.trans hcard))
  have hi : i ∈ held := huniv ▸ Finset.mem_univ i
  exact (Finset.mem_filter.1 hi).2

/-- A full transaction leaves `bread` only the blocks it has pinned. -/
theorem Took.pinned (ht : Took p b s i s') (h : Inv P s) (hP : nbuf ≤ P.length) : b ∈ P := by
  obtain ⟨hd, hi⟩ := h.full hP i
  rcases ht.had with h0 | ⟨-, hb⟩
  · have hrefs := h.refs i
    rw [h0, h.pins i, if_pos ⟨hd, hi⟩] at hrefs
    split at hrefs <;> omega
  · rw [← hb]
    exact hi

theorem Room.bread (hr : Room F P s) (h : Inv P s) (p b : Nat) :
    wp (bread p rootDev b) (fun i s' => Inv P s' ∧ Took p b s i s') F s := by
  rcases hr with ⟨hs, hn⟩ | ⟨hfree, hP⟩
  · exact bread_spec p b h (.inl hs) (.inl hn)
  · exact bread_spec p b h (.inr (fun i _ _ => hfree i)) (.inr (.inl (h.spare hfree hP)))

theorem Room.bread_pinned {q c : Nat} (hr : Room F P s)
    (h : Inv P t) (ht : Took q c s i t) (hb : b ∈ P) (hne : F .sleeps ∧ F .noBuffers ∨ b ≠ c) :
    wp (Bio.bread p rootDev b) (fun j u => Inv P u ∧ Took p b t j u) F t := by
  rcases hr with ⟨hs, hn⟩ | ⟨hfree, hP⟩
  · exact bread_spec p b h (.inl hs) (.inl hn)
  refine bread_spec p b h ?_ (.inr (.inr (h.pinned b hb)))
  refine hne.imp (fun hF => hF.1) (fun hne j _ hj => ?_)
  have hji : j ≠ i := fun e => hne (by rw [← hj, e, ht.blockno])
  rw [ht.others j hji]
  exact hfree j

/-- What a turn leaves: the locks as they were, and one block of the flat map changed. -/
structure Turn (s : St) (b : Nat) (d : Block) (s' : St) : Prop where
  locks : ∀ i, (s'.buf i).lock = (s.buf i).lock
  flat : s'.flat = update s.flat b d
  frame : Frame s s'

theorem Room.turn {d : Block} (hr : Room F P s) (ht : Turn s b d s') (hP : P'.length ≤ P.length) : Room F P' s' :=
  hr.imp_right (fun h => ⟨fun i => (ht.locks i).trans (h.1 i), by omega⟩)

theorem writeLogAt_spec (p tail : Nat) (h : Inv P s) (hr : Room F P s)
    (hb : s.lh.block tail ∈ P) (hne : F .sleeps ∧ F .noBuffers ∨ s.lh.block tail ≠ s.start + tail + 1) :
    wp (writeLogAt p tail) (fun _ s' => Inv P s' ∧ Turn s (s.start + tail + 1) (s.flat (s.lh.block tail)) s' ∧
      s.lh.block tail ≠ s.start + tail + 1 ∧ (nbuf ≤ P.length → s.start + tail + 1 ∈ P)) F s := by
  unfold writeLogAt
  rw [wp_bind, wp_get]
  refine wp_then (hr.bread h p _) (fun ti t ⟨hit, ht⟩ => ?_)
  refine wp_then (hr.bread_pinned hit ht hb hne) (fun fi u ⟨hiu, hu⟩ => ?_)
  have hfi : ti ≠ fi := by
    rintro rfl
    exact absurd ht.lock (by rw [hu.free]; simp)
  have hut := hu.others ti hfi
  rw [wp_bind, wp_get]
  refine wp_then (write_spec _ hiu (by rw [hut]; exact ht.lock)) (fun _ v hv => ?_)
  refine wp_then hv (fun _ w ⟨hiw, hw⟩ => ?_)
  have hwf := hw.others fi hfi.symm
  refine wp_then (brelse_spec hiw (by rw [hwf]; exact hu.lock)) (fun _ x ⟨hix, hx⟩ => ?_)
  have hxt := hx.others ti hfi
  refine wp_use (brelse_spec hix (by rw [hxt, hw.lock, hut]; exact ht.lock)) (fun _ y ⟨hiy, hy⟩ => ⟨hiy, ?_, ?_, ht.pinned h⟩)
  swap
  · intro e
    refine hfi (hiu.uniq ti fi (by rw [hut, ht.dev]) hu.dev ?_)
    rw [hut, ht.blockno, hu.blockno, e]
  refine ⟨fun j => ?_, ?_, ht.frame.trans (hu.frame.trans (hw.frame.trans (hx.frame.trans hy.frame)))⟩
  · by_cases hjt : j = ti
    · rw [hjt, hy.lock, ht.free]
    rw [hy.others j hjt]
    by_cases hjf : j = fi
    · rw [hjf, hx.lock, ← ht.others fi hfi.symm, hu.free]
    · rw [hx.others j hjf, hw.others j hjt, hu.others j hjf, ht.others j hjt]
  · rw [hy.flat, hx.flat, hw.flat, hut, ht.blockno, hu.flat, ht.flat, hu.data, ht.flat]

theorem writeHead_spec (p : Nat) (h : Inv P s) (hr : Room F P s) :
    wp (writeHead p) (fun _ s' => Inv P s' ∧ Turn s s.start (Log.putHead s.lh (s.flat s.start)) s' ∧
      (nbuf ≤ P.length → s.start ∈ P)) F s := by
  unfold writeHead
  rw [wp_bind, wp_get]
  refine wp_then (hr.bread h p _) (fun i t ⟨hit, ht⟩ => ?_)
  rw [wp_bind, wp_get]
  refine wp_then (write_spec _ hit ht.lock) (fun _ v hv => ?_)
  refine wp_then hv (fun _ w ⟨hiw, hw⟩ => ?_)
  refine wp_use (brelse_spec hiw (hw.lock.trans ht.lock)) (fun _ x ⟨hix, hx⟩ => ⟨hix, ?_, ht.pinned h⟩)
  refine ⟨fun j => ?_, ?_, ht.frame.trans (hw.frame.trans hx.frame)⟩
  · by_cases hj : j = i
    · rw [hj, hx.lock, ht.free]
    · rw [hx.others j hj, hw.others j hj, ht.others j hj]
  · rw [hx.flat, hw.flat, ht.blockno, ht.flat, ht.data, ht.frame.lh]

theorem installAt_spec (p tail : Nat) (h : Inv (s.lh.block tail :: P) s)
    (hr : Room F (s.lh.block tail :: P) s) (hne : F .sleeps ∧ F .noBuffers ∨ s.lh.block tail ≠ s.start + tail + 1) :
    wp (installAt p tail) (fun _ s' => Inv P s' ∧ Turn s (s.lh.block tail) (s.flat (s.start + tail + 1)) s') F s := by
  unfold installAt
  rw [wp_bind, wp_get]
  refine wp_then (hr.bread h p _) (fun li t ⟨hit, ht⟩ => ?_)
  refine wp_then (hr.bread_pinned hit ht mem_cons_self hne) (fun di u ⟨hiu, hu⟩ => ?_)
  have hdi : li ≠ di := by
    rintro rfl
    exact absurd ht.lock (by rw [hu.free]; simp)
  have hul := hu.others li hdi
  rw [wp_bind, wp_get]
  refine wp_then (write_spec _ hiu hu.lock) (fun _ v hv => ?_)
  refine wp_then hv (fun _ w ⟨hiw, hw⟩ => ?_)
  have hwl := hw.others li hdi
  have hwb : (w.buf di).blockno = s.lh.block tail := hw.blockno.trans hu.blockno
  rw [wp_bind]
  rw [← hwb] at hiw
  refine wp_use (bunpin_spec hiw (hw.dev.trans hu.dev) ?_) (fun _ x ⟨hix, hxl, hxo, hxf, hxr⟩ => ?_)
  · rw [hw.flat, hwb, ← hu.blockno, hw.disk, update_self]
  have hxli := hxo li hdi
  refine wp_then (brelse_spec hix (by rw [hxli, hwl, hul]; exact ht.lock)) (fun _ y ⟨hiy, hy⟩ => ?_)
  have hyd := hy.others di hdi.symm
  refine wp_use (brelse_spec hiy (by rw [hyd, hxl, hw.lock]; exact hu.lock)) (fun _ z ⟨hiz, hz⟩ => ⟨hiz, ?_⟩)
  refine ⟨fun j => ?_, ?_, ht.frame.trans (hu.frame.trans (hw.frame.trans (hxr.trans (hy.frame.trans hz.frame))))⟩
  · by_cases hjd : j = di
    · rw [hjd, hz.lock, ← ht.others di hdi.symm, hu.free]
    rw [hz.others j hjd]
    by_cases hjl : j = li
    · rw [hjl, hy.lock, ht.free]
    · rw [hy.others j hjl, hxo j hjd, hw.others j hjd, hu.others j hjd, ht.others j hjl]
  · rw [hz.flat, hy.flat, hxf, hw.flat, hu.blockno, hu.flat, ht.flat, hul, ht.data]

end Xv6.Bio
