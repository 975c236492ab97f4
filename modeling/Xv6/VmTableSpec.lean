import Xv6.LibSum
import Xv6.VmTable
/-!
# VmTableSpec — what the functions of `vm.c` do to the accounts and to user memory

A page table uses its table pages (`tabs`) and the pages it maps below `TRAPFRAME` (`leaves`). `User` is what holds of a
user page table: every mapped page holds the bytes `R` says the process should see there, and a page mapped writable is
used once. Each function is specified against an arbitrary remainder `E` of the accounts: it keeps the accounts, the
table's `User`, and leaves the pages of `E` alone.
-/
namespace Xv6.Vm

open Multiset (singleton_add cons_swap cons_add add_cons)
open Function Option Wp Sum

/-- Any panic: what is said of a function is said of its normal ends. -/
def Any : Panic → Prop := fun _ => True

/-- Panics other than those of a page table that is not what `sz` says: `walk`, `remap` and `freewalk: leaf`. -/
def Tame (e : Panic) : Prop := e ≠ .walk ∧ e ≠ .remap ∧ e ≠ .freewalkLeaf

/-- The panics a specification leaves open include all others. -/
class Mild (F : Panic → Prop) : Prop where
  tame : ∀ e, Tame e → F e

instance : Mild Any := ⟨fun _ _ => trivial⟩

instance : Mild Tame := ⟨fun _ h => h⟩

theorem Mild.of {F : Panic → Prop} [Mild F] {e : Panic} (h : e ≠ .walk ∧ e ≠ .remap ∧ e ≠ .freewalkLeaf := by decide) :
    F e := Mild.tame e h

variable {F : Panic → Prop} {i : Nat}

/-! ## The pages a table uses -/

def opt : Option Nat → Multiset Nat
  | none => 0
  | some p => {p}

@[simp] theorem opt_none : opt none = 0 := rfl

@[simp] theorem opt_some (p : Nat) : opt (some p) = {p} := rfl

theorem mem_entries : i ∈ entries ↔ i < 512 := by
  unfold entries
  exact List.mem_range

theorem nodup_entries : entries.Nodup := by
  unfold entries
  exact List.nodup_range

/-- The level-1 table under entry `i` of the root and the level-0 tables under it. -/
def tab1 (t : Pt) (i : Nat) : Multiset Nat :=
  match t.l1 i with
  | none => 0
  | some p => p ::ₘ (entries.map (fun j => opt (t.l0 (512 * i + j)))).sum

def tabs (t : Pt) : Multiset Nat := t.root ::ₘ (entries.map (tab1 t)).sum

def leaf (pte : Nat → Option Pte) (v : Nat) : Multiset Nat := opt ((pte v).map Pte.pa)

@[irreducible] def leaves (pte : Nat → Option Pte) : Multiset Nat := ((List.range trapVpn).map (leaf pte)).sum

def uses (t : Pt) : Multiset Nat := tabs t + leaves t.pte

@[simp] theorem tabs_setPte (t : Pt) (v : Nat) (e : Option Pte) : tabs (t.setPte v e) = tabs t := rfl

variable {v p pa j : Nat} {e : Pte} {f g pte : Nat → Option Pte} {t : Pt}
  {Q : Option (Option Pte) → Kmem → Prop}

theorem leaf_of_some (h : pte v = some e) : leaf pte v = {e.pa} := by simp [leaf, h]

theorem leaf_of_none (h : pte v = none) : leaf pte v = 0 := by simp [leaf, h]

theorem leaves_change (hv : v < trapVpn)
    (h : ∀ w, w < trapVpn → w ≠ v → g w = f w) : leaves g + leaf f v = leaves f + leaf g v := by
  unfold leaves
  refine sum_map_change List.nodup_range (List.mem_range.2 hv) (fun w hw hne => ?_)
  unfold leaf
  rw [h w (List.mem_range.1 hw) hne]

theorem leaves_congr (h : ∀ w, w < trapVpn → (g w).map Pte.pa = (f w).map Pte.pa) : leaves g = leaves f := by
  unfold leaves
  exact sum_map_congr (fun w hw => by unfold leaf; rw [h w (List.mem_range.1 hw)])

theorem leaves_zero (h : ∀ w, w < trapVpn → f w = none) : leaves f = 0 := by
  unfold leaves
  exact sum_map_zero (fun w hw => leaf_of_none (h w (List.mem_range.1 hw)))

theorem mem_leaves (hv : v < trapVpn) (h : f v = some e) : e.pa ∈ leaves f := by
  unfold leaves
  exact mem_sum_map.2 ⟨v, List.mem_range.2 hv, by rw [leaf_of_some h]; exact Multiset.mem_singleton_self _⟩

theorem leaves_le (h : ∀ w, g w = none ∨ g w = f w) : leaves g ≤ leaves f := by
  unfold leaves
  refine sum_map_le (fun w _ => ?_)
  rcases h w with hw | hw
  · rw [leaf_of_none hw]
    exact Multiset.zero_le _
  · unfold leaf
    rw [hw]

theorem leaves_remove (hv : v < trapVpn) (h : f v = some e) : leaves f = e.pa ::ₘ leaves (update f v none) := by
  have := leaves_change (f := f) (g := update f v none) hv (fun w _ hne => by simp [hne])
  rw [leaf_of_some h, leaf_of_none (update_self v none f), add_zero] at this
  rw [← this, add_comm, singleton_add]

theorem leaves_insert (hv : v < trapVpn) (h : f v = none) : leaves (update f v (some e)) = e.pa ::ₘ leaves f := by
  have := leaves_change (f := f) (g := update f v (some e)) hv (fun w _ hne => by simp [hne])
  rw [leaf_of_none h, leaf_of_some (update_self v (some e) f), add_zero] at this
  rw [this, add_comm, singleton_add]

/-! ## Well-formed tables -/

structure Wf (t : Pt) : Prop where
  pte : ∀ v e, t.pte v = some e → (t.l0 (v / 2 ^ 9)).isSome = true ∧ v < maxVpn
  l0 : ∀ j p, t.l0 j = some p → (t.l1 (j / 2 ^ 9)).isSome = true
  l1 : ∀ i p, t.l1 i = some p → i < 512

theorem div_div_level (v : Nat) : v / 2 ^ 9 / 2 ^ 9 = v / 2 ^ 18 := by omega

theorem Wf.slot_some (h : Wf t) (hv : t.pte v = some e) : t.slot v = some (some e) := by
  obtain ⟨h0, -⟩ := h.pte v e hv
  obtain ⟨p, hp⟩ := isSome_iff_exists.1 h0
  have h1 := h.l0 _ p hp
  rw [div_div_level] at h1
  rw [Pt.slot, if_pos ⟨h1, h0⟩, hv]

theorem pte_of_slot (h : t.slot v = some (some e)) : t.pte v = some e := by
  unfold Pt.slot at h
  split at h
  · exact some.inj h
  · cases h

theorem walk_spec {k : Kmem} (hF : v < maxVpn ∨ F .walk) (h : v < maxVpn → Q (t.slot v) k) : wp (walk t v) Q F k := by
  refine wp_ite (fun hv => ?_) (fun hv => ?_)
  · exact hF.resolve_left (by omega)
  · exact h (by omega)

theorem walkaddr_some (h : walkaddr t v = some pa) : v < maxVpn ∧ ∃ e, t.pte v = some e ∧ e.u = true ∧ e.pa = pa := by
  unfold walkaddr at h
  split at h
  · cases h
  split at h
  · rename_i e hs
    split at h
    · rename_i hu
      exact ⟨by omega, e, pte_of_slot hs, hu, some.inj h⟩
    · cases h
  · cases h

theorem Wf.walkaddr_of (h : Wf t) (hv : t.pte v = some e) (hu : e.u = true) : walkaddr t v = some e.pa := by
  have hlt := (h.pte v e hv).2
  unfold walkaddr
  rw [if_neg (by omega), h.slot_some hv]
  exact if_pos hu

theorem Wf.setPte (h : Wf t) (e' : Option Pte) (hv : t.pte v = some e) : Wf (t.setPte v e') := by
  refine ⟨fun w e2 hw => ?_, h.l0, h.l1⟩
  by_cases hwv : w = v
  · subst hwv
    exact h.pte w e hv
  · exact h.pte w e2 (by simpa [Pt.setPte, hwv] using hw)

theorem Wf.clearPte (h : Wf t) (v : Nat) : Wf (t.setPte v none) := by
  refine ⟨fun w e hw => ?_, h.l0, h.l1⟩
  by_cases hwv : w = v
  · subst hwv
    simp [Pt.setPte] at hw
  · exact h.pte w e (by simpa [Pt.setPte, hwv] using hw)

theorem walkAlloc_there (hv : v < maxVpn) (h1 : (t.l1 (v / 2 ^ 18)).isSome = true)
    (h0 : (t.l0 (v / 2 ^ 9)).isSome = true) : walkAlloc t v = pure (true, t) := by
  obtain ⟨p, hp⟩ := Option.isSome_iff_exists.1 h1
  obtain ⟨q, hq⟩ := Option.isSome_iff_exists.1 h0
  unfold walkAlloc walkAlloc1 walkAlloc0
  rw [if_neg (by omega), hp]
  simp only [pure_bind, if_true, hq]

/-! ## Memory -/

variable [Link] {k k' : Kmem} {E own : Multiset Nat} {α : Type} {perm : Flags}

theorem Acc.setMem (h : Acc k own) (m : Nat → Nat → UInt8) : Acc { k with mem := m } own :=
  ⟨h.ref, h.nodup, h.free, h.range⟩

omit [Link] in
theorem Keeps.setMem (hp : p ∉ own) (b : Nat → UInt8) : Keeps own k { k with mem := update k.mem p b } := by
  intro q hq
  have hne : q ≠ p := by
    rintro rfl
    exact hp hq
  exact ⟨update_of_ne hne _ _, id⟩

theorem kalloc_use {f : Option Nat → KM α} {Q : α → Kmem → Prop} (h : Acc k own) (hn : wp (f none) Q F k)
    (hs : ∀ p k', Acc k' (p ::ₘ own) → Keeps own k k' → p ∉ own → k'.ref p = 1 → wp (f (some p)) Q F k') :
    wp (kalloc >>= f) Q F k := by
  refine wp_then (kalloc_spec h) (fun r k' hr => ?_)
  cases r with
  | none =>
    rw [hr]
    exact hn
  | some p =>
    obtain ⟨ha, hk, hp, href⟩ := hr
    exact hs p k' ha hk hp href

theorem memset_use {b : UInt8} {f : Unit → KM α} {Q : α → Kmem → Prop} (ha : Acc k' (p ::ₘ own))
    (hk : Keeps own k k') (hp : p ∉ own) (href : k'.ref p = 1)
    (hs : ∀ k'', Acc k'' (p ::ₘ own) → Keeps own k k'' → k''.ref p = 1 → k''.mem p = (fun _ => b) → wp (f ()) Q F k'') :
    wp (memset p b >>= f) Q F k' := by exact hs _ (ha.setMem _) (hk.trans (Keeps.setMem hp _)) href (update_self ..)

/-! ## `walk` with `alloc` -/

section
variable (hw : Wf t)
include hw

section
omit [Link]

theorem tabs_newL1 (hv : v < maxVpn) (h1 : t.l1 (v / 2 ^ 18) = none) :
    (fun j => if j / 2 ^ 9 = v / 2 ^ 18 then none else t.l0 j) = t.l0 ∧
    tabs { t with l1 := update t.l1 (v / 2 ^ 18) (some p) } = p ::ₘ tabs t := by
  have hl0 : ∀ j, j / 2 ^ 9 = v / 2 ^ 18 → t.l0 j = none := by
    intro j hj
    by_contra hn
    obtain ⟨q, hq⟩ := ne_none_iff_exists'.1 hn
    have := hw.l0 j q hq
    rw [hj, h1] at this
    cases this
  refine ⟨funext (fun j => ?_), ?_⟩
  · split
    · rename_i hj
      exact (hl0 j hj).symm
    · rfl
  have hi : v / 2 ^ 18 ∈ entries := by
    rw [mem_entries]
    unfold maxVpn at hv
    omega
  have hc := sum_map_change (f := tab1 t) (g := tab1 { t with l1 := update t.l1 (v / 2 ^ 18) (some p) })
    nodup_entries hi (fun j _ hne => by simp only [tab1, update_of_ne hne])
  have hold : tab1 t (v / 2 ^ 18) = 0 := by simp only [tab1, h1]
  have hnew : tab1 { t with l1 := update t.l1 (v / 2 ^ 18) (some p) } (v / 2 ^ 18) = {p} := by
    simp only [tab1, update_self]
    rw [sum_map_zero]
    · rfl
    · intro j hj
      rw [mem_entries] at hj
      rw [hl0 _ (by omega)]
      rfl
  rw [hold, hnew, add_zero] at hc
  unfold tabs
  rw [hc, add_comm, singleton_add, cons_swap]

theorem tabs_newL0 (hv : v < maxVpn) (h1 : (t.l1 (v / 2 ^ 18)).isSome = true) (h0 : t.l0 (v / 2 ^ 9) = none) :
    (fun w => if w / 2 ^ 9 = v / 2 ^ 9 then none else t.pte w) = t.pte ∧
    tabs { t with l0 := update t.l0 (v / 2 ^ 9) (some p) } = p ::ₘ tabs t := by
  refine ⟨funext (fun w => ?_), ?_⟩
  · split
    · rename_i hj
      by_contra hn
      obtain ⟨e, he⟩ := ne_none_iff_exists'.1 (fun h => hn h.symm)
      have := (hw.pte w e he).1
      rw [hj, h0] at this
      cases this
    · rfl
  obtain ⟨q, hq⟩ := isSome_iff_exists.1 h1
  have hi : v / 2 ^ 18 ∈ entries := by
    rw [mem_entries]
    unfold maxVpn at hv
    omega
  have hj : v / 2 ^ 9 % 512 ∈ entries := mem_entries.2 (Nat.mod_lt _ (by omega))
  have hidx : 512 * (v / 2 ^ 18) + v / 2 ^ 9 % 512 = v / 2 ^ 9 := by omega
  have hinner := sum_map_change (f := fun j => opt (t.l0 (512 * (v / 2 ^ 18) + j)))
    (g := fun j => opt (update t.l0 (v / 2 ^ 9) (some p) (512 * (v / 2 ^ 18) + j))) nodup_entries hj
    (fun j _ hne => by rw [update_of_ne (by omega)])
  simp only [hidx, h0, update_self, opt_none, opt_some, add_zero] at hinner
  have hc := sum_map_change (f := tab1 t) (g := tab1 { t with l0 := update t.l0 (v / 2 ^ 9) (some p) })
    nodup_entries hi (fun j hj' hne => by
      rw [mem_entries] at hj'
      unfold tab1
      simp only
      split
      · rfl
      · rw [sum_map_congr (fun i hi => ?_)]
        rw [mem_entries] at hi
        rw [update_of_ne (by omega)])
  have hnew : tab1 { t with l0 := update t.l0 (v / 2 ^ 9) (some p) } (v / 2 ^ 18) =
      tab1 t (v / 2 ^ 18) + {p} := by
    simp only [tab1, hq]
    rw [hinner, cons_add]
  rw [hnew, ← add_assoc, add_right_comm] at hc
  have hsum := add_right_cancel hc
  unfold tabs
  rw [hsum, add_comm, singleton_add, cons_swap]

theorem Wf.newL1 (hv : v < maxVpn) : Wf { t with l1 := update t.l1 (v / 2 ^ 18) (some p) } := by
  refine ⟨hw.pte, fun j q hj => ?_, fun i q hi => ?_⟩ <;> dsimp only at *
  · by_cases e : j / 2 ^ 9 = v / 2 ^ 18
    · rw [e, update_self]
      rfl
    · rw [update_of_ne e]
      exact hw.l0 j q hj
  · by_cases e : i = v / 2 ^ 18
    · unfold maxVpn at hv
      omega
    · rw [update_of_ne e] at hi
      exact hw.l1 i q hi

theorem Wf.newL0 (h1 : (t.l1 (v / 2 ^ 18)).isSome = true) : Wf { t with l0 := update t.l0 (v / 2 ^ 9) (some p) } := by
  refine ⟨fun w e he => ⟨?_, (hw.pte w e he).2⟩, fun j q hj => ?_, hw.l1⟩ <;> dsimp only at *
  · by_cases ew : w / 2 ^ 9 = v / 2 ^ 9
    · rw [ew, update_self]
      rfl
    · rw [update_of_ne ew]
      exact (hw.pte w e he).1
  · by_cases e : j = v / 2 ^ 9
    · rw [e, div_div_level]
      exact h1
    · rw [update_of_ne e] at hj
      exact hw.l0 j q hj

theorem Wf.newPte (e : Option Pte) (hv : v < maxVpn) (h0 : (t.l0 (v / 2 ^ 9)).isSome = true) : Wf (t.setPte v e) := by
  refine ⟨fun w e' he => ?_, hw.l0, hw.l1⟩
  by_cases ew : w = v
  · rw [ew]
    exact ⟨h0, hv⟩
  · exact hw.pte w e' (by simpa [Pt.setPte, ew] using he)

end

/-- What `walk` with `alloc` and `mappages` keep: the table is well formed, and the pages it has taken are accounted. -/
structure Grown (E : Multiset Nat) (k : Kmem) (t : Pt) (k' : Kmem) (t' : Pt) : Prop where
  wf : Wf t'
  acc : Acc k' (E + tabs t')
  keeps : Keeps E k k'

theorem walkAlloc1_spec (hv : v < maxVpn) (ha : Acc k (E + tabs t)) :
    wp (walkAlloc1 t v) (fun r k' => Grown E k t k' r.2 ∧ r.2.pte = t.pte ∧
      (r.1 = true → (r.2.l1 (v / 2 ^ 18)).isSome = true)) F k := by
  unfold walkAlloc1
  split
  · rename_i p h1
    exact ⟨⟨hw, ha, Keeps.refl _ _⟩, rfl, fun _ => by rw [h1]; rfl⟩
  rename_i h1
  refine kalloc_use ha ⟨⟨hw, ha, Keeps.refl _ _⟩, rfl, nofun⟩ (fun p k1 ha1 hk1 hp href => ?_)
  refine memset_use ha1 hk1 hp href (fun k2 ha2 hk2 _ _ => ?_)
  obtain ⟨hl0, htabs⟩ := tabs_newL1 hw hv h1
  simp only [wp_pure, hl0]
  refine ⟨⟨hw.newL1 hv, ?_, hk2.mono (Multiset.le_add_right _ _)⟩, trivial, fun _ => by rw [update_self]; rfl⟩
  rw [htabs, add_cons]
  exact ha2

theorem walkAlloc0_spec (hv : v < maxVpn) (ha : Acc k (E + tabs t)) (h1 : (t.l1 (v / 2 ^ 18)).isSome = true) :
    wp (walkAlloc0 t v) (fun r k' => Grown E k t k' r.2 ∧ r.2.pte = t.pte ∧
      (r.1 = true → (r.2.l0 (v / 2 ^ 9)).isSome = true)) F k := by
  unfold walkAlloc0
  split
  · rename_i p h0
    exact ⟨⟨hw, ha, Keeps.refl _ _⟩, rfl, fun _ => by rw [h0]; rfl⟩
  rename_i h0
  refine kalloc_use ha ⟨⟨hw, ha, Keeps.refl _ _⟩, rfl, nofun⟩ (fun p k1 ha1 hk1 hp href => ?_)
  refine memset_use ha1 hk1 hp href (fun k2 ha2 hk2 _ _ => ?_)
  obtain ⟨hpte, htabs⟩ := tabs_newL0 hw hv h1 h0
  simp only [wp_pure, hpte]
  refine ⟨⟨hw.newL0 h1, ?_, hk2.mono (Multiset.le_add_right _ _)⟩, trivial, fun _ => by rw [update_self]; rfl⟩
  rw [htabs, add_cons]
  exact ha2

end

theorem walkAlloc_spec (hF : v < maxVpn ∨ F .walk) (hw : Wf t) (ha : Acc k (E + tabs t)) :
    wp (walkAlloc t v) (fun r k' => Grown E k t k' r.2 ∧ r.2.pte = t.pte ∧
      (r.1 = true → v < maxVpn ∧ (r.2.l0 (v / 2 ^ 9)).isSome = true)) F k := by
  refine wp_ite (fun hv => hF.resolve_left (by omega)) (fun hv => ?_)
  have hv : v < maxVpn := by omega
  refine wp_then (walkAlloc1_spec hw hv ha) (fun r k1 ⟨hg1, hp1, hl1⟩ => ?_)
  refine wp_ite (fun hok => ?_) (fun hok => ⟨hg1, hp1, nofun⟩)
  refine wp_use (walkAlloc0_spec hg1.wf hv hg1.acc (hl1 hok)) (fun r k2 ⟨hg2, hp2, hl2⟩ => ?_)
  exact ⟨⟨hg2.wf, hg2.acc, hg1.keeps.trans hg2.keeps⟩, hp2.trans hp1, fun h => ⟨hv, hl2 h⟩⟩

theorem mappages_spec (hF : (v < maxVpn ∨ F .walk) ∧ (t.pte v = none ∨ F .remap))
    (hw : Wf t) (ha : Acc k (E + tabs t)) : wp (mappages t v pa perm 1) (fun r k' => Grown E k t k' r.2 ∧
      (if r.1 then t.pte v = none ∧ r.2.pte = update t.pte v (some { perm with pa := pa }) ∧ v < maxVpn
       else r.2.pte = t.pte)) F k := by
  refine wp_then (walkAlloc_spec hF.1 hw ha) (fun r k1 ⟨hg, hp, hl⟩ => ?_)
  obtain ⟨ok, t1⟩ := r
  refine wp_ite (fun hok => ?_) (fun hok => ?_)
  · simp only [Bool.not_eq_true] at hok
    exact ⟨hg, hp⟩
  have hok : ok = true := by simpa using hok
  subst hok
  refine wp_ite (fun hsome => ?_) (fun hno => ?_)
  · refine hF.2.resolve_left (fun hnone => ?_)
    rw [hp, hnone] at hsome
    cases hsome
  obtain ⟨hv, h0⟩ := hl rfl
  have hnone : t.pte v = none := by
    rw [← hp]
    simpa using hno
  refine ⟨⟨hg.wf.newPte _ hv h0, hg.acc, hg.keeps⟩, ?_⟩
  exact ⟨hnone, by rw [Pt.setPte, hp], hv⟩

theorem mappages_grows : ∀ (n : Nat) {t : Pt} {v pa : Nat} {k : Kmem}, Wf t → Acc k (E + tabs t) →
    wp (mappages t v pa perm n) (fun r k' => Grown E k t k' r.2) Any k
  | 0, _, _, _, _, _, _ => trivial
  | n + 1, t, v, pa, k, hw, ha => by
    refine wp_then (walkAlloc_spec (.inr trivial) hw ha) (fun r k1 ⟨hg, hp, hl⟩ => ?_)
    obtain ⟨ok, t1⟩ := r
    refine wp_ite (fun _ => hg) (fun hok => wp_ite (fun _ => trivial) (fun _ => ?_))
    have hok : ok = true := by simpa using hok
    have hwf : Wf (t1.setPte v (some { perm with pa := pa })) := hg.wf.newPte _ (hl hok).1 (hl hok).2
    refine wp_ite (fun _ => ⟨hwf, hg.acc, hg.keeps⟩) (fun _ => ?_)
    refine wp_use (mappages_grows n hwf hg.acc) (fun r k2 hg2 => ⟨hg2.wf, hg2.acc, hg.keeps.trans hg2.keeps⟩)

/-! ## Unmapping and freeing -/

omit [Link] in
theorem lt_maxVpn (h : v < trapVpn) : v < maxVpn := by
  unfold trapVpn at h
  unfold maxVpn
  omega

/-- The entries without those of `n` pages from `v` on. -/
def cleared (f : Nat → Option Pte) (v n : Nat) : Nat → Option Pte := fun w => if v ≤ w ∧ w < v + n then none else f w

section
omit [Link]

theorem cleared_cons (f : Nat → Option Pte) (v n : Nat) : cleared (update f v none) (v + 1) n = cleared f v (n + 1) := by
  funext w
  unfold cleared
  by_cases e : w = v
  · subst e
    simp
  · rw [update_of_ne e]
    have : (v + 1 ≤ w ∧ w < v + 1 + n) ↔ (v ≤ w ∧ w < v + (n + 1)) := by omega
    simp only [this]

theorem cleared_none (n : Nat) (h : f v = none) : cleared f (v + 1) n = cleared f v (n + 1) := by
  rw [← cleared_cons, show update f v none = f from update_eq_self_iff.2 h.symm]

theorem cleared_le (f : Nat → Option Pte) (v n w : Nat) : cleared f v n w = none ∨ cleared f v n w = f w := by
  unfold cleared
  split
  · exact .inl rfl
  · exact .inr rfl

theorem Wf.walk (hw : Wf t) (hF : v < maxVpn ∨ F .walk) (hs : ∀ e, t.pte v = some e → Q (some (some e)) k)
    (hn : t.pte v = none → ∀ r, (r = none ∨ r = some none) → Q r k) : wp (walk t v) Q F k := by
  refine walk_spec hF (fun _ => ?_)
  cases he : t.pte v with
  | some e =>
    rw [hw.slot_some he]
    exact hs e he
  | none =>
    refine hn he _ ?_
    unfold Pt.slot
    split
    · exact .inr (by rw [he])
    · exact .inl rfl

end

/-- `walk` panics at `MAXVA`, whatever is mapped below. -/
theorem uvmunmap_high : ∀ (n : Nat) {t : Pt} {v : Nat} {k : Kmem}, Wf t → v + n ≤ maxVpn ∨ F .walk → v ≤ maxVpn →
    (∀ w, trapVpn ≤ w → w < v + n → t.pte w = none) → Acc k (E + uses t) →
    wp (uvmunmap t v true n) (fun t' k' => v + n ≤ maxVpn ∧ Wf t' ∧ tabs t' = tabs t ∧ t'.pte = cleared t.pte v n ∧
      Acc k' (E + uses t') ∧ Keeps (E + uses t') k k') F k
  | 0, t, v, k, hw, _, hv, _, ha => by
    have : cleared t.pte v 0 = t.pte := funext (fun w => if_neg (by omega))
    exact ⟨hv, hw, rfl, this.symm, ha, Keeps.refl _ _⟩
  | n + 1, t, v, k, hw, hF, hv, hhigh, ha => by
    have hF' : v + 1 + n ≤ maxVpn ∨ F .walk := hF.imp_left (by omega)
    unfold uvmunmap
    rw [wp_bind]
    by_cases hmax : v < maxVpn
    rotate_left
    · exact walk_spec (hF.imp_left (by omega)) (fun h => absurd h hmax)
    refine hw.walk (.inl hmax) (fun e he => ?_) (fun hn r hr => ?_)
    · simp only [if_true, wp_bind]
      have hv : v < trapVpn := by
        by_contra hge
        rw [hhigh v (by omega) (by omega)] at he
        cases he
      have hu : E + uses t = e.pa ::ₘ (E + uses (t.setPte v none)) := by
        unfold uses
        rw [leaves_remove hv he, add_cons, add_cons]
        rfl
      rw [hu] at ha
      refine wp_use (kfree_spec ha) ?_
      rintro _ k1 ⟨ha1, hk1⟩
      refine wp_use (uvmunmap_high n (hw.clearPte v) hF' hmax (fun w hge hlt => ?_) ha1) ?_
      · exact (update_of_ne (by omega) _ _).trans (hhigh w hge (by omega))
      rintro t' k2 ⟨hle, hw', ht', hp', ha', hk'⟩
      refine ⟨by omega, hw', ht', hp'.trans (cleared_cons ..), ha', Keeps.trans (hk1.mono ?_) hk'⟩
      refine add_le_add le_rfl (add_le_add (le_of_eq ht') (leaves_le (fun w => ?_)))
      rw [hp']
      exact cleared_le _ _ _ w
    · have hgoal : wp (uvmunmap t (v + 1) true n) (fun t' k' => v + (n + 1) ≤ maxVpn ∧ Wf t' ∧ tabs t' = tabs t ∧
          t'.pte = cleared t.pte v (n + 1) ∧ Acc k' (E + uses t') ∧ Keeps (E + uses t') k k') F k := by
        refine wp_use (uvmunmap_high n hw hF' hmax (fun w hge hlt => hhigh w hge (by omega)) ha) ?_
        rintro t' k' ⟨hle, hw', ht', hp', ha', hk'⟩
        exact ⟨by omega, hw', ht', hp'.trans (cleared_none n hn), ha', hk'⟩
      rcases hr with rfl | rfl <;> exact hgoal

theorem uvmunmap_free (n : Nat) (hw : Wf t) (hle : v + n ≤ trapVpn) (ha : Acc k (E + uses t)) :
    wp (uvmunmap t v true n) (fun t' k' => Wf t' ∧ tabs t' = tabs t ∧ t'.pte = cleared t.pte v n ∧
      Acc k' (E + uses t') ∧ Keeps (E + uses t') k k') F k := by
  have hmax : v + n ≤ maxVpn := by
    unfold trapVpn at hle
    unfold maxVpn
    omega
  exact wp_use (uvmunmap_high n hw (.inl hmax) (by omega) (fun w hge hlt => by omega) ha) (fun _ _ h => h.2)

theorem uvmunmap_keep : ∀ (n : Nat) {t : Pt} {v : Nat} {k : Kmem}, v + n ≤ maxVpn ∨ F .walk → Wf t →
    wp (uvmunmap t v false n) (fun t' k' => k' = k ∧ Wf t' ∧ tabs t' = tabs t ∧ t'.pte = cleared t.pte v n) F k
  | 0, t, v, k, _, hw => by
    have : cleared t.pte v 0 = t.pte := funext (fun w => if_neg (by omega))
    exact ⟨rfl, hw, rfl, this.symm⟩
  | n + 1, t, v, k, hF, hw => by
    have hF' : v + 1 + n ≤ maxVpn ∨ F .walk := hF.imp_left (by omega)
    unfold uvmunmap
    rw [wp_bind]
    refine hw.walk (hF.imp_left (by omega)) (fun e he => ?_) (fun hn r hr => ?_)
    · refine wp_use (uvmunmap_keep n hF' (hw.clearPte v)) (fun t' k' ⟨hk, hw', ht', hp'⟩ => ?_)
      exact ⟨hk, hw', ht', hp'.trans (cleared_cons ..)⟩
    have hgoal : wp (uvmunmap t (v + 1) false n) (fun t' k' => k' = k ∧ Wf t' ∧ tabs t' = tabs t ∧
        t'.pte = cleared t.pte v (n + 1)) F k := by
      refine wp_use (uvmunmap_keep n hF' hw) (fun t' k' ⟨hk, hw', ht', hp'⟩ => ?_)
      exact ⟨hk, hw', ht', hp'.trans (cleared_none n hn)⟩
    rcases hr with rfl | rfl <;> exact hgoal

section
variable (hF : (∀ v, t.pte v = none) ∨ F .freewalkLeaf)
include hF

theorem freeL0_spec (ha : Acc k (E + opt (t.l0 j))) : wp (freeL0 t j) (fun _ k' => Acc k' E ∧ Keeps E k k') F k := by
  unfold freeL0
  split
  · rename_i h
    rw [h, opt_none, add_zero] at ha
    exact ⟨ha, Keeps.refl _ _⟩
  · rename_i p h
    rw [h, opt_some, Multiset.add_comm, singleton_add] at ha
    refine wp_ite (fun hany => hF.resolve_left (fun hnone => ?_)) (fun _ => kfree_spec ha)
    simp [hnone] at hany

theorem freeL1_spec (ha : Acc k (E + tab1 t i)) : wp (freeL1 t i) (fun _ k' => Acc k' E ∧ Keeps E k k') F k := by
  unfold freeL1
  unfold tab1 at ha
  split
  · rename_i h
    simp only [h, add_zero] at ha
    exact ⟨ha, Keeps.refl _ _⟩
  rename_i p h
  simp only [h] at ha
  refine wp_then (wp_forM (I := fun js k' => Acc k' (E + p ::ₘ (js.map (fun j => opt (t.l0 (512 * i + j)))).sum) ∧
    Keeps E k k') (fun j js k1 ⟨ha1, hk1⟩ => ?_) entries k ⟨ha, Keeps.refl _ _⟩) (fun _ k1 ⟨ha1, hk1⟩ => ?_)
  · have hrw : E + p ::ₘ ((j :: js).map (fun j => opt (t.l0 (512 * i + j)))).sum =
        (E + p ::ₘ (js.map (fun j => opt (t.l0 (512 * i + j)))).sum) + opt (t.l0 (512 * i + j)) := by
      rw [List.map_cons, List.sum_cons, add_comm (opt _), ← cons_add, add_assoc]
    rw [hrw] at ha1
    refine wp_use (freeL0_spec hF ha1) (fun _ k2 ⟨ha2, hk2⟩ => ⟨ha2, hk1.trans (hk2.mono (Multiset.le_add_right _ _))⟩)
  · simp only [List.map_nil, List.sum_nil, add_cons, add_zero] at ha1
    exact wp_use (kfree_spec ha1) (fun _ k2 ⟨ha2, hk2⟩ => ⟨ha2, hk1.trans hk2⟩)

theorem freewalk_spec (ha : Acc k (E + tabs t)) : wp (freewalk t) (fun _ k' => Acc k' E ∧ Keeps E k k') F k := by
  refine wp_then (wp_forM (I := fun js k' => Acc k' (E + t.root ::ₘ (js.map (tab1 t)).sum) ∧ Keeps E k k')
    (fun j js k1 ⟨ha1, hk1⟩ => ?_) entries k ⟨ha, Keeps.refl _ _⟩) (fun _ k1 ⟨ha1, hk1⟩ => ?_)
  · have hrw : E + t.root ::ₘ ((j :: js).map (tab1 t)).sum = (E + t.root ::ₘ (js.map (tab1 t)).sum) + tab1 t j := by
      rw [List.map_cons, List.sum_cons, add_comm (tab1 t j), ← cons_add, add_assoc]
    rw [hrw] at ha1
    exact wp_use (freeL1_spec hF ha1) (fun _ k2 ⟨ha2, hk2⟩ => ⟨ha2, hk1.trans (hk2.mono (Multiset.le_add_right _ _))⟩)
  · simp only [List.map_nil, List.sum_nil, add_cons, add_zero] at ha1
    exact wp_use (kfree_spec ha1) (fun _ k2 ⟨ha2, hk2⟩ => ⟨ha2, hk1.trans hk2⟩)

end

end Xv6.Vm
