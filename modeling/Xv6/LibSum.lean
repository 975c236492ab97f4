import Mathlib
/-!
# LibSum — sums over a list of indices, one term of which changes

A table over the indices of a list contributes the sum of what its entries contribute. Changing one entry changes one
term (`sum_map_change`); what an entry contributes is part of the whole (`le_sum_map`).
-/
namespace Sum

open List
variable {ι M : Type} {α : Type} {i j : ι} {f : ι → Multiset α} {l : List ι} {a : α}

theorem sum_map_congr [AddCommMonoid M] {f g : ι → M} (h : ∀ i ∈ l, f i = g i) : (l.map f).sum = (l.map g).sum := by
  rw [map_congr_left h]

theorem sum_map_change [AddCommMonoid M] {f g : ι → M} :
    ∀ {l : List ι}, l.Nodup → i ∈ l → (∀ j ∈ l, j ≠ i → g j = f j) → (l.map g).sum + f i = (l.map f).sum + g i
  | [], _, hi, _ => by cases hi
  | j :: l, hn, hi, h => by
    obtain ⟨hj, hl⟩ := nodup_cons.1 hn
    simp only [map_cons, sum_cons]
    by_cases e : j = i
    · subst e
      have hrest : (l.map g).sum = (l.map f).sum :=
        sum_map_congr (fun a ha => h a (mem_cons_of_mem _ ha) (fun e => hj (e ▸ ha)))
      rw [hrest, add_right_comm, add_comm (g j), add_right_comm, add_comm (f j)]
    · have hi' : i ∈ l := (mem_cons.1 hi).resolve_left (fun h => e h.symm)
      have ih := sum_map_change hl hi' (fun a ha => h a (mem_cons_of_mem _ ha))
      rw [h j mem_cons_self e, add_assoc, ih, add_assoc]

theorem exists_rest [AddCommMonoid M] (f : ι → M) :
    ∀ {l : List ι}, l.Nodup → i ∈ l → ∃ r, ∀ g : ι → M, (∀ j ∈ l, j ≠ i → g j = f j) → (l.map g).sum = r + g i
  | [], _, hi => by cases hi
  | j :: l, hn, hi => by
    obtain ⟨hj, hl⟩ := nodup_cons.1 hn
    by_cases e : j = i
    · subst e
      refine ⟨(l.map f).sum, fun g hg => ?_⟩
      rw [map_cons, sum_cons, add_comm,
        sum_map_congr (fun a ha => hg a (mem_cons_of_mem _ ha) (fun e => hj (e ▸ ha)))]
    · obtain ⟨r, hr⟩ := exists_rest f hl ((mem_cons.1 hi).resolve_left (fun h => e h.symm))
      refine ⟨f j + r, fun g hg => ?_⟩
      rw [map_cons, sum_cons, hr g (fun a ha => hg a (mem_cons_of_mem _ ha)), hg j mem_cons_self e, add_assoc]

theorem sum_map_zero [AddCommMonoid M] {f : ι → M} (h : ∀ i ∈ l, f i = 0) : (l.map f).sum = 0 := by
  rw [sum_map_congr h, map_const', sum_replicate, nsmul_zero]

theorem le_sum_map : ∀ {l : List ι}, i ∈ l → f i ≤ (l.map f).sum
  | [], hi => by cases hi
  | j :: l, hi => by
    rcases mem_cons.1 hi with rfl | hi
    · exact Multiset.le_add_right _ _
    · exact le_trans (le_sum_map hi) (Multiset.le_add_left _ _)

theorem sum_map_le {g : ι → Multiset α} : ∀ {l : List ι}, (∀ i ∈ l, f i ≤ g i) → (l.map f).sum ≤ (l.map g).sum
  | [], _ => le_refl _
  | j :: l, h => by
    exact add_le_add (h j mem_cons_self) (sum_map_le (fun i hi => h i (mem_cons_of_mem _ hi)))

theorem mem_sum_map : ∀ {l : List ι}, a ∈ (l.map f).sum ↔ ∃ i ∈ l, a ∈ f i
  | [] => by simp
  | j :: l => by simp [mem_sum_map]

theorem count_sum_map [DecidableEq α] (f : ι → Multiset α) (a : α) :
    ∀ l : List ι, (l.map f).sum.count a = (l.map (fun i => (f i).count a)).sum
  | [] => rfl
  | j :: l => by simp [count_sum_map f a l]

theorem eq_of_nodup_sum : ∀ {l : List ι}, (l.map f).sum.Nodup → i ∈ l → j ∈ l → a ∈ f i → a ∈ f j → i = j
  | [], _, hi, _, _, _ => by cases hi
  | x :: l, hn, hi, hj, ha, ha' => by
    rw [map_cons, sum_cons, Multiset.nodup_add] at hn
    obtain ⟨-, hl, hd⟩ := hn
    rcases mem_cons.1 hi with rfl | hi' <;> rcases mem_cons.1 hj with rfl | hj'
    · rfl
    · exact absurd (mem_sum_map.2 ⟨j, hj', ha'⟩) (Multiset.disjoint_left.1 hd ha)
    · exact absurd (mem_sum_map.2 ⟨i, hi', ha⟩) (Multiset.disjoint_left.1 hd ha')
    · exact eq_of_nodup_sum hl hi' hj' ha ha'

end Sum
