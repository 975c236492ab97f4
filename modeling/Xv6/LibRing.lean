import Mathlib
/-!
# LibRing — doubly linked rings with a sentinel

Nodes are `Option ι`: `none` is the sentinel, `some i` a cell. `Seg g a l b` says that `next` leads from `a` through the
cells `l` to `b` and `prev` leads back. A ring is a segment from the sentinel to itself that visits no cell twice.
Unlinking a cell and linking it in behind the sentinel keep the ring, and a search along either direction finds what
`List.find?` finds in the cells or in their reverse.
-/
namespace Ring

open Function List
variable {ι : Type} [DecidableEq ι]

structure Links (ι : Type) where
  next : Option ι → Option ι
  prev : Option ι → Option ι

def Links.setNext (g : Links ι) (n m : Option ι) : Links ι := { g with next := update g.next n m }

def Links.setPrev (g : Links ι) (n m : Option ι) : Links ι := { g with prev := update g.prev n m }

/-- Take `i` out of the list it stands in. -/
def Links.unlink (g : Links ι) (i : ι) : Links ι :=
  let g := g.setPrev (g.next (some i)) (g.prev (some i))
  g.setNext (g.prev (some i)) (g.next (some i))

/-- Put `i` right behind the sentinel. -/
def Links.insert (g : Links ι) (i : ι) : Links ι :=
  let g := g.setNext (some i) (g.next none)
  let g := g.setPrev (some i) none
  let g := g.setPrev (g.next none) (some i)
  g.setNext none (some i)

def Links.empty : Links ι := ⟨fun _ => none, fun _ => none⟩

def Seg (g : Links ι) : Option ι → List ι → Option ι → Prop
  | a, [], b => g.next a = b ∧ g.prev b = a
  | a, i :: l, b => g.next a = some i ∧ g.prev (some i) = a ∧ Seg g (some i) l b

/-- **`l` is the ring**: the cells `next` visits from the sentinel back to it, and `prev` in the opposite order. -/
structure IsRing (g : Links ι) (l : List ι) : Prop where
  nodup : l.Nodup
  seg : Seg g none l none

/-! ## Segments -/

variable {g : Links ι} {i : ι}

section
omit [DecidableEq ι]

theorem Seg.append : ∀ {a b : Option ι} {l₁ l₂ : List ι},
    Seg g a (l₁ ++ i :: l₂) b ↔ Seg g a l₁ (some i) ∧ Seg g (some i) l₂ b
  | _, _, [], _ => and_assoc.symm
  | _, _, _ :: l₁, l₂ => by
    rw [cons_append, Seg, Seg, Seg.append, and_assoc, and_assoc]

theorem Seg.congr {g' : Links ι} : ∀ {a b : Option ι} {l : List ι}, Seg g a l b →
    (∀ n, n = a ∨ n ∈ l.map some → g'.next n = g.next n) → (∀ n, n ∈ l.map some ∨ n = b → g'.prev n = g.prev n) →
    Seg g' a l b
  | _, _, [], h, hn, hp => ⟨(hn _ (.inl rfl)).trans h.1, (hp _ (.inr rfl)).trans h.2⟩
  | _, _, i :: l, h, hn, hp => by
    have hi : some i ∈ (i :: l).map some := mem_cons_self
    refine ⟨(hn _ (.inl rfl)).trans h.1, (hp _ (.inl hi)).trans h.2.1, h.2.2.congr ?_ ?_⟩
    · rintro n (rfl | hl)
      · exact hn _ (.inr hi)
      · exact hn _ (.inr (mem_cons_of_mem _ hl))
    · rintro n (hl | rfl)
      · exact hp _ (.inl (mem_cons_of_mem _ hl))
      · exact hp _ (.inr rfl)

theorem Seg.prev_mem :
    ∀ {a b : Option ι} {l : List ι}, Seg g a l b → g.prev b = a ∨ g.prev b ∈ l.map some
  | _, _, [], h => .inl h.2
  | _, _, i :: l, h => by
    rcases h.2.2.prev_mem with he | he
    · exact .inr (he ▸ mem_cons_self)
    · exact .inr (mem_cons_of_mem _ he)

theorem Seg.next_mem {a b : Option ι} {l : List ι} (h : Seg g a l b) : g.next a ∈ l.map some ∨ g.next a = b := by
  cases l with
  | nil => exact .inr h.1
  | cons i l => exact .inl (h.1 ▸ mem_cons_self)

/-! ## Unlinking and inserting -/

end

theorem unlink_next (g : Links ι) (i : ι) (n : Option ι) (h : g.next (some i) ≠ some i) :
    (g.unlink i).next n = if n = g.prev (some i) then g.next (some i) else g.next n := by
  have hp : update g.prev (g.next (some i)) (g.prev (some i)) (some i) = g.prev (some i) :=
    update_of_ne (Ne.symm h) _ _
  simp [Links.unlink, Links.setNext, Links.setPrev, hp, update_apply]

theorem unlink_prev (g : Links ι) (i : ι) (n : Option ι) :
    (g.unlink i).prev n = if n = g.next (some i) then g.prev (some i) else g.prev n := by
  simp [Links.unlink, Links.setNext, Links.setPrev, update_apply]

theorem Seg.unlink {l₂ : List ι} {b : Option ι} (h₂ : Seg g (some i) l₂ b) (hi : i ∉ l₂)
    (hb : b ≠ some i) (hl₂ : l₂.Nodup) (hbl : b ∉ l₂.map some) :
    ∀ {a : Option ι} {l₁ : List ι}, Seg g a l₁ (some i) → (∀ x ∈ l₁, x ∉ l₂) → (∀ x ∈ l₁, some x ≠ b) → l₁.Nodup →
      a ∉ (l₁ ++ l₂).map some → Seg (g.unlink i) a (l₁ ++ l₂) b := by
  have hmem : ∀ x : ι, some x ∈ l₂.map some ↔ x ∈ l₂ := fun x => by simp
  have hne : g.next (some i) ≠ some i := by
    rcases h₂.next_mem with h | h
    · intro e
      exact hi ((hmem i).1 (e ▸ h))
    · exact h ▸ hb
  intro a l₁ h₁ hd hdb hl₁ ha
  induction l₁ generalizing a with
  | nil =>
    obtain ⟨hna, hpi⟩ := h₁
    cases l₂ with
    | nil => exact ⟨by rw [unlink_next g i a hne, if_pos hpi.symm]; exact h₂.1,
        by rw [unlink_prev, if_pos h₂.1.symm]; exact hpi⟩
    | cons y l₂ =>
      obtain ⟨hny, hpy, hs⟩ := h₂
      refine ⟨by rw [unlink_next g i a hne, if_pos hpi.symm]; exact hny,
        by rw [unlink_prev, if_pos hny.symm]; exact hpi, hs.congr ?_ ?_⟩
      · intro n hn
        rw [unlink_next g i n hne, if_neg]
        rintro rfl
        rw [hpi] at hn
        exact ha (mem_cons.2 hn)
      · intro n hn
        rw [unlink_prev, if_neg]
        rintro rfl
        rw [hny] at hn
        rcases hn with hn | hn
        · exact (nodup_cons.1 hl₂).1 (by simpa using hn)
        · exact hbl (hn ▸ mem_cons_self)
  | cons x l₁ ih =>
    obtain ⟨hna, hpx, hs⟩ := h₁
    have hxl : x ∉ l₁ := (nodup_cons.1 hl₁).1
    have hxl₂ : x ∉ l₂ := hd x mem_cons_self
    refine ⟨?_, ?_, ih hs (fun z hz => hd z (mem_cons_of_mem _ hz)) (fun z hz => hdb z (mem_cons_of_mem _ hz))
      (nodup_cons.1 hl₁).2 (by simp [hxl, hxl₂])⟩
    · rw [unlink_next g i a hne, if_neg]
      · exact hna
      rintro rfl
      apply ha
      rcases hs.prev_mem with he | he
      · rw [he]; simp
      · rw [cons_append, map_cons, map_append]
        exact mem_cons_of_mem _ (mem_append_left _ he)
    · rw [unlink_prev, if_neg]
      · exact hpx
      · intro e
        rcases h₂.next_mem with he | he
        · exact hxl₂ ((hmem x).1 (e ▸ he))
        · exact hdb x mem_cons_self (e.trans he)

theorem IsRing.unlink {l₁ l₂ : List ι} (h : IsRing g (l₁ ++ i :: l₂)) : IsRing (g.unlink i) (l₁ ++ l₂) := by
  obtain ⟨h₁, h₂⟩ := Seg.append.1 h.seg
  have hnd := nodup_append.1 h.nodup
  obtain ⟨hi, hl₂⟩ := nodup_cons.1 hnd.2.1
  refine ⟨nodup_append.2 ⟨hnd.1, hl₂, fun x hx y hy => hnd.2.2 x hx y (mem_cons_of_mem _ hy)⟩,
    Seg.unlink h₂ hi (by simp) hl₂ (by simp) h₁ (fun x hx hx₂ => hnd.2.2 x hx x (mem_cons_of_mem _ hx₂) rfl)
      (by simp) hnd.1 (by simp)⟩

theorem insert_next {n : Option ι} :
    (g.insert i).next n = if n = none then some i else if n = some i then g.next none else g.next n := by
  simp [Links.insert, Links.setNext, Links.setPrev, update_apply]

theorem insert_prev {n : Option ι} :
    (g.insert i).prev n = if n = g.next none then some i else if n = some i then none else g.prev n := by
  simp [Links.insert, Links.setNext, Links.setPrev, update_apply]

theorem IsRing.insert {l : List ι} (h : IsRing g l) (hi : i ∉ l) : IsRing (g.insert i) (i :: l) := by
  have hnone : g.next none ≠ some i := by
    rcases h.seg.next_mem with he | he
    · intro e
      exact hi (by simpa [e] using he)
    · rw [he]; simp
  refine ⟨nodup_cons.2 ⟨hi, h.nodup⟩, ?_, ?_, ?_⟩
  · rw [insert_next, if_pos rfl]
  · rw [insert_prev, if_neg (Ne.symm hnone), if_pos rfl]
  cases l with
  | nil =>
    obtain ⟨hn, -⟩ := h.seg
    exact ⟨by rw [insert_next]; simpa using hn, by rw [insert_prev, if_pos hn.symm]⟩
  | cons j l =>
    obtain ⟨hn, hp, hs⟩ := h.seg
    have hj : j ∉ l := (nodup_cons.1 h.nodup).1
    refine ⟨by rw [insert_next]; simpa using hn, by rw [insert_prev, if_pos hn.symm], hs.congr ?_ ?_⟩
    · intro n hm
      obtain ⟨x, rfl, hx⟩ : ∃ x, n = some x ∧ x ∈ j :: l := by
        rcases hm with rfl | hm
        · exact ⟨j, rfl, mem_cons_self⟩
        · obtain ⟨x, hx, rfl⟩ := mem_map.1 hm
          exact ⟨x, rfl, mem_cons_of_mem _ hx⟩
      rw [insert_next, if_neg (by simp), if_neg]
      rintro ⟨⟩
      exact hi hx
    · intro n hm
      have hnj : n ≠ some j := by
        rintro rfl
        exact hj (by simpa using hm)
      have hni : n ≠ some i := by
        rintro rfl
        exact hi (mem_cons_of_mem _ (by simpa using hm))
      rw [insert_prev, if_neg (by rw [hn]; exact hnj), if_neg hni]

omit [DecidableEq ι] in
theorem isRing_empty : IsRing (Links.empty : Links ι) [] := ⟨List.nodup_nil, rfl, rfl⟩

/-! ## Searching -/

/-- Follow `step` until a cell satisfies `p` (`some (some i)`) or the sentinel comes round (`some none`). -/
def search (step : Option ι → Option ι) (p : ι → Bool) : Nat → Option ι → Option (Option ι)
  | 0, _ => none
  | _ + 1, none => some none
  | n + 1, some i => if p i then some (some i) else search step p n (step (some i))

omit [DecidableEq ι] in
theorem Seg.search_next (p : ι → Bool) : ∀ {a : Option ι} {l : List ι} {n : Nat}, Seg g a l none →
    l.length < n → search g.next p n (g.next a) = some (l.find? p)
  | _, [], n + 1, h, _ => by rw [h.1]; rfl
  | _, i :: l, n + 1, h, hn => by
    rw [h.1, search, find?_cons]
    split
    · rename_i hp
      rw [hp]
    · rename_i hp
      rw [Bool.eq_false_iff.2 hp]
      exact h.2.2.search_next p (by simpa using hn)

omit [DecidableEq ι] in
theorem Seg.search_prev (p : ι → Bool) : ∀ {l : List ι} {b : Option ι} {n : Nat}, Seg g none l.reverse b →
    l.length < n → search g.prev p n (g.prev b) = some (l.find? p)
  | [], _, n + 1, h, _ => by rw [h.2]; rfl
  | i :: l, _, n + 1, h, hn => by
    rw [reverse_cons, Seg.append] at h
    rw [h.2.2, search, find?_cons]
    split
    · rename_i hp
      rw [hp]
    · rename_i hp
      rw [Bool.eq_false_iff.2 hp]
      exact h.1.search_prev p (by simpa using hn)

end Ring
