import Mathlib
/-!
# LibFifo — a ring with free-running counters

A ring of `cap` cells is read at `r` and written at `w`, two counters modulo `m` that are never brought back into the ring:
a cell is the counter modulo `cap`. It works for any number of elements if `cap` divides `m` and is less than it. `Holds`
says which elements are in the ring, in order; the tests and the two operations are stated in its terms.
-/
namespace Fifo

open Function List
variable {α : Type} {cap m : Nat} {data : Nat → α} {r w taken : Nat} {unread : List α} {x : α}

/-- **The ring holds `unread`**, after `taken` elements have been taken out of it. -/
structure Holds (cap m : Nat) (data : Nat → α) (r w taken : Nat) (unread : List α) : Prop where
  read : r = taken % m
  write : w = (taken + unread.length) % m
  le : unread.length ≤ cap
  cell : ∀ j x, unread[j]? = some x → data ((taken + j) % cap) = x

theorem holds_nil (data : Nat → α) (cap m : Nat) : Holds cap m data 0 0 0 [] :=
  ⟨(Nat.zero_mod m).symm, (Nat.zero_mod m).symm, Nat.zero_le _, fun j x h => by simp at h⟩

section
variable (h : Holds cap m data r w taken unread)
include h

theorem Holds.count (hm : cap < m) : (w + m - r) % m = unread.length := by
  have hle := h.le
  have hr : taken % m < m := Nat.mod_lt _ (by omega)
  have hw : (taken + unread.length) % m = (taken % m + unread.length) % m := by rw [Nat.mod_add_mod]
  rw [h.read, h.write, hw]
  by_cases hlt : taken % m + unread.length < m
  · rw [Nat.mod_eq_of_lt hlt, show taken % m + unread.length + m - taken % m = unread.length + m by omega, Nat.add_mod_right,
      Nat.mod_eq_of_lt (by omega)]
  · have hs : (taken % m + unread.length) % m = taken % m + unread.length - m := by
      rw [Nat.mod_eq_sub_mod (by omega), Nat.mod_eq_of_lt (by omega)]
    rw [hs, show taken % m + unread.length - m + m - taken % m = unread.length by omega, Nat.mod_eq_of_lt (by omega)]

theorem Holds.empty_iff (hm : cap < m) : r = w ↔ unread = [] := by
  constructor
  · intro e
    have hc := h.count hm
    rw [← e, show r + m - r = m by omega, Nat.mod_self] at hc
    exact length_eq_zero_iff.1 hc.symm
  · intro e
    rw [h.read, h.write, e, length_nil, add_zero]

theorem Holds.full_iff (hm : cap < m) : w = (r + cap) % m ↔ unread.length = cap := by
  have hle := h.le
  have hmod : (r + cap) % m = (taken + cap) % m := by rw [h.read, Nat.mod_add_mod]
  rw [hmod, h.write]
  constructor
  · intro e
    have hme : unread.length ≡ cap [MOD m] := Nat.ModEq.add_left_cancel' taken e
    unfold Nat.ModEq at hme
    rwa [Nat.mod_eq_of_lt (by omega), Nat.mod_eq_of_lt hm] at hme
  · intro e
    rw [e]

theorem Holds.push (hd : cap ∣ m) (hlt : unread.length < cap) (x : α) :
    Holds cap m (update data (w % cap) x) r ((w + 1) % m) taken (unread ++ [x]) := by
  have hw : w % cap = (taken + unread.length) % cap := by rw [h.write, Nat.mod_mod_of_dvd _ hd]
  refine ⟨h.read, ?_, ?_, fun j y hy => ?_⟩
  · rw [h.write, Nat.mod_add_mod, length_append, length_singleton, Nat.add_assoc]
  · rw [length_append, length_singleton]
    omega
  rcases Nat.lt_trichotomy j unread.length with hj | hj | hj
  · -- the cells in use lie within one turn of the ring before the new one
    rw [getElem?_append_left hj] at hy
    have hne : (taken + j) % cap ≠ w % cap := fun e => by
      rw [hw] at e
      have hme : j ≡ unread.length [MOD cap] := Nat.ModEq.add_left_cancel' taken e
      unfold Nat.ModEq at hme
      rw [Nat.mod_eq_of_lt (by omega), Nat.mod_eq_of_lt hlt] at hme
      omega
    rw [update_of_ne hne]
    exact h.cell j y hy
  · subst hj
    rw [getElem?_append_right le_rfl, Nat.sub_self] at hy
    rw [← hw, update_self]
    exact Option.some.inj hy
  · rw [getElem?_eq_none (by rw [length_append, length_singleton]; omega)] at hy
    cases hy

end

theorem Holds.pop (h : Holds cap m data r w taken (x :: unread)) (hd : cap ∣ m) :
    data (r % cap) = x ∧ Holds cap m data ((r + 1) % m) w (taken + 1) unread := by
  have hle := h.le
  rw [length_cons] at hle
  refine ⟨?_, ?_, ?_, by omega, fun j y hy => ?_⟩
  · rw [h.read, Nat.mod_mod_of_dvd _ hd]
    exact h.cell 0 x rfl
  · rw [h.read, Nat.mod_add_mod]
  · rw [h.write, length_cons, add_assoc, add_comm 1]
  · rw [add_assoc, add_comm 1]
    exact h.cell (j + 1) y hy

theorem mod_back (a : Nat) (hm : 0 < m) : ((a + 1) % m + m - 1) % m = a % m := by
  have hsub : (a + 1) % m + m - 1 = (a + 1) % m + (m - 1) := by omega
  rw [hsub, Nat.mod_add_mod, show a + 1 + (m - 1) = a + m by omega, Nat.add_mod_right]

theorem Holds.unpush (h : Holds cap m data r w taken (unread ++ [x])) (hd : cap ∣ m) (hm : 0 < m) :
    data ((w + m - 1) % m % cap) = x ∧ Holds cap m data r ((w + m - 1) % m) taken unread := by
  have hle := h.le
  rw [length_append, length_singleton] at hle
  have hw : (w + m - 1) % m = (taken + unread.length) % m := by
    rw [h.write, length_append, length_singleton, ← add_assoc, mod_back _ hm]
  rw [hw]
  refine ⟨?_, h.read, rfl, by omega, fun j y hy => ?_⟩
  · rw [Nat.mod_mod_of_dvd _ hd]
    exact h.cell unread.length x getElem?_concat_length
  · exact h.cell j y ((List.getElem?_append_left (List.getElem?_eq_some_iff.1 hy).1).trans hy)

theorem Holds.front {back : List α} (h : Holds cap m data r w taken (unread ++ back)) :
    Holds cap m data r ((taken + unread.length) % m) taken unread := by
  have hle := h.le
  rw [length_append] at hle
  exact ⟨h.read, rfl, by omega, fun j y hy =>
    h.cell j y ((List.getElem?_append_left (List.getElem?_eq_some_iff.1 hy).1).trans hy)⟩

theorem Holds.back {front : List α} (h : Holds cap m data r w taken (front ++ unread)) :
    Holds cap m data ((taken + front.length) % m) w (taken + front.length) unread := by
  have hle := h.le
  rw [length_append] at hle
  refine ⟨rfl, ?_, by omega, fun j y hy => ?_⟩
  · rw [h.write, length_append, add_assoc]
  · rw [add_assoc]
    apply h.cell
    rw [getElem?_append_right (Nat.le_add_right _ _), Nat.add_sub_cancel_left]
    exact hy

end Fifo
