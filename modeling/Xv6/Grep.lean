import Mathlib
/-!
# Grep — the matcher of `grep.c`

A C string is the list of its bytes, and `text++` goes to the tail. `items` reads a pattern as the sequence it stands for;
`match` finds exactly the texts with a place where a prefix is matched by that sequence (`match_iff`).
-/
namespace Xv6.Grep

open List

abbrev Text := List UInt8

def dot : UInt8 := 46
def star : UInt8 := 42
def dollar : UInt8 := 36
def caret : UInt8 := 94

/-- `matchstar`, with `matchhere` of the rest of the pattern. -/
def matchstar (here : Text → Bool) (c : UInt8) : Text → Bool
  | [] => here []
  | t :: text => here (t :: text) || ((t = c || c = dot) && matchstar here c text)

def matchhere : Text → Text → Bool
  | [], _ => true
  | [c], text =>
    if c = dollar then text.isEmpty
    else match text with
      | [] => false
      | t :: _ => c = dot || c = t
  | c :: d :: re, text =>
    if d = star then matchstar (matchhere re) c text
    else match text with
      | [] => false
      | t :: text => (c = dot || c = t) && matchhere (d :: re) text

def search (re : Text) : Text → Bool
  | [] => matchhere re []
  | t :: text => matchhere re (t :: text) || search re text

def «match» (re text : Text) : Bool :=
  match re with
  | c :: re => if c = caret then matchhere re text else search (c :: re) text
  | [] => search [] text

/-! ## The pattern language -/

inductive Item where
  | star (c : UInt8)
  | one (c : UInt8)
  | eol
  deriving DecidableEq

def items : Text → List Item
  | [] => []
  | [c] => [if c = dollar then .eol else .one c]
  | c :: d :: re => if d = star then .star c :: items re else .one c :: items (d :: re)

def stands (c t : UInt8) : Prop := c = dot ∨ c = t

/-- The item matches `w` where `rest` follows. -/
def Item.Matches : Item → Text → Text → Prop
  | .star c, w, _ => ∀ t ∈ w, stands c t
  | .one c, w, _ => ∃ t, w = [t] ∧ stands c t
  | .eol, w, rest => w = [] ∧ rest = []

/-- The sequence matches `w` where `rest` follows. -/
def Matches : List Item → Text → Text → Prop
  | [], w, _ => w = []
  | it :: its, w, rest => ∃ u v, w = u ++ v ∧ it.Matches u (v ++ rest) ∧ Matches its v rest

/-- Some prefix of the text is matched. -/
def Prefixed (its : List Item) (text : Text) : Prop := ∃ w rest, text = w ++ rest ∧ Matches its w rest

theorem prefixed_nil (text : Text) : Prefixed [] text := ⟨[], text, rfl, rfl⟩

theorem prefixed_cons (it : Item) (its : List Item) (text : Text) :
    Prefixed (it :: its) text ↔ ∃ u v, text = u ++ v ∧ it.Matches u v ∧ Prefixed its v := by
  constructor
  · rintro ⟨w, rest, rfl, u, v, rfl, hu, hv⟩
    exact ⟨u, v ++ rest, append_assoc .., hu, v, rest, rfl, hv⟩
  · rintro ⟨u, v, rfl, hu, w, rest, rfl, hw⟩
    exact ⟨u ++ w, rest, (append_assoc ..).symm, u, w, rfl, hu, hw⟩

theorem prefixed_one (c : UInt8) (its : List Item) (text : Text) :
    Prefixed (.one c :: its) text ↔ ∃ t rest, text = t :: rest ∧ stands c t ∧ Prefixed its rest := by
  rw [prefixed_cons]
  constructor
  · rintro ⟨u, v, rfl, ⟨t, rfl, ht⟩, hv⟩
    exact ⟨t, v, rfl, ht, hv⟩
  · rintro ⟨t, v, rfl, ht, hv⟩
    exact ⟨[t], v, rfl, ⟨t, rfl, ht⟩, hv⟩

theorem matchstar_iff (here : Text → Bool) (c : UInt8) : ∀ text, matchstar here c text = true ↔
    ∃ u v, text = u ++ v ∧ (∀ t ∈ u, stands c t) ∧ here v = true
  | [] => by simp [matchstar]
  | t :: text => by
    have ht : (decide (t = c) || decide (c = dot)) = true ↔ stands c t := by
      rw [Bool.or_eq_true, decide_eq_true_eq, decide_eq_true_eq, or_comm, eq_comm (a := t)]
      rfl
    rw [matchstar, Bool.or_eq_true, Bool.and_eq_true, ht, matchstar_iff here c text]
    constructor
    · rintro (h | ⟨hc, u, v, rfl, hu, hv⟩)
      · exact ⟨[], t :: text, rfl, by simp, h⟩
      · exact ⟨t :: u, v, rfl, by simpa [hc] using hu, hv⟩
    · rintro ⟨u, v, he, hu, hv⟩
      cases u with
      | nil => exact .inl (he ▸ hv)
      | cons x u =>
        obtain ⟨rfl, rfl⟩ := cons.inj he
        exact .inr ⟨hu t mem_cons_self, u, v, rfl, fun t ht => hu t (mem_cons_of_mem _ ht), hv⟩

theorem matchhere_iff : ∀ re text, matchhere re text = true ↔ Prefixed (items re) text
  | [], text => by simp [matchhere, items, prefixed_nil]
  | [c], text => by
    unfold matchhere items
    by_cases hc : c = dollar
    · rw [if_pos hc, if_pos hc, prefixed_cons]
      simp [Item.Matches, prefixed_nil]
    · rw [if_neg hc, if_neg hc, prefixed_one]
      cases text <;> simp [stands, prefixed_nil]
  | c :: d :: re, text => by
    unfold matchhere items
    by_cases hd : d = star
    · rw [if_pos hd, if_pos hd, matchstar_iff, prefixed_cons]
      simp only [Item.Matches, matchhere_iff re]
    · rw [if_neg hd, if_neg hd, prefixed_one]
      cases text with
      | nil => simp
      | cons t text => simp [stands, matchhere_iff (d :: re) text]

theorem search_iff (re : Text) : ∀ text, search re text = true ↔ ∃ u v, text = u ++ v ∧ Prefixed (items re) v
  | [] => by simp [search, matchhere_iff]
  | t :: text => by
    rw [search, Bool.or_eq_true, matchhere_iff, search_iff re text]
    constructor
    · rintro (h | ⟨u, v, rfl, hv⟩)
      · exact ⟨[], t :: text, rfl, h⟩
      · exact ⟨t :: u, v, rfl, hv⟩
    · rintro ⟨u, v, he, hv⟩
      cases u with
      | nil => exact .inl (he ▸ hv)
      | cons x u =>
        cases he
        exact .inr ⟨u, v, rfl, hv⟩

/-- **The matcher implements its pattern language**: `match` holds exactly when the sequence that the pattern stands for
matches a prefix of some suffix of the text, or of the text itself if the pattern starts with `^`. -/
theorem match_iff (re text : Text) : «match» re text = true ↔
    if re.head? = some caret then Prefixed (items re.tail) text else ∃ u v, text = u ++ v ∧ Prefixed (items re) v := by
  unfold «match»
  cases re with
  | nil => simpa using search_iff [] text
  | cons c re =>
    by_cases hc : c = caret
    · simp [hc, matchhere_iff]
    · simpa [hc] using search_iff (c :: re) text

example : «match» [94, 97, 42, 98, 36] [97, 97, 98] = true ∧ «match» [94, 97, 42, 98, 36] [97, 98, 99] = false := by decide

end Xv6.Grep
