import Xv6.LibWp
import Xv6.Param
/-!
# VmKalloc — `kalloc.c`: the page allocator and its reference counts

A physical page is its number, `pa / PGSIZE`; its bytes are `mem`. The free list is a list of pages (the links the source
keeps in the free pages themselves are not bytes anybody reads).

`Acc k own` is what the allocator keeps: `own`, a multiset of pages, holds one entry for every use of a page, the
reference count of a page is its multiplicity, and the pages of no use are the free list, each once.
-/
namespace Xv6.Vm

open Multiset Function Wp

/-- The linker's `end`, as a page number: `kinit` starts with the first whole page after the kernel. -/
class Link where
  endPage : Nat
  /-- The page of the trampoline code, inside the kernel. -/
  trampoline : Nat
  etext : Nat

def stopPage : Nat := (0x80000000 + 128 * 1024 * 1024) / 4096

inductive Panic where
  | kfree
  | walk
  | mappagesSize
  | remap
  | freewalkLeaf
  | uvmclear
  | loadseg
  | kvmmap
  | kalloc
  | virtioDisk
  | userinit
  | fileclose
  | filedup
  | exec
  | initExiting
  deriving DecidableEq, Repr

structure Kmem where
  ref : Nat → Int
  free : List Nat
  mem : Nat → Nat → UInt8

abbrev KM := StateT Kmem (Except Panic)

/-- The uses `own` of pages are left alone: their bytes are unchanged, and a sole use stays one. -/
def Keeps (own : Multiset Nat) (k k' : Kmem) : Prop := ∀ p ∈ own, k'.mem p = k.mem p ∧ (k.ref p = 1 → k'.ref p = 1)

theorem Keeps.refl (own : Multiset Nat) (k : Kmem) : Keeps own k k := fun _ _ => ⟨rfl, id⟩

variable {k k' : Kmem} {own own' : Multiset Nat} {p : Nat} {F : Panic → Prop}

theorem Keeps.trans {k'' : Kmem} (h : Keeps own k k') (h' : Keeps own k' k'') : Keeps own k k'' :=
  fun p hp => ⟨(h' p hp).1.trans (h p hp).1, fun e => (h' p hp).2 ((h p hp).2 e)⟩

theorem Keeps.mono (h : Keeps own k k') (hle : own' ≤ own) : Keeps own' k k' :=
  fun p hp => h p (Multiset.mem_of_le hle hp)

variable [Link]

def InRange (p : Nat) : Prop := Link.endPage ≤ p ∧ p < stopPage

instance (p : Nat) : Decidable (InRange p) := inferInstanceAs (Decidable (_ ∧ _))

def incref (p : Nat) : KM Unit := modify fun k => { k with ref := update k.ref p (k.ref p + 1) }

def decref (p : Nat) : KM Unit := modify fun k => { k with ref := update k.ref p (k.ref p - 1) }

def getref (p : Nat) : KM Int := do
  let k ← get
  return k.ref p

def memset (p : Nat) (b : UInt8) : KM Unit := modify fun k => { k with mem := update k.mem p (fun _ => b) }

def kfree (p : Nat) : KM Unit := do
  if ¬ InRange p then throw .kfree
  decref p
  let n ← getref p
  if n ≠ 0 then return ()
  memset p 1
  modify fun k => { k with free := p :: k.free }

def kalloc : KM (Option Nat) := do
  let k ← get
  match k.free with
  | [] => return none
  | r :: rest =>
    set { k with free := rest }
    memset r 5
    modify fun k => { k with ref := update k.ref r 1 }
    return some r

/-- The loop of `freerange` over `n` pages from `p`. -/
def freerange : Nat → Nat → KM Unit
  | _, 0 => return ()
  | p, n + 1 => do
    modify fun k => { k with ref := update k.ref p 1 }
    kfree p
    freerange (p + 1) n

def kinit : KM Unit := do
  modify fun k => { k with ref := fun _ => 0 }
  freerange Link.endPage (stopPage - Link.endPage)

/-! ## Accounts -/

structure Acc (k : Kmem) (own : Multiset Nat) : Prop where
  ref : ∀ p, k.ref p = own.count p
  nodup : k.free.Nodup
  free : ∀ p, p ∈ k.free ↔ InRange p ∧ p ∉ own
  range : ∀ p ∈ own, InRange p

theorem Acc.ref_pos (h : Acc k own) (hp : p ∈ own) : 1 ≤ k.ref p := by
  have := Multiset.count_pos.2 hp
  have := h.ref p
  omega

theorem kalloc_spec (h : Acc k own) :
    wp kalloc (fun r k' => match r with
      | none => k' = k
      | some p => Acc k' (p ::ₘ own) ∧ Keeps own k k' ∧ p ∉ own ∧ k'.ref p = 1) F k := by
  unfold kalloc
  simp only [wp_bind, wp_get]
  split
  · simp [wp_pure]
  rename_i r rest hfree
  have hnd := h.nodup
  rw [hfree] at hnd
  obtain ⟨hr, hrest⟩ := List.nodup_cons.1 hnd
  obtain ⟨hrange, hown⟩ := (h.free r).1 (by rw [hfree]; exact List.mem_cons_self)
  refine ⟨⟨fun p => ?_, hrest, fun p => ?_, fun p hp => ?_⟩, fun p hp => ?_, hown, by simp⟩
  · by_cases e : p = r
    · subst e
      simp [Multiset.count_eq_zero_of_notMem hown]
    · simp only [update_of_ne e, count_cons_of_ne e]
      exact h.ref p
  · have := h.free p
    rw [hfree, List.mem_cons] at this
    by_cases e : p = r
    · subst e
      simp [hr]
    · simpa [e] using this
  · rcases Multiset.mem_cons.1 hp with rfl | hp
    · exact hrange
    · exact h.range p hp
  · have e : p ≠ r := by
      rintro rfl
      exact hown hp
    simp [update_of_ne e]

theorem kfree_spec (h : Acc k (p ::ₘ own)) : wp (kfree p) (fun _ k' => Acc k' own ∧ Keeps own k k') F k := by
  have hrange : InRange p := h.range p (mem_cons_self p own)
  have hnf : p ∉ k.free := fun hp => ((h.free p).1 hp).2 (mem_cons_self p own)
  have hp : k.ref p = own.count p + 1 := by
    have := h.ref p
    rw [count_cons_self] at this
    exact_mod_cast this
  have hother : ∀ q, q ≠ p → k.ref q = own.count q := by
    intro q hq
    have := h.ref q
    rwa [count_cons_of_ne hq] at this
  have hcount : ∀ q, update k.ref p (k.ref p - 1) q = own.count q := by
    intro q
    by_cases e : q = p
    · subst e
      simp [hp]
    · simp [e, hother q e]
  have hrange' : ∀ q ∈ own, InRange q := fun q hq => h.range q (mem_cons_of_mem hq)
  unfold kfree
  simp only [hrange, not_true_eq_false, if_false, wp_bind, decref, getref, wp_modify, wp_get, update_self]
  refine wp_ite (fun hn => ?_) (fun hn => ?_)
  · have hmem : p ∈ own := by
      rw [← Multiset.count_pos]
      omega
    refine ⟨⟨hcount, h.nodup, fun q => ?_, hrange'⟩, fun q hq => ⟨rfl, ?_⟩⟩
    · rw [h.free q, mem_cons]
      by_cases e : q = p
      · subst e
        simp [hmem]
      · simp [e]
    · by_cases e : q = p
      · subst e
        omega
      · simp [e]
  · have hown : p ∉ own := by
      rw [← Multiset.count_eq_zero]
      omega
    refine ⟨⟨hcount, List.nodup_cons.2 ⟨hnf, h.nodup⟩, fun q => ?_, hrange'⟩, fun q hq => ?_⟩
    · rw [List.mem_cons, h.free q, mem_cons]
      by_cases e : q = p
      · subst e
        simp [hown, hrange]
      · simp [e]
    · have e : q ≠ p := by
        rintro rfl
        exact hown hq
      simp [e]

theorem Acc.incref (h : Acc k own) (hp : p ∈ own) : Acc { k with ref := update k.ref p (k.ref p + 1) } (p ::ₘ own) := by
  refine ⟨fun q => ?_, h.nodup, fun q => ?_, fun q hq => ?_⟩
  · by_cases e : q = p
    · subst e
      simp [h.ref q]
    · simp [e, h.ref q]
  · rw [h.free q, mem_cons]
    by_cases e : q = p
    · subst e
      simp [hp]
    · simp [e]
  · rcases Multiset.mem_cons.1 hq with rfl | hq
    · exact h.range q hp
    · exact h.range q hq

theorem decref_spec (h : Acc k (p ::ₘ own)) (hp : p ∈ own) :
    wp (decref p) (fun _ k' => Acc k' own ∧ Keeps own k k') F k := by
  refine ⟨⟨fun q => ?_, h.nodup, fun q => ?_, fun q hq => h.range q (mem_cons_of_mem hq)⟩, fun q hq => ⟨rfl, ?_⟩⟩
  · by_cases e : q = p
    · subst e
      simp [h.ref q]
    · have := h.ref q
      simp [e, this]
  · rw [h.free q, mem_cons]
    by_cases e : q = p
    · subst e
      simp [hp]
    · simp [e]
  · by_cases e : q = p
    · subst e
      have := h.ref q
      have := Multiset.count_pos.2 hq
      rw [count_cons_self] at *
      omega
    · simp [e]

theorem freerange_spec : ∀ (n : Nat) (p : Nat) (k : Kmem), n = stopPage - p → Link.endPage ≤ p →
    (p ≤ stopPage ∨ p = Link.endPage) → (∀ q, k.ref q = 0) → k.free.Nodup →
    (∀ q, q ∈ k.free ↔ Link.endPage ≤ q ∧ q < p) → wp (freerange p n) (fun _ k' => Acc k' 0) F k
  | 0, p, k, hn, hle, hp, hr, hnd, hf => by
    refine ⟨fun q => by simp [hr q], hnd, fun q => ?_, fun q hq => absurd hq (notMem_zero q)⟩
    rw [hf q, InRange]
    simp only [notMem_zero, not_false_eq_true, and_true]
    omega
  | n + 1, p, k, hn, hle, hp, hr, hnd, hf => by
    have hin : InRange p := ⟨hle, by omega⟩
    simp only [freerange, kfree, hin, not_true_eq_false, if_false, wp_bind, decref, getref, wp_modify,
      wp_get, update_self]
    refine freerange_spec n (p + 1) _ (by omega) (by omega) (by omega) (fun q => ?_) ?_ (fun q => ?_)
    · by_cases e : q = p
      · simp [e]
      · simp [e, hr q]
    · refine List.nodup_cons.2 ⟨fun h => ?_, hnd⟩
      have := (hf p).1 h
      omega
    · rw [List.mem_cons, hf q]
      omega

theorem kinit_spec (hk : k.free = []) : wp kinit (fun _ k' => Acc k' 0) F k := by
  refine freerange_spec _ Link.endPage _ rfl le_rfl (.inr rfl) (fun _ => rfl) ?_ (fun q => ?_)
  · rw [hk]
    exact List.nodup_nil
  · rw [hk]
    simp only [List.not_mem_nil, false_iff]
    omega

end Xv6.Vm
