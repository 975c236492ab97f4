import Xv6.CowModel
import Xv6.LibSum
/-!
# CowRun — no page is lost while every `decref` is current

`Acct` is the allocator's account: `uses` has one entry for every reference the counts include, `limbo` the pages on the
way to or from the free list. Each critical section of `kalloc.c` is one change of the account; the steps of the threads
move references between the tables, the kernel and the threads' hands. The one section that breaks the account is a
`decref` that takes the count to zero: nobody then frees the page.
-/
namespace Xv6.Cow

open Multiset Function Option
open Vm (Pte Link InRange)

/-! ## Tables -/

@[simp] theorem find_put (t : Table) (v w : Nat) (e : Entry) : (t.put v e).find w = if w = v then some e else t.find w := by
  unfold Table.put Table.find
  rw [List.find?_cons]
  by_cases h : w = v
  · simp [h]
  have hvw : (v == w) = false := by simpa using Ne.symm h
  simp only [hvw, if_neg h, Table.clear, List.find?_filter]
  congr 2
  funext m
  by_cases hm : m.1 = w
  · simp [hm, h]
  · simp [hm]

@[simp] theorem find_clear (t : Table) (v w : Nat) : (t.clear v).find w = if w = v then none else t.find w := by
  unfold Table.clear Table.find
  rw [List.find?_filter]
  by_cases h : w = v
  · rw [if_pos h, map_eq_none_iff, List.find?_eq_none]
    intro m _
    simp [h]
  · rw [if_neg h]
    congr 2
    funext m
    by_cases hm : m.1 = w
    · simp [hm, h]
    · simp [hm]

def Table.Keyed (t : Table) : Prop := (t.map Prod.fst).Nodup

variable {t m : Table}

theorem Table.Keyed.clear (h : t.Keyed) (v : Nat) : (t.clear v).Keyed :=
  h.sublist (List.Sublist.map _ List.filter_sublist)

theorem Table.Keyed.put (h : t.Keyed) (v : Nat) (e : Entry) : (t.put v e).Keyed := by
  refine List.nodup_cons.2 ⟨?_, h.clear v⟩
  simp [Table.clear]

def held (m : Nat × Entry) : Multiset Nat := if m.2.counted then {m.2.pte.pa} else 0

/-- The references of a table that the counts include. -/
def refs (t : Table) : Multiset Nat := (List.map held t).sum

theorem refs_put (t : Table) (v : Nat) (e : Entry) : refs (t.put v e) = held (v, e) + refs (t.clear v) := by
  simp [refs, Table.put]

variable {v x w r : Nat} {e : Pte} {s s' : St} {p t j : Slot} {f : Entry}

theorem clear_of_find_none {t : Table} (h : t.find v = none) : t.clear v = t := by
  unfold Table.find at h
  rw [map_eq_none_iff, List.find?_eq_none] at h
  refine List.filter_eq_self.2 (fun m hm => ?_)
  have := h m hm
  simpa using this

theorem refs_clear {e : Entry} : ∀ {t : Table}, t.Keyed → t.find v = some e → refs t = held (v, e) + refs (t.clear v)
  | [], _, h => by simp [Table.find] at h
  | m :: t, hk, h => by
    have hk' := List.nodup_cons.1 hk
    by_cases hm : m.1 = v
    · obtain rfl : m = (v, e) := by
        have : m.2 = e := by simpa [Table.find, hm] using h
        rw [← hm, ← this]
      have hnone : Table.find t v = none := by
        unfold Table.find
        rw [map_eq_none_iff, List.find?_eq_none]
        intro m' hm' hv
        exact hk'.1 (List.mem_map.2 ⟨m', hm', by simpa using hv⟩)
      have hc : Table.clear ((v, e) :: t) v = t := by
        unfold Table.clear
        rw [List.filter_cons_of_neg (by simp)]
        exact clear_of_find_none hnone
      rw [hc]
      simp [refs]
    · have hf : Table.find t v = some e := by
        have hb : (m.1 == v) = false := by simpa using hm
        simpa [Table.find, hb] using h
      have hc : Table.clear (m :: t) v = m :: Table.clear t v := List.filter_cons_of_pos (by simpa using hm)
      rw [hc]
      have ih := refs_clear hk'.2 hf
      simp only [refs, List.map_cons, List.sum_cons] at ih ⊢
      rw [ih, add_left_comm]

theorem mem_refs {t : Table} (hk : t.Keyed) (h : x ∈ refs t) : ∃ v e, t.find v = some e ∧ e.pte.pa = x := by
  obtain ⟨m, hm, hx⟩ := Sum.mem_sum_map.1 h
  refine ⟨m.1, m.2, ?_, ?_⟩
  · cases hf : t.find m.1 with
    | none =>
      unfold Table.find at hf
      rw [map_eq_none_iff, List.find?_eq_none] at hf
      exact (hf m hm (by simp)).elim
    | some e =>
      obtain ⟨m', hm', rfl⟩ := map_eq_some_iff.1 hf
      have hkey : m'.1 = m.1 := by simpa using List.find?_some hm'
      have := List.inj_on_of_nodup_map hk (List.mem_of_find?_eq_some hm') hm hkey
      rw [this]
  · unfold held at hx
    split at hx
    · exact (Multiset.mem_singleton.1 hx).symm
    · exact absurd hx (Multiset.notMem_zero x)

theorem held_true (v : Nat) (e : Pte) : held (v, ⟨e, true⟩) = {e.pa} := rfl

theorem held_false (v : Nat) (e : Pte) : held (v, ⟨e, false⟩) = 0 := rfl

theorem find_of_put {t : Table} (hf : (t.put v ⟨e, true⟩).find w = some f)
    (hc : f.counted = false) : t.find w = some f := by
  rw [find_put] at hf
  split at hf
  · obtain rfl := some.inj hf
    cases hc
  · exact hf

theorem find_of_clear {t : Table} (hf : (t.clear v).find w = some f) : t.find w = some f := by
  rw [find_clear] at hf
  split at hf
  · cases hf
  · exact hf

/-! ## The account -/

section Account
variable [Link]

structure Acct (ref : Nat → Int) (free : List Nat) (uses limbo : Multiset Nat) : Prop where
  counts : ∀ x, ref x = uses.count x
  nodup : ((free : Multiset Nat) + limbo).Nodup
  zero : ∀ x, x ∈ (free : Multiset Nat) + limbo → ref x = 0
  lost : ∀ x, InRange x → ref x = 0 → x ∈ (free : Multiset Nat) + limbo

variable {ref : Nat → Int} {free : List Nat} {uses limbo : Multiset Nat}

omit [Link] in
theorem add_one (m : Multiset Nat) (x : Nat) : m + {x} = x ::ₘ m := by rw [add_comm, singleton_add]

omit [Link] in
theorem cons_add_limbo (x : Nat) (free : List Nat) (limbo : Multiset Nat) :
    ((x :: free : List Nat) : Multiset Nat) + limbo = (free : Multiset Nat) + (x ::ₘ limbo) := by
  rw [← Multiset.cons_coe, Multiset.cons_add, add_cons]

theorem Acct.pop (h : Acct ref (r :: free) uses limbo) : Acct ref free uses (r ::ₘ limbo) := by
  exact ⟨h.counts, cons_add_limbo r free limbo ▸ h.nodup, fun x hx => h.zero x ((cons_add_limbo r free limbo).symm ▸ hx),
    fun x hr hx => cons_add_limbo r free limbo ▸ h.lost x hr hx⟩

theorem Acct.push (h : Acct ref free uses (x ::ₘ limbo)) : Acct ref (x :: free) uses limbo :=
  ⟨h.counts, (cons_add_limbo x free limbo).symm ▸ h.nodup, fun y hy => h.zero y (cons_add_limbo x free limbo ▸ hy),
    fun y hr hy => (cons_add_limbo x free limbo).symm ▸ h.lost y hr hy⟩

theorem Acct.set (h : Acct ref free uses (r ::ₘ limbo)) : Acct (update ref r 1) free (r ::ₘ uses) limbo := by
  have hr : r ∈ (free : Multiset Nat) + (r ::ₘ limbo) := by simp
  have h0 := h.zero r hr
  have hnd := h.nodup
  rw [add_cons, nodup_cons] at hnd
  refine ⟨fun x => ?_, hnd.2, fun x hx => ?_, fun x hi hx => ?_⟩
  · have := h.counts x
    by_cases hxr : x = r
    · subst hxr
      rw [update_self, count_cons_self]
      omega
    · rw [update_of_ne hxr, count_cons_of_ne hxr, this]
  · have hxr : x ≠ r := fun e => hnd.1 (e ▸ hx)
    rw [update_of_ne hxr]
    exact h.zero x (by rw [add_cons]; exact Multiset.mem_cons_of_mem hx)
  by_cases hxr : x = r
  · rw [hxr, update_self] at hx
    omega
  · rw [update_of_ne hxr] at hx
    have := h.lost x hi hx
    rw [add_cons, mem_cons] at this
    exact this.resolve_left hxr

theorem Acct.pos (h : Acct ref free (x ::ₘ uses) limbo) : 0 < ref x := by
  rw [h.counts x, count_cons_self]
  omega

theorem Acct.inc (h : Acct ref free uses limbo) (hx : x ∈ uses) :
    Acct (update ref x (ref x + 1)) free (x ::ₘ uses) limbo := by
  have hpos : 0 < ref x := by
    rw [h.counts x]
    exact_mod_cast Multiset.count_pos.2 hx
  refine ⟨fun y => ?_, h.nodup, fun y hy => ?_, fun y hi hy => ?_⟩
  · have := h.counts y
    by_cases hyx : y = x
    · subst hyx
      rw [update_self, count_cons_self]
      omega
    · rw [update_of_ne hyx, count_cons_of_ne hyx, this]
  · have hyx : y ≠ x := by
      rintro rfl
      have := h.zero y hy
      omega
    rw [update_of_ne hyx]
    exact h.zero y hy
  · by_cases hyx : y = x
    · subst hyx
      rw [update_self] at hy
      omega
    · rw [update_of_ne hyx] at hy
      exact h.lost y hi hy

omit [Link] in
theorem counts_dec (h : ∀ y, ref y = (x ::ₘ uses).count y) (y : Nat) : update ref x (ref x - 1) y = uses.count y := by
  have := h y
  by_cases hyx : y = x
  · subst hyx
    rw [count_cons_self] at this
    rw [update_self]
    omega
  · rw [update_of_ne hyx, this, count_cons_of_ne hyx]

theorem Acct.dec (h : Acct ref free (x ::ₘ uses) limbo) (hx : ref x - 1 ≠ 0) :
    Acct (update ref x (ref x - 1)) free uses limbo := by
  have hpos := h.pos
  refine ⟨counts_dec h.counts, h.nodup, fun y hy => ?_, fun y hi hy => ?_⟩
  · have hyx : y ≠ x := by
      rintro rfl
      have := h.zero y hy
      omega
    rw [update_of_ne hyx]
    exact h.zero y hy
  · by_cases hyx : y = x
    · subst hyx
      rw [update_self] at hy
      exact absurd hy hx
    · rw [update_of_ne hyx] at hy
      exact h.lost y hi hy

theorem Acct.last (h : Acct ref free (x ::ₘ uses) limbo) (hx : ref x - 1 = 0) :
    Acct (update ref x (ref x - 1)) free uses (x ::ₘ limbo) := by
  have hnot : x ∉ (free : Multiset Nat) + limbo := fun hm => by
    have := h.zero x hm
    omega
  refine ⟨counts_dec h.counts, ?_, fun y hy => ?_, fun y hi hy => ?_⟩
  · rw [add_cons, nodup_cons]
    exact ⟨hnot, h.nodup⟩
  · by_cases hyx : y = x
    · rw [hyx, update_self, hx]
    · rw [update_of_ne hyx]
      rw [add_cons, mem_cons] at hy
      exact h.zero y (hy.resolve_left hyx)
  · rw [add_cons, mem_cons]
    by_cases hyx : y = x
    · exact .inl hyx
    · rw [update_of_ne hyx] at hy
      exact .inr (h.lost y hi hy)

end Account

/-! ## What the threads hold -/

/-- The references in a thread's hands: those of pages it has taken out of a table or not yet put in. -/
def pend : Pc → Multiset Nat
  | .cowUnmap _ _ mem => {mem}
  | .cowMap _ e mem => {e.pa, mem}
  | .cowDecref x => {x}
  | .vmfMap _ mem => {mem}
  | .freeDec x => {x}
  | _ => 0

def moving : Pc → Multiset Nat
  | .kallocSet _ r => {r}
  | .freePush x => {x}
  | .unmapPush _ _ x _ => {x}
  | _ => 0

/-- The entry whose reference a thread has dropped or not yet taken. -/
def site : Pc → Option (Slot × Nat)
  | .unmapPush t v _ _ => some (t, v)
  | .unmapClear t v _ => some (t, v)
  | .copyIncref q v _ _ _ => some (q, v)
  | _ => none

def uses (s : St) : Multiset Nat :=
  (procs.map (fun t => refs (s.pt t))).sum + (s.owned : Multiset Nat) + (procs.map (fun p => pend (s.pc p))).sum

def limbo (s : St) : Multiset Nat := (procs.map (fun p => moving (s.pc p))).sum

theorem split_uses (s : St) (p t : Slot) : ∃ U L, ∀ s' : St, (∀ j, j ≠ t → s'.pt j = s.pt j) →
    (∀ j, j ≠ p → pend (s'.pc j) = pend (s.pc j) ∧ moving (s'.pc j) = moving (s.pc j)) →
    uses s' = U + (refs (s'.pt t) + (s'.owned : Multiset Nat) + pend (s'.pc p)) ∧ limbo s' = L + moving (s'.pc p) := by
  obtain ⟨R, hR⟩ := Sum.exists_rest (fun t => refs (s.pt t)) nodup_procs (mem_procs t)
  obtain ⟨P, hP⟩ := Sum.exists_rest (fun p => pend (s.pc p)) nodup_procs (mem_procs p)
  obtain ⟨L, hL⟩ := Sum.exists_rest (fun p => moving (s.pc p)) nodup_procs (mem_procs p)
  refine ⟨R + P, L, fun s' hpt hpc => ⟨?_, hL _ (fun j _ hj => (hpc j hj).2)⟩⟩
  have hR' := hR (fun t => refs (s'.pt t)) (fun j _ hj => by rw [hpt j hj])
  have hP' := hP (fun p => pend (s'.pc p)) (fun j _ hj => (hpc j hj).1)
  unfold uses
  rw [hR', hP', add_assoc R, add_add_add_comm]

theorem mem_uses (hk : (s.pt p).Keyed) (hf : (s.pt p).find v = some ⟨e, true⟩) : e.pa ∈ uses s := by
  have hx : e.pa ∈ refs (s.pt p) := by
    rw [refs_clear hk hf]
    simp [held]
  unfold uses
  rw [mem_add, mem_add]
  exact .inl (.inl (Sum.mem_sum_map.2 ⟨p, mem_procs p, hx⟩))

/-- The table a thread may change: its own, or the one of the child it is making. -/
def Mine (s : St) (p t : Slot) : Prop := t = p ∨ s.pc t = .embryo p

/-- What the caller of `kalloc` knows of its table. -/
def Why.Waits (t : Table) : Why → Prop
  | .own => True
  | .vmf v => t.find v = none
  | .cow v e => t.find v = some ⟨e, true⟩

/-- What a thread that is inside an operation knows. -/
def Local (s : St) (p : Slot) : Pc → Prop
  | .cowRef v e => (s.pt p).find v = some ⟨e, true⟩
  | .cowAllow v e => (s.pt p).find v = some ⟨e, true⟩
  | .kallocPop k => k.Waits (s.pt p)
  | .kallocSet k _ => k.Waits (s.pt p)
  | .cowUnmap v e _ => (s.pt p).find v = some ⟨e, true⟩
  | .cowMap v _ _ => (s.pt p).find v = none
  | .vmfMap v _ => (s.pt p).find v = none
  | .unmap t _ => Mine s p t
  | .unmapPush t v _ _ => Mine s p t ∧ ∃ e, (s.pt t).find v = some ⟨e, false⟩
  | .unmapClear t v _ => Mine s p t ∧ ∃ e, (s.pt t).find v = some ⟨e, false⟩
  | .copy q _ _ => s.pc q = .embryo p
  | .copyMap q v e _ _ => s.pc q = .embryo p ∧ ∃ e', (s.pt p).find v = some ⟨e', true⟩ ∧ e'.pa = e.pa
  | .copyIncref q v x _ _ => s.pc q = .embryo p ∧ (∃ e, (s.pt q).find v = some ⟨e, false⟩ ∧ e.pa = x) ∧
      ∃ e', (s.pt p).find v = some ⟨e', true⟩ ∧ e'.pa = x
  | _ => True

theorem Local.frame (hpt : s'.pt p = s.pt p) (hch : ∀ q, s.pc q = .embryo p → s'.pc q = .embryo p ∧ s'.pt q = s.pt q)
    (h : Local s p c) : Local s' p c := by
  have hmine : ∀ t, Mine s p t → Mine s' p t ∧ s'.pt t = s.pt t := by
    rintro t (rfl | ht)
    · exact ⟨.inl rfl, hpt⟩
    · exact ⟨.inr (hch t ht).1, (hch t ht).2⟩
  unfold Local at h ⊢
  rw [hpt]
  cases c with
  | unmap t vs => exact (hmine t h).1
  | unmapPush t v x vs => exact ⟨(hmine t h.1).1, by rw [(hmine t h.1).2]; exact h.2⟩
  | unmapClear t v vs => exact ⟨(hmine t h.1).1, by rw [(hmine t h.1).2]; exact h.2⟩
  | copy q vs done => exact (hch q h).1
  | copyMap q v e vs done => exact ⟨(hch q h.1).1, h.2⟩
  | copyIncref q v x vs done => exact ⟨(hch q h.1).1, by rw [(hch q h.1).2]; exact h.2⟩
  | _ => exact h

/-! ## The fields of an updated state -/

@[simp] theorem goto_self (s : St) (p : Slot) (c : Pc) : (s.goto p c).pc p = c := update_self ..

theorem goto_of_ne (s : St) (c : Pc) (h : j ≠ p) : (s.goto p c).pc j = s.pc j := update_of_ne h ..

@[simp] theorem setPt_self (s : St) (t : Slot) (m : Table) : (s.setPt t m).pt t = m := update_self ..

theorem setPt_of_ne (s : St) (m : Table) (h : j ≠ t) : (s.setPt t m).pt j = s.pt j := update_of_ne h ..

/-! ## The invariant -/

section Run
variable [Link]

structure Inv (s : St) : Prop where
  keyed : ∀ t, (s.pt t).Keyed
  acct : Acct s.ref s.free (uses s) (limbo s)
  counted : ∀ t v e, (s.pt t).find v = some e → e.counted = false → ∃ p, Mine s p t ∧ site (s.pc p) = some (t, v)
  loc : ∀ p, Local s p (s.pc p)

theorem Inv.at_pc (h : Inv s) (hc : s.pc p = c) : Local s p c := hc ▸ h.loc p

theorem Inv.site_of (h : Inv s) (hp : ∀ r, s.pc p ≠ .embryo r) (ht : Mine s p t) {e : Entry}
    (hf : (s.pt t).find v = some e) (hc : e.counted = false) : site (s.pc p) = some (t, v) := by
  obtain ⟨p', hm, hs⟩ := h.counted t v e hf hc
  rcases ht with rfl | ht
  · rcases hm with rfl | hm
    · exact hs
    · exact absurd hm (hp p')
  · rcases hm with rfl | hm
    · rw [ht] at hs
      cases hs
    · rw [ht] at hm
      cases hm
      exact hs

theorem Inv.move (h : Inv s) (hp : ∀ r, s.pc p ≠ .embryo r) (ht : Mine s p t)
    (hpt : ∀ j, j ≠ t → s'.pt j = s.pt j) (hpc : ∀ j, j ≠ p → s'.pc j = s.pc j) (hc : s'.pc p = c) (hkeyed : (s'.pt t).Keyed)
    (hacct : ∀ U L, uses s = U + (refs (s.pt t) + (s.owned : Multiset Nat) + pend (s.pc p)) →
      Acct s.ref s.free (U + (refs (s.pt t) + (s.owned : Multiset Nat) + pend (s.pc p))) (L + moving (s.pc p)) →
      Acct s'.ref s'.free (U + (refs (s'.pt t) + (s'.owned : Multiset Nat) + pend c)) (L + moving c))
    (hsite : ∀ u v, site (s.pc p) = some (u, v) → u = t)
    (hcounted : ∀ v e, (s'.pt t).find v = some e → e.counted = false → site c = some (t, v))
    (hlocal : Local s' p c) : Inv s' := by
  subst hc
  have hmine : ∀ {p' u : Slot}, Mine s p' u → Mine s' p' u := by
    rintro p' u (rfl | hu)
    · exact .inl rfl
    · refine .inr ((hpc u ?_).trans hu)
      rintro rfl
      exact hp p' hu
  refine ⟨fun u => ?_, ?_, fun u v e hf hc => ?_, fun p' => ?_⟩
  · by_cases hu : u = t
    · exact hu ▸ hkeyed
    · rw [hpt u hu]
      exact h.keyed u
  · obtain ⟨U, L, hsplit⟩ := split_uses s p t
    obtain ⟨hu, hl⟩ := hsplit s (fun _ _ => rfl) (fun _ _ => ⟨rfl, rfl⟩)
    obtain ⟨hu', hl'⟩ := hsplit s' hpt (fun j hj => by rw [hpc j hj]; exact ⟨rfl, rfl⟩)
    have ha := h.acct
    rw [hl, hu] at ha
    rw [hu', hl']
    exact hacct U L hu ha
  · by_cases hu : u = t
    · subst hu
      exact ⟨p, hmine ht, hcounted v e hf hc⟩
    rw [hpt u hu] at hf
    obtain ⟨p', hm, hs⟩ := h.counted u v e hf hc
    by_cases hpp : p' = p
    · subst hpp
      exact absurd (hsite u v hs) hu
    · exact ⟨p', hmine hm, by rw [hpc p' hpp]; exact hs⟩
  · by_cases hpp : p' = p
    · exact hpp ▸ hlocal
    by_cases hpt' : p' = t
    -- the table is a child's, and the child's thread knows nothing
    · subst hpt'
      have he := ht.resolve_left hpp
      rw [hpc p' hpp, he]
      trivial
    rw [hpc p' hpp]
    refine (h.loc p').frame (hpt p' hpt') (fun q hq => ?_)
    have hqp : q ≠ p := by
      rintro rfl
      exact hp p' hq
    refine ⟨(hpc q hqp).trans hq, hpt q ?_⟩
    rintro rfl
    rcases ht with ht | ht
    · exact hqp ht
    · rw [ht] at hq
      cases hq
      exact hpp rfl

variable {q : Slot} {c c' : Pc} {mem : Nat} {vs done : List Nat} {k : Why}

theorem Inv.switch (h : Inv s) (hne : q ≠ p) (hp : ∀ r, s.pc p ≠ .embryo r)
    (hq : s.pc q = .idle ∨ s.pc q = .embryo p) (hq' : s'.pc q = .idle ∨ s'.pc q = .embryo p)
    (hs : { s with pc := s'.pc } = s') (hpc : ∀ j, j ≠ p → j ≠ q → s'.pc j = s.pc j) (hc : s'.pc p = c)
    (hold : pend (s.pc p) = 0 ∧ moving (s.pc p) = 0 ∧ site (s.pc p) = none)
    (hnew : pend c = 0 ∧ moving c = 0) (hlocal : Local s' p c) : Inv s' := by
  subst hc
  have hpt : s'.pt = s.pt := by rw [← hs]
  have hown : s'.owned = s.owned := by rw [← hs]
  have hsame : ∀ j, pend (s'.pc j) = pend (s.pc j) ∧ moving (s'.pc j) = moving (s.pc j) := by
    intro j
    by_cases hj : j = p
    · rw [hj, hold.1, hold.2.1, hnew.1, hnew.2]
      exact ⟨rfl, rfl⟩
    by_cases hj' : j = q
    · subst hj'
      rcases hq with e | e <;> rcases hq' with e' | e' <;> rw [e, e'] <;> exact ⟨rfl, rfl⟩
    · rw [hpc j hj hj']
      exact ⟨rfl, rfl⟩
  have hembryo : ∀ u r, r ≠ p → s.pc u = .embryo r → s'.pc u = .embryo r := by
    intro u r hr hu
    refine (hpc u ?_ ?_).trans hu
    · rintro rfl
      exact hp r hu
    · rintro rfl
      rcases hq with e | e <;> rw [e] at hu <;> cases hu
      exact hr rfl
  refine ⟨fun t => hpt ▸ h.keyed t, ?_, fun t v e hf hc => ?_, fun r => ?_⟩
  · have hu : uses s' = uses s := by
      unfold uses
      rw [hpt, hown]
      simp [fun j => (hsame j).1]
    have hl : limbo s' = limbo s := by
      unfold limbo
      simp [fun j => (hsame j).2]
    rw [hu, hl, ← hs]
    exact h.acct
  · rw [hpt] at hf
    obtain ⟨r, hm, hr⟩ := h.counted t v e hf hc
    have hrp : r ≠ p := by
      rintro rfl
      rw [hold.2.2] at hr
      cases hr
    have hrq : r ≠ q := by
      rintro rfl
      rcases hq with e | e <;> rw [e] at hr <;> cases hr
    exact ⟨r, hm.imp_right (hembryo t r hrp), by rw [hpc r hrp hrq]; exact hr⟩
  · by_cases hrp : r = p
    · exact hrp ▸ hlocal
    by_cases hrq : r = q
    · subst hrq
      rcases hq' with e | e <;> rw [e] <;> trivial
    · rw [hpc r hrp hrq]
      exact (h.loc r).frame (by rw [hpt]) (fun u hu => ⟨hembryo u r hrp hu, by rw [hpt]⟩)

/-! ## Steps that leave the tables alone -/

theorem Inv.goto (h : Inv s) (hp : ∀ r, s.pc p ≠ .embryo r) (hsite : site (s.pc p) = none)
    (hpt : s'.pt = s.pt) (hpc : s'.pc = update s.pc p c)
    (hacct : ∀ U L, Acct s.ref s.free (U + ((s.owned : Multiset Nat) + pend (s.pc p))) (L + moving (s.pc p)) →
      Acct s'.ref s'.free (U + ((s'.owned : Multiset Nat) + pend c)) (L + moving c)) (hlocal : Local s' p c) : Inv s' := by
  refine h.move hp (.inl rfl) (fun j _ => by rw [hpt]) (fun j hj => by rw [hpc, update_of_ne hj])
    (by rw [hpc, update_self]) (hpt ▸ h.keyed p) (fun U L _ ha => ?_) (fun u v e => ?_) (fun v e hf he => ?_) hlocal
  · rw [hpt]
    rw [add_assoc, ← add_assoc U] at ha ⊢
    exact hacct _ L ha
  · rw [hsite] at e
    cases e
  · rw [hpt] at hf
    have := h.site_of hp (.inl rfl) hf he
    rw [hsite] at this
    cases this

theorem acct_same (hpend : pend c = pend (s.pc p)) (hmov : moving c = moving (s.pc p))
    (href : s'.ref = s.ref) (hfree : s'.free = s.free) (hown : s'.owned = s.owned) (U L : Multiset Nat)
    (ha : Acct s.ref s.free (U + ((s.owned : Multiset Nat) + pend (s.pc p))) (L + moving (s.pc p))) :
    Acct s'.ref s'.free (U + ((s'.owned : Multiset Nat) + pend c)) (L + moving c) := by
  rw [hpend, hmov, href, hfree, hown]
  exact ha

theorem Inv.pass (h : Inv s) (hc : s.pc p = c) (hne : ∀ r, c ≠ .embryo r) (hsite : site c = none)
    (hpend : pend c' = pend c) (hmov : moving c' = moving c) (hlocal : Local (s.goto p c') p c') : Inv (s.goto p c') := by
  subst hc
  exact h.goto hne hsite rfl rfl (acct_same hpend hmov rfl rfl rfl) hlocal

theorem inv_cowfault (h : Inv s) (hi : s.pc p = .idle) : Inv (cowfault s p v) := by
  have hp : ∀ r, s.pc p ≠ .embryo r := by simp [hi]
  unfold cowfault
  split
  · exact h
  rename_i e hf
  split
  · exact h
  have hcounted : e.counted = true := by
    by_contra hc
    have := h.site_of hp (.inl rfl) hf (by simpa using hc)
    rw [hi] at this
    cases this
  have he : e = ⟨e.pte, true⟩ := by
    cases e
    simp only at hcounted
    rw [hcounted]
  refine h.pass hi (by simp) rfl rfl rfl ?_
  exact hf.trans (congrArg some he)

omit [Link] in
theorem not_embryo (hc : s.pc p = c) (h : ∀ r, c ≠ .embryo r) : ∀ r, s.pc p ≠ .embryo r := hc ▸ h

section
variable (h : Inv s)
include h

theorem inv_kallocPop (hc : s.pc p = .kallocPop k) (hs : (match s.free with
      | [] => some (s.goto p .idle)
      | r :: rest => some ({ s with free := rest }.goto p (.kallocSet k r))) = some s') : Inv s' := by
  have hp := not_embryo hc (by simp)
  have hloc := h.at_pc hc
  split at hs
  · obtain rfl := some.inj hs
    exact h.pass hc (by simp) rfl rfl rfl trivial
  · rename_i r rest hf
    obtain rfl := some.inj hs
    refine h.goto hp (by rw [hc]; rfl) rfl rfl (fun U L ha => ?_) ?_
    · rw [hc, hf] at ha
      have := ha.pop
      rw [show moving (.kallocPop k) = 0 from rfl, add_zero, ← add_one] at this
      exact this
    · exact hloc

theorem inv_kallocSet (hc : s.pc p = .kallocSet k r) : Inv ((s.setRef r 1).got p r k) := by
  have hp := not_embryo hc (by simp)
  have hloc := h.at_pc hc
  have hset : ∀ U L, Acct s.ref s.free (U + ((s.owned : Multiset Nat) + pend (s.pc p))) (L + moving (s.pc p)) →
      Acct (update s.ref r 1) s.free (U + (r ::ₘ (s.owned : Multiset Nat))) L := by
    intro U L ha
    rw [hc, show L + moving (.kallocSet k r) = r ::ₘ L from add_one L r] at ha
    have := ha.set
    rw [show pend (.kallocSet k r) = 0 from rfl, add_zero, ← add_cons] at this
    exact this
  cases k with
  | own =>
    refine h.goto hp (by rw [hc]; rfl) rfl rfl (fun U L ha => ?_) ?_
    · simpa [pend, moving, St.got] using hset U L ha
    · trivial
  | vmf v =>
    refine h.goto hp (by rw [hc]; rfl) rfl rfl (fun U L ha => ?_) ?_
    · simpa [pend, moving, St.got, add_one] using hset U L ha
    · exact hloc
  | cow v e =>
    refine h.goto hp (by rw [hc]; rfl) rfl rfl (fun U L ha => ?_) ?_
    · simpa [pend, moving, St.got, add_one] using hset U L ha
    · exact hloc

theorem inv_drop (hc : s.pc p = .cowDecref x ∨ s.pc p = .freeDec x)
    (hcase : s.ref x - 1 ≠ 0 ∧ c = .idle ∨ s.ref x - 1 = 0 ∧ c = .freePush x) :
    Inv ((s.setRef x (s.ref x - 1)).goto p c) := by
  have hp : ∀ r, s.pc p ≠ .embryo r := by rcases hc with hc | hc <;> simp [hc]
  have hpend : pend (s.pc p) = {x} ∧ moving (s.pc p) = 0 ∧ site (s.pc p) = none := by
    rcases hc with hc | hc <;> rw [hc] <;> exact ⟨rfl, rfl, rfl⟩
  refine h.goto hp hpend.2.2 rfl rfl (fun U L ha => ?_) ?_
  · rw [hpend.1, hpend.2.1, ← add_assoc, add_one] at ha
    rcases hcase with ⟨hx, rfl⟩ | ⟨hx, rfl⟩
    · simpa [pend, moving] using ha.dec hx
    · simpa [pend, moving, add_one] using ha.last hx
  · rcases hcase with ⟨-, rfl⟩ | ⟨-, rfl⟩ <;> trivial

theorem inv_freePush (hc : s.pc p = .freePush x) : Inv ((s.push x).goto p .idle) := by
  refine h.goto (not_embryo hc (by simp)) (by rw [hc]; rfl) rfl rfl (fun U L ha => ?_) ?_
  · rw [hc, show moving (.freePush x) = {x} from rfl, add_one] at ha
    simpa [pend, moving] using ha.push
  · trivial

/-! ## Steps that change a table -/

theorem Inv.store (hc : s.pc p = c) (hne : ∀ r, c ≠ .embryo r) (hsite : site c = none) (hm : m.Keyed)
    (hcount : ∀ v e, m.find v = some e → e.counted = false → (s.pt p).find v = some e) (hmov : moving c = moving c')
    (hrefs : refs m + pend c' = refs (s.pt p) + pend c) (hlocal : Local ((s.setPt p m).goto p c') p c') :
    Inv ((s.setPt p m).goto p c') := by
  subst hc
  refine h.move hne (.inl rfl) (fun j => setPt_of_ne s m) (fun j => goto_of_ne _ c') (goto_self ..) ?_ (fun U L _ ha => ?_)
    (fun u v e => ?_) (fun v e hf he => ?_) hlocal
  · simpa using hm
  · rw [add_right_comm, ← hrefs, hmov, add_right_comm] at ha
    simpa using ha
  · rw [hsite] at e
    cases e
  · rw [St.goto_pt, setPt_self] at hf
    have := h.site_of hne (.inl rfl) (hcount v e hf he) he
    rw [hsite] at this
    cases this

theorem inv_cowAllow (hc : s.pc p = .cowAllow v e) :
    Inv ((s.setPt p ((s.pt p).put v ⟨{ e with w := true }, true⟩)).goto p .idle) := by
  refine h.store hc (by simp) rfl ((h.keyed p).put _ _) (fun w f => find_of_put) rfl ?_ trivial
  rw [refs_clear (h.keyed p) (h.at_pc hc)]
  rfl

theorem inv_cowUnmap (hc : s.pc p = .cowUnmap v e mem) :
    Inv ((s.setPt p ((s.pt p).clear v)).goto p (.cowMap v e mem)) := by
  refine h.store hc (by simp) rfl ((h.keyed p).clear _) (fun w f hf _ => find_of_clear hf) rfl ?_ ?_
  · rw [refs_clear (h.keyed p) (h.at_pc hc), add_right_comm, add_comm]
    exact congrArg (· + refs ((s.pt p).clear v)) (singleton_add e.pa {mem}).symm
  · unfold Local
    simp

theorem inv_cowMap (hc : s.pc p = .cowMap v e mem) :
    Inv ((s.setPt p ((s.pt p).put v ⟨{ e with w := true, pa := mem }, true⟩)).goto p (.cowDecref e.pa)) := by
  refine h.store hc (by simp) rfl ((h.keyed p).put _ _) (fun w f => find_of_put) rfl ?_ trivial
  rw [refs_put, clear_of_find_none (h.at_pc hc), add_right_comm, add_comm]
  refine congrArg (refs (s.pt p) + ·) ?_
  exact (singleton_add mem {e.pa}).trans (Multiset.pair_comm mem e.pa)

theorem inv_vmfMap (hc : s.pc p = .vmfMap v mem) :
    Inv ((s.setPt p ((s.pt p).put v ⟨⟨⟨true, true, false, true⟩, mem⟩, true⟩)).goto p .idle) := by
  refine h.store hc (by simp) rfl ((h.keyed p).put _ _) (fun w f => find_of_put) rfl ?_ trivial
  rw [refs_put, clear_of_find_none (h.at_pc hc), show pend .idle = 0 from rfl, add_zero, add_comm]
  rfl

end

omit [Link] in
theorem Mine.keep (h : Mine s p t) (hp : ∀ r, s.pc p ≠ .embryo r)
    (hpc : ∀ j, j ≠ p → s'.pc j = s.pc j) : Mine s' p t := by
  refine h.imp_right (fun he => (hpc t ?_).trans he)
  rintro rfl
  exact hp t he

section
variable (h : Inv s)
include h

theorem inv_unmapPage (hc : s.pc p = .unmap t (v :: vs)) (hs : unmapPage s p t v vs = some s') : Inv s' := by
  have hp := not_embryo hc (by simp)
  have hmine := h.at_pc hc
  have hsite : site (s.pc p) = none := by rw [hc]; rfl
  unfold unmapPage at hs
  split at hs
  · obtain rfl := some.inj hs
    refine h.pass hc (by simp) rfl rfl rfl ?_
    exact Mine.keep hmine hp (fun j => goto_of_ne s _)
  rename_i e hf
  split at hs
  · cases hs
  have hcounted : e.counted = true := by
    by_contra hn
    have := h.site_of hp hmine hf (by simpa using hn)
    rw [hsite] at this
    cases this
  obtain ⟨pte, cnt⟩ := e
  obtain rfl : cnt = true := hcounted
  have hrefs := refs_clear (h.keyed t) hf
  rw [held_true] at hrefs
  generalize hcn : (if s.ref pte.pa - 1 = 0 then Pc.unmapPush t v pte.pa vs else Pc.unmapClear t v vs) = c at hs
  have hnew : site c = some (t, v) ∧ pend c = 0 := by
    rw [← hcn]
    split <;> exact ⟨rfl, rfl⟩
  obtain rfl := some.inj hs
  refine h.move hp hmine (fun j => setPt_of_ne _ _) (fun j => goto_of_ne _ c) (goto_self ..) ?_ (fun U L _ ha => ?_)
    (fun u w e => ?_) (fun w f hw hfc => ?_) ?_
  · simpa using (h.keyed t).put v ⟨pte, false⟩
  · rw [hc, show pend (.unmap t (v :: vs)) = 0 from rfl, add_zero, hrefs, show moving (.unmap t (v :: vs)) = 0 from rfl,
      add_zero, add_assoc ({pte.pa} : Multiset Nat), add_left_comm] at ha
    rw [hnew.2, add_zero, St.goto_pt, setPt_self, refs_put, held_false, zero_add, ← hcn]
    split
    · rename_i hz
      rw [show moving (.unmapPush t v pte.pa vs) = {pte.pa} from rfl, add_one]
      exact ha.last hz
    · rename_i hz
      rw [show moving (.unmapClear t v vs) = 0 from rfl, add_zero]
      exact ha.dec hz
  · rw [hsite] at e
    cases e
  · rw [St.goto_pt, setPt_self, find_put] at hw
    rw [hnew.1]
    split at hw
    · rename_i hwv
      rw [hwv]
    · have := h.site_of hp hmine hw hfc
      rw [hsite] at this
      cases this
  · have hm : Mine (((s.setRef pte.pa (s.ref pte.pa - 1)).setPt t ((s.pt t).put v ⟨pte, false⟩)).goto p c) p t :=
      Mine.keep hmine hp (fun j => goto_of_ne _ _)
    have hfind : ∃ e, ((((s.setRef pte.pa (s.ref pte.pa - 1)).setPt t ((s.pt t).put v ⟨pte, false⟩)).goto p c).pt t).find v
        = some ⟨e, false⟩ := ⟨pte, by simp⟩
    have hcc : c = .unmapPush t v pte.pa vs ∨ c = .unmapClear t v vs := by
      rw [← hcn]
      split
      · exact .inl rfl
      · exact .inr rfl
    rcases hcc with rfl | rfl <;> exact ⟨hm, hfind⟩

theorem inv_unmapPush (hc : s.pc p = .unmapPush t v x vs) : Inv ((s.push x).goto p (.unmapClear t v vs)) := by
  have hp := not_embryo hc (by simp)
  have hloc := h.at_pc hc
  refine h.move hp hloc.1 (fun j hj => rfl) (fun j hj => goto_of_ne _ _ hj) (goto_self ..) (h.keyed t) (fun U L _ ha => ?_)
    (fun u w e => ?_) (fun w f hw hfc => ?_) ?_
  · rw [hc, show moving (.unmapPush t v x vs) = {x} from rfl, add_one] at ha
    simpa [pend, moving] using ha.push
  · rw [hc] at e
    cases e
    rfl
  · have := h.site_of hp hloc.1 hw hfc
    rw [hc] at this
    exact this
  · exact ⟨Mine.keep hloc.1 hp (fun j hj => goto_of_ne _ _ hj), hloc.2⟩

theorem inv_unmapClear (hc : s.pc p = .unmapClear t v vs) :
    Inv ((s.setPt t ((s.pt t).clear v)).goto p (.unmap t vs)) := by
  have hp := not_embryo hc (by simp)
  have hloc := h.at_pc hc
  obtain ⟨hmine, e, hf⟩ := hloc
  refine h.move hp hmine (fun j => setPt_of_ne _ _) (fun j => goto_of_ne _ _) (goto_self ..) ?_ (fun U L _ ha => ?_)
    (fun u w e => ?_) (fun w f hw hfc => ?_) ?_
  · simpa using (h.keyed t).clear v
  · rw [hc, refs_clear (h.keyed t) hf, held_false] at ha
    simpa [pend, moving] using ha
  · rw [hc] at e
    cases e
    rfl
  · rw [St.goto_pt, setPt_self] at hw
    have := h.site_of hp hmine (find_of_clear hw) hfc
    rw [hc] at this
    cases this
    rw [find_clear, if_pos rfl] at hw
    cases hw
  · exact Mine.keep hmine hp (fun j => goto_of_ne _ _)

theorem inv_finish (hp : ∀ r, s.pc p ≠ .embryo r) (hq : Mine s p q)
    (hold : pend (s.pc p) = 0 ∧ moving (s.pc p) = 0 ∧ site (s.pc p) = none) : Inv ((s.goto q .idle).goto p .idle) := by
  by_cases hqp : q = p
  · subst hqp
    exact h.goto hp hold.2.2 rfl (by simp [St.goto]) (acct_same (c := .idle) hold.1.symm hold.2.1.symm rfl rfl rfl) trivial
  · refine h.switch hqp hp (.inr (hq.resolve_left hqp)) (.inl ?_) rfl (fun j hj hj' => ?_) (goto_self ..) hold
      ⟨rfl, rfl⟩ trivial
    · rw [goto_of_ne _ _ hqp, goto_self]
    · rw [goto_of_ne _ _ hj, goto_of_ne _ _ hj']

theorem inv_copyPage (hc : s.pc p = .copy q (v :: vs) done) :
    Inv (copyPage s p q v vs done) := by
  have hp := not_embryo hc (by simp)
  have hloc := h.at_pc hc
  have hsite : site (s.pc p) = none := by rw [hc]; rfl
  have hqp : q ≠ p := by
    rintro rfl
    exact hp q hloc
  unfold copyPage
  split
  · refine h.pass hc (by simp) rfl rfl rfl ?_
    exact (goto_of_ne _ _ hqp).trans hloc
  rename_i e hf
  have hcounted : e.counted = true := by
    by_contra hn
    have := h.site_of hp (.inl rfl) hf (by simpa using hn)
    rw [hsite] at this
    cases this
  obtain ⟨pte, cnt⟩ := e
  obtain rfl : cnt = true := hcounted
  refine h.store hc (by simp) rfl ((h.keyed p).put _ _) (fun w f => find_of_put) rfl ?_
    ⟨(goto_of_ne _ _ hqp).trans hloc, { pte with w := false }, by simp, rfl⟩
  rw [refs_clear (h.keyed p) hf]
  rfl

theorem inv_copyMap
    (hc : s.pc p = .copyMap q v e vs done) (hnone : (s.pt q).find v = none) :
    Inv ((s.setPt q ((s.pt q).put v ⟨{ e with w := false }, false⟩)).goto p (.copyIncref q v e.pa vs done)) := by
  have hp := not_embryo hc (by simp)
  have hloc := h.at_pc hc
  obtain ⟨hq, hpar⟩ := hloc
  have hqp : q ≠ p := by
    rintro rfl
    exact hp q hq
  refine h.move hp (.inr hq) (fun j => setPt_of_ne _ _) (fun j => goto_of_ne _ _) (goto_self ..) ?_ (fun U L _ ha => ?_)
    (fun u w e => ?_) (fun w f hw hfc => ?_) ?_
  · simpa using (h.keyed q).put v ⟨{ e with w := false }, false⟩
  · rw [hc] at ha
    rw [St.goto_pt, setPt_self, refs_put, held_false, zero_add, clear_of_find_none hnone]
    exact ha
  · rw [hc] at e
    cases e
  · rw [St.goto_pt, setPt_self, find_put] at hw
    split at hw
    · rename_i hwv
      rw [hwv]
      rfl
    · have := h.site_of hp (.inr hq) hw hfc
      rw [hc] at this
      cases this
  · refine ⟨(goto_of_ne _ _ hqp).trans hq, ⟨{ e with w := false }, by simp, rfl⟩, ?_⟩
    rw [St.goto_pt, setPt_of_ne _ _ hqp.symm]
    exact hpar

theorem inv_copyIncref {e : Entry} (hc : s.pc p = .copyIncref q v x vs done) (hf : (s.pt q).find v = some e) :
    Inv (((s.setRef x (s.ref x + 1)).setPt q ((s.pt q).put v { e with counted := true })).goto p
      (.copy q vs (v :: done))) := by
  have hp := not_embryo hc (by simp)
  have hloc := h.at_pc hc
  obtain ⟨hq, ⟨e', he', rfl⟩, pe, hpe, hpx⟩ := hloc
  have hqp : q ≠ p := by
    rintro rfl
    exact hp q hq
  rw [hf] at he'
  obtain rfl := some.inj he'
  have huse : e'.pa ∈ uses s := hpx ▸ mem_uses (h.keyed p) hpe
  refine h.move hp (.inr hq) (fun j => setPt_of_ne _ _) (fun j => goto_of_ne _ _) (goto_self ..) ?_ (fun U L hU ha => ?_)
    (fun u w e => ?_) (fun w f hw hfc => ?_) ?_
  · simpa using (h.keyed q).put v ⟨e', true⟩
  · have := ha.inc (hU ▸ huse)
    rw [hc, refs_clear (h.keyed q) hf, held_false, zero_add, ← singleton_add, add_left_comm] at this
    rw [St.goto_pt, setPt_self, refs_put, add_assoc, add_assoc]
    rw [add_assoc] at this
    exact this
  · rw [hc] at e
    cases e
    rfl
  · rw [St.goto_pt, setPt_self] at hw
    have := h.site_of hp (.inr hq) (find_of_put hw hfc) hfc
    rw [hc] at this
    cases this
    rw [find_put, if_pos rfl] at hw
    cases hw
    cases hfc
  · exact (goto_of_ne _ _ hqp).trans hq

/-! ## Runs -/

theorem inv_advance {ok : Bool} (hcur : Current s (.advance p ok)) (hs : advance s p ok = some s') : Inv s' := by
  have hloc := h.loc p
  unfold Local at hloc
  unfold advance at hs
  cases hc : s.pc p with
  | idle => simp [hc] at hs
  | embryo r => simp [hc] at hs
  | cowRef v e =>
    simp only [hc] at hs hloc
    obtain rfl := some.inj hs
    by_cases hr : s.ref e.pa > 1
    · rw [if_pos hr]
      exact h.pass hc (by simp) rfl rfl rfl hloc
    · rw [if_neg hr]
      exact h.pass hc (by simp) rfl rfl rfl hloc
  | cowAllow v e =>
    simp only [hc] at hs
    exact some.inj hs ▸ inv_cowAllow h hc
  | cowUnmap v e mem =>
    simp only [hc] at hs
    exact some.inj hs ▸ inv_cowUnmap h hc
  | cowMap v e mem =>
    simp only [hc] at hs
    exact some.inj hs ▸ inv_cowMap h hc
  | cowDecref x =>
    simp only [hc] at hs
    have hx : 2 ≤ s.ref x := hcur x (by simp [decrefs, hc])
    exact some.inj hs ▸ inv_drop h (.inl hc) (.inl ⟨by omega, rfl⟩)
  | kallocPop k =>
    simp only [hc] at hs
    exact inv_kallocPop h hc hs
  | kallocSet k r =>
    simp only [hc] at hs
    exact some.inj hs ▸ inv_kallocSet h hc
  | vmfMap v mem =>
    simp only [hc] at hs
    split at hs
    · exact some.inj hs ▸ inv_vmfMap h hc
    obtain rfl := some.inj hs
    exact h.pass hc (by simp) rfl rfl rfl trivial
  | freeDec x =>
    simp only [hc] at hs
    split at hs
    · cases hs
    obtain rfl := some.inj hs
    refine inv_drop h (.inr hc) ?_
    split
    · exact .inr ⟨‹_›, rfl⟩
    · exact .inl ⟨‹_›, rfl⟩
  | freePush x =>
    simp only [hc] at hs
    exact some.inj hs ▸ inv_freePush h hc
  | unmap t vs =>
    cases vs with
    | nil =>
      simp only [hc] at hs hloc
      refine some.inj hs ▸ inv_finish h (not_embryo hc (by simp)) hloc ?_
      rw [hc]
      exact ⟨rfl, rfl, rfl⟩
    | cons v vs =>
      simp only [hc] at hs
      exact inv_unmapPage h hc hs
  | unmapPush t v x vs =>
    simp only [hc] at hs
    exact some.inj hs ▸ inv_unmapPush h hc
  | unmapClear t v vs =>
    simp only [hc] at hs
    exact some.inj hs ▸ inv_unmapClear h hc
  | copy q vs done =>
    cases vs with
    | nil =>
      simp only [hc] at hs hloc
      refine some.inj hs ▸ inv_finish h (not_embryo hc (by simp)) (.inr hloc) ?_
      rw [hc]
      exact ⟨rfl, rfl, rfl⟩
    | cons v vs =>
      simp only [hc] at hs
      exact some.inj hs ▸ inv_copyPage h hc
  | copyMap q v e vs done =>
    simp only [hc] at hs hloc
    split at hs
    · cases hs
    rename_i hnone
    split at hs
    · exact some.inj hs ▸ inv_copyMap h hc (by simpa using hnone)
    obtain rfl := some.inj hs
    refine h.pass hc (by simp) rfl rfl rfl ?_
    exact Mine.keep (.inr hloc.1) (not_embryo hc (by simp)) (fun j => goto_of_ne _ _)
  | copyIncref q v x vs done =>
    simp only [hc] at hs
    split at hs
    · cases hs
    · rename_i e hf
      exact some.inj hs ▸ inv_copyIncref h hc hf

theorem inv_step {a : Act} (hcur : Current s a) (hs : step s a = some s') : Inv s' := by
  cases a with
  | cowfault p v =>
    simp only [step] at hs
    split at hs
    · exact some.inj hs ▸ inv_cowfault h ‹_›
    · cases hs
  | vmfault p v =>
    simp only [step] at hs
    split at hs
    · rename_i hi
      obtain rfl := some.inj hs
      split
      · exact h
      rename_i hf
      refine h.pass hi (by simp) rfl rfl rfl ?_
      exact not_isSome_iff_eq_none.1 hf
    · cases hs
  | uvmunmap p vs =>
    simp only [step] at hs
    split at hs
    · rename_i hi
      obtain rfl := some.inj hs
      exact h.pass hi (by simp) rfl rfl rfl (.inl rfl)
    · cases hs
  | uvmcopy p q n =>
    simp only [step] at hs
    split at hs
    · rename_i hi
      obtain ⟨hi, hq, hne, -⟩ := hi
      obtain rfl := some.inj hs
      have hq' : ((s.goto q (.embryo p)).goto p (.copy q (List.range n) [])).pc q = .embryo p := by
        rw [goto_of_ne _ _ hne.symm, goto_self]
      refine h.switch hne.symm (not_embryo hi (by simp)) (.inl hq) (.inr hq') rfl (fun j hj hj' => ?_) (goto_self ..) ?_
        ⟨rfl, rfl⟩ hq'
      · rw [goto_of_ne _ _ hj, goto_of_ne _ _ hj']
      · rw [hi]
        exact ⟨rfl, rfl, rfl⟩
    · cases hs
  | kalloc p =>
    simp only [step] at hs
    split at hs
    · rename_i hi
      obtain rfl := some.inj hs
      exact h.pass hi (by simp) rfl rfl rfl trivial
    · cases hs
  | kfree p x =>
    simp only [step] at hs
    split at hs
    · rename_i hi
      obtain ⟨hi, hx⟩ := hi
      obtain rfl := some.inj hs
      refine h.goto (not_embryo hi (by simp)) (by rw [hi]; rfl) rfl rfl (fun U L ha => ?_) ?_
      · rw [hi, show pend .idle = 0 from rfl, add_zero, ← Multiset.cons_erase (Multiset.mem_coe.2 hx), ← add_one] at ha
        exact ha
      · trivial
    · cases hs
  | advance p ok => exact inv_advance h hcur hs

end

theorem inv_boot : Inv boot where
  keyed := fun _ => List.nodup_nil
  acct := by
    have hu : uses boot = 0 := by
      unfold uses
      have hr : (procs.map (fun t => refs (boot.pt t))).sum = 0 := Sum.sum_map_zero (fun _ _ => rfl)
      have hp : (procs.map (fun p => pend (boot.pc p))).sum = 0 := Sum.sum_map_zero (fun _ _ => rfl)
      rw [hr, hp]
      rfl
    have hl : limbo boot = 0 := Sum.sum_map_zero (fun _ _ => rfl)
    rw [hu, hl]
    refine ⟨fun x => by simp [boot], ?_, fun x _ => rfl, fun x hi _ => ?_⟩
    · rw [add_zero]
      exact List.nodup_range'
    · rw [add_zero, Multiset.mem_coe]
      simp only [boot, List.mem_range'_1]
      obtain ⟨h1, h2⟩ := hi
      omega
  counted := fun t v e hf _ => by simp [boot, Table.find] at hf
  loc := fun _ => trivial

theorem Inv.noneLost (h : Inv s) : NoneLost s := by
  intro hq x hi hmap hown
  have hpend : (procs.map (fun p => pend (s.pc p))).sum = 0 := Sum.sum_map_zero (fun p _ => by rw [hq p]; rfl)
  have hlimbo : limbo s = 0 := Sum.sum_map_zero (fun p _ => by rw [hq p]; rfl)
  have hx : x ∉ uses s := by
    unfold uses
    rw [hpend, add_zero, mem_add, not_or]
    refine ⟨fun hm => ?_, hown⟩
    obtain ⟨t, -, ht⟩ := Sum.mem_sum_map.1 hm
    obtain ⟨v, e, hf, hpa⟩ := mem_refs (h.keyed t) ht
    exact hmap t v e hf hpa
  have h0 : s.ref x = 0 := by
    rw [h.acct.counts x, Multiset.count_eq_zero_of_notMem hx]
    rfl
  have := h.acct.lost x hi h0
  rw [hlimbo, add_zero] at this
  exact this

/-- **No page is lost** in a run in which every `decref` of `cowfault` finds the count above one. -/
theorem no_page_lost (as : List Act) (hcur : Run.allSteps step Current boot as) : Run.allStates step NoneLost boot as :=
  Run.allStates_mono (fun _ => Inv.noneLost) as _
    (Run.allStates_of_allSteps (fun _ _ _ h hc => inv_step h hc) as _ inv_boot hcur)

end Run

/-! ## Two sharers fault at once -/

@[reducible] def fourPages : Link := ⟨Vm.stopPage - 4, 0x80007, 0x80008⟩

def child : Slot := ⟨1, one_lt_nproc⟩

def shareOne : List Act :=
  .vmfault initSlot 0 :: List.replicate 3 (.advance initSlot true) ++
    .uvmcopy initSlot child 1 :: List.replicate 4 (.advance initSlot true)

def faultWhole (p : Slot) : List Act := .cowfault p 0 :: List.replicate 6 (.advance p true)

/-- Both processes fault on the page and read the count, two, before either of them decrements it. -/
def faultBoth : List Act :=
  [.cowfault initSlot 0, .cowfault child 0, .advance initSlot true, .advance child true] ++
    List.replicate 5 (.advance initSlot true) ++ List.replicate 5 (.advance child true)

theorem no_page_lost_faultWhole :
    letI := fourPages
    Run.allSteps step Current boot (shareOne ++ faultWhole initSlot) ∧
      Run.allStates step NoneLost boot (shareOne ++ faultWhole initSlot) := by
  let := fourPages
  have h : Run.allSteps step Current boot (shareOne ++ faultWhole initSlot) := by decide +kernel
  exact ⟨h, no_page_lost _ h⟩

/-- **Two faults at once lose the page**: both copy, both decrement, the count reaches zero and nobody frees the page. -/
theorem page_lost_faultBoth :
    letI := fourPages
    ∃ s, Run.run step boot (shareOne ++ faultBoth) = some s ∧ ¬ NoneLost s := by
  let := fourPages
  have hrun : (Run.run step boot (shareOne ++ faultBoth)).map (fun s =>
      (decide (Quiet s), decide (InRange (Vm.stopPage - 4)), decide (∀ t, ∀ m ∈ s.pt t, m.2.pte.pa ≠ Vm.stopPage - 4),
        s.owned, decide (Vm.stopPage - 4 ∈ s.free))) = some (true, true, true, [], false) := by decide +kernel
  obtain ⟨s, hs, he⟩ := map_eq_some_iff.1 hrun
  simp only [Prod.mk.injEq, decide_eq_true_eq, decide_eq_false_iff_not] at he
  obtain ⟨hq, hi, hmap, hown, hfree⟩ := he
  refine ⟨s, hs, fun hn => hfree (hn hq _ hi (fun t v e hf => ?_) (by simp [hown]))⟩
  obtain ⟨m, hm, rfl⟩ := map_eq_some_iff.1 hf
  exact hmap t m (List.mem_of_find?_eq_some hm)

end Xv6.Cow
