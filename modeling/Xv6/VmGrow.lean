import Xv6.VmSize
/-!
# VmGrow — `uvmalloc` is all or nothing

A table grows page by page; at any page `kalloc` or `mappages` may find no memory, and what has been mapped is then unmapped.
`Growing` is the table between two pages: what was mapped is as it was, and each new page is mapped once and holds zeros.
-/
namespace Xv6.Vm

open Function Multiset Wp
variable [Link] {F : Panic → Prop} {k k0 : Kmem} {E : Multiset Nat} {t t0 t2 : Pt} {oldv v p : Nat} {f : Flags}

structure Mints (E : Multiset Nat) (t0 : Pt) (oldv v : Nat) (f : Flags) (k : Kmem) (t : Pt) : Prop where
  page : ∀ u, oldv ≤ u → u < v → ∃ p, t.pte u = some { f with pa := p } ∧ p ∉ E + leaves t0.pte ∧ k.mem p = fun _ => 0
  distinct : ∀ u u' e e', oldv ≤ u → u < u' → u' < v → t.pte u = some e → t.pte u' = some e' → e.pa ≠ e'.pa

structure Growing (E : Multiset Nat) (k0 : Kmem) (t0 : Pt) (oldv v : Nat) (k : Kmem) (t : Pt) : Prop where
  wf : Wf t
  acc : Acc k (E + uses t)
  keeps : Keeps (E + leaves t0.pte) k0 k
  other : ∀ u, u < oldv ∨ v ≤ u → t.pte u = t0.pte u

section
variable (h : Growing E k0 t0 oldv v k t)
include h

theorem Growing.leaves_le (hnone : ∀ u, oldv ≤ u → u < trapVpn → t0.pte u = none)
    (hv : v ≤ trapVpn) : leaves t0.pte ≤ leaves t.pte := by
  refine Vm.leaves_le (fun u => ?_)
  by_cases hu : u < oldv ∨ v ≤ u
  · exact .inr (h.other u hu).symm
  · exact .inl (hnone u (by omega) (by omega))

theorem Growing.back (hov : oldv ≤ v) (hv : v ≤ trapVpn) (hnone : ∀ u, oldv ≤ u → u < trapVpn → t0.pte u = none) :
    wp (uvmdealloc t (v * 4096) (oldv * 4096)) (fun r k' => Growing E k0 t0 oldv oldv k' r.2) F k := by
  unfold uvmdealloc
  rw [pgs_mul, pgs_mul]
  refine wp_ite (fun hge => ?_) (fun hlt => wp_ite (fun hlt' => ?_) (fun hge => absurd hlt (by omega)))
  · obtain rfl : v = oldv := by omega
    exact h
  refine wp_then (uvmunmap_free (v - oldv) h.wf (by omega) h.acc) (fun t' k' ⟨hw', _, hp', ha', hk'⟩ => ?_)
  have hpte : t'.pte = t0.pte := by
    funext u
    rw [hp', cleared]
    by_cases hu : oldv ≤ u ∧ u < oldv + (v - oldv)
    · rw [if_pos hu, hnone u hu.1 (by omega)]
    · rw [if_neg hu, h.other u (by omega)]
  refine ⟨hw', ha', h.keeps.trans (hk'.mono ?_), fun u _ => congrFun hpte u⟩
  rw [← hpte]
  exact add_le_add (le_refl E) (le_add_left _ _)

theorem Growing.mapped {k1 k2 : Kmem} (hm : Mints E t0 oldv v f k t)
    (hov : oldv ≤ v) (hv : v < trapVpn) (hnone : ∀ u, oldv ≤ u → u < trapVpn → t0.pte u = none)
    (hk1 : Keeps (E + uses t) k k1) (hp : p ∉ E + uses t) (hz : k1.mem p = fun _ => 0)
    (hg : Grown (p ::ₘ (E + leaves t.pte)) k1 t k2 t2) (hpte : t2.pte = update t.pte v (some { f with pa := p })) :
    Growing E k0 t0 oldv (v + 1) k2 t2 ∧ Mints E t0 oldv (v + 1) f k2 t2 := by
  have hle := h.leaves_le hnone (by omega)
  have hvnone : t.pte v = none := by rw [h.other v (.inr (le_refl v)), hnone v hov hv]
  have hleaves : E + leaves t.pte ≤ E + uses t := add_le_add (le_refl E) (le_add_left _ _)
  have hkeep : Keeps (E + leaves t.pte) k k2 :=
    Keeps.trans (hk1.mono hleaves) (hg.keeps.mono (le_cons_self _ _))
  have hfresh : p ∉ E + leaves t.pte := fun hmem => hp (mem_of_le hleaves hmem)
  have hold : ∀ u, u ≠ v → t2.pte u = t.pte u := fun u hu => by rw [hpte, update_of_ne hu]
  have hnew : t2.pte v = some { f with pa := p } := by rw [hpte, update_self]
  constructor
  · refine ⟨hg.wf, hg.acc.of_eq (uses_mapped hv hvnone hpte), h.keeps.trans (hkeep.mono (add_le_add (le_refl E) hle)), ?_⟩
    intro u hu
    rw [hold u (by omega), h.other u (by omega)]
  constructor
  · intro u hou huv
    by_cases e : u = v
    · subst e
      refine ⟨p, hnew, fun hmem => hfresh (mem_of_le (add_le_add (le_refl E) hle) hmem), ?_⟩
      rw [(hg.keeps p (Multiset.mem_cons_self _ _)).1, hz]
    · obtain ⟨q, hq, hqf, hqz⟩ := hm.page u hou (by omega)
      refine ⟨q, (hold u e).trans hq, hqf, ?_⟩
      have hmem : q ∈ E + leaves t.pte := mem_add.2 (.inr (mem_leaves (by omega) hq))
      rw [(hkeep q hmem).1, hqz]
  · intro u u' e e' hou hlt huv he he'
    by_cases hu' : u' = v
    · -- the last page is none of those mapped before
      subst hu'
      rw [hnew] at he'
      cases he'
      rw [hold u (by omega)] at he
      intro heq
      have hpa : e.pa = p := heq
      refine hfresh (mem_add.2 (.inr ?_))
      rw [← hpa]
      exact mem_leaves (by omega) he
    · rw [hold u (by omega)] at he
      rw [hold u' hu'] at he'
      exact hm.distinct u u' e e' hou hlt (by omega) he he'

end

theorem uvmallocLoop_mints {w x : Bool} (hnone : ∀ u, oldv ≤ u → u < trapVpn → t0.pte u = none) :
    ∀ (n : Nat) {t : Pt} {v : Nat} {k : Kmem}, oldv ≤ v → v + n ≤ trapVpn → Growing E k0 t0 oldv v k t →
    Mints E t0 oldv v ⟨true, w, x, true⟩ k t →
    wp (uvmallocLoop oldv w x t v n) (fun r k' => if r.1 then Growing E k0 t0 oldv (v + n) k' r.2 ∧
      Mints E t0 oldv (v + n) ⟨true, w, x, true⟩ k' r.2 else Growing E k0 t0 oldv oldv k' r.2) F k
  | 0, t, v, k, _, _, h, hm => ⟨h, hm⟩
  | n + 1, t, v, k, hov, hle, h, hm => by
    -- what has been mapped so far goes back
    have hback : ∀ {t1 : Pt} {k1 : Kmem}, Growing E k0 t0 oldv v k1 t1 →
        wp (uvmdealloc t1 (v * 4096) (oldv * 4096) >>= fun r => pure (false, r.2)) (fun r k' =>
          if r.1 = true then Growing E k0 t0 oldv (v + (n + 1)) k' r.2 ∧
            Mints E t0 oldv (v + (n + 1)) ⟨true, w, x, true⟩ k' r.2 else Growing E k0 t0 oldv oldv k' r.2) F k1 := by
      intro t1 k1 h1
      exact wp_then (h1.back hov (by omega) hnone) (fun _ _ h2 => h2)
    refine kalloc_use h.acc (hback h) (fun p k1 ha1 hk1 hp href => ?_)
    refine memset_use ha1 hk1 hp href (fun k2 ha2 hk2 _ hz2 => ?_)
    rw [wp_bind]
    have hv : v < trapVpn := by omega
    have hvnone : t.pte v = none := by rw [h.other v (.inr (Nat.le_refl v)), hnone v hov hv]
    refine wp_use (mappages_spec ⟨.inl (lt_maxVpn hv), .inl hvnone⟩ h.wf (ha2.of_eq uses_taken)) ?_
    rintro r k3 ⟨hg, hr⟩
    obtain ⟨ok, t3⟩ := r
    refine wp_ite (fun hok => ?_) (fun hok => ?_)
    · rw [if_pos hok] at hr
      obtain ⟨-, hpte, -⟩ := hr
      obtain ⟨h3, hm3⟩ := h.mapped hm hov hv hnone hk2 hp hz2 hg hpte
      have hnext := uvmallocLoop_mints hnone n (by omega) (by omega) h3 hm3
      rw [show v + 1 + n = v + (n + 1) by omega] at hnext
      exact hnext
    · rw [if_neg hok] at hr
      rw [wp_bind]
      have ha3 : Acc k3 (p ::ₘ (E + uses t3)) := hg.acc.of_eq (by rw [← hr, ← uses_taken])
      refine wp_use (kfree_spec ha3) ?_
      rintro _ k4 ⟨ha4, hk4⟩
      have hle0 : E + leaves t0.pte ≤ E + leaves t.pte := add_le_add (le_refl E) (h.leaves_le hnone (by omega))
      have hk24 : Keeps (E + leaves t.pte) k k4 := by
        refine Keeps.trans (Keeps.trans (hk2.mono ?_) (hg.keeps.mono (le_cons_self _ _))) (hk4.mono ?_)
        · exact add_le_add (le_refl E) (le_add_left _ _)
        · rw [← hr]
          exact add_le_add (le_refl E) (le_add_left _ _)
      exact hback ⟨hg.wf, ha4, h.keeps.trans (hk24.mono hle0), fun u hu => by rw [hr, h.other u hu]⟩

/-- **Growing memory is all or nothing**: for every table whose user pages lie below `PGROUNDUP(oldsz)`, whatever else uses
memory (`E`) and however many pages are free, `uvmalloc` returns `newsz` with every page from `PGROUNDUP(oldsz)` to `newsz`
mapped with the permissions asked for, to distinct pages of zeros that nobody used, or 0 with the entries there were. The
other entries and the contents of every page in use stay. -/
theorem uvmalloc_all_or_nothing {oldsz newsz : Nat} {w x : Bool} (hw : Wf t)
    (hbelow : ∀ u e, u < trapVpn → t.pte u = some e → u < pgs oldsz) (ha : Acc k (E + uses t)) (hle : oldsz ≤ newsz)
    (hmax : newsz ≤ trapVpn * 4096) :
    ∃ sz t' k', (uvmalloc t oldsz newsz w x).run k = .ok ((sz, t'), k') ∧
      (∀ p ∈ E + leaves t.pte, k'.mem p = k.mem p) ∧ Acc k' (E + uses t') ∧
      (sz = newsz ∧ Mints E t (pgs oldsz) (pgs newsz) ⟨true, w, x, true⟩ k' t' ∧
          (∀ u, u < pgs oldsz ∨ pgs newsz ≤ u → t'.pte u = t.pte u) ∨
        sz = 0 ∧ t'.pte = t.pte) := by
  have hnone : ∀ u, pgs oldsz ≤ u → u < trapVpn → t.pte u = none := by
    intro u hu hut
    by_contra hne
    obtain ⟨e, he⟩ := Option.ne_none_iff_exists'.1 hne
    have := hbelow u e hut he
    omega
  have hmono := pgs_mono hle
  have htop : pgs newsz ≤ trapVpn := by
    have := pgs_mono hmax
    rwa [pgs_mul] at this
  have h0 : Growing E k t (pgs oldsz) (pgs oldsz) k t := ⟨hw, ha, Keeps.refl _ _, fun _ _ => rfl⟩
  have hm0 : Mints E t (pgs oldsz) (pgs oldsz) ⟨true, w, x, true⟩ k t :=
    ⟨fun u h1 h2 => by omega, fun u u' e e' h1 h2 h3 => by omega⟩
  have hloop := uvmallocLoop_mints (F := fun _ => False) hnone (pgs newsz - pgs oldsz) le_rfl (by omega) h0 hm0
  rw [show pgs oldsz + (pgs newsz - pgs oldsz) = pgs newsz by omega] at hloop
  have hspec : wp (uvmalloc t oldsz newsz w x)
    (fun r k' => (∀ p ∈ E + leaves t.pte, k'.mem p = k.mem p) ∧ Acc k' (E + uses r.2) ∧
      (r.1 = newsz ∧ Mints E t (pgs oldsz) (pgs newsz) ⟨true, w, x, true⟩ k' r.2 ∧
          (∀ u, u < pgs oldsz ∨ pgs newsz ≤ u → r.2.pte u = t.pte u) ∨
        r.1 = 0 ∧ r.2.pte = t.pte)) (fun _ => False) k := by
    unfold uvmalloc
    rw [if_neg (by omega)]
    refine wp_then hloop (fun r k' hr => ?_)
    obtain ⟨ok, t'⟩ := r
    cases ok with
    | true =>
      exact ⟨fun p hp => (hr.1.keeps p hp).1, hr.1.acc, .inl ⟨rfl, hr.2, hr.1.other⟩⟩
    | false =>
      exact ⟨fun p hp => (hr.keeps p hp).1, hr.acc, .inr ⟨rfl, funext (fun u => hr.other u (by omega))⟩⟩
  obtain ⟨⟨sz, t'⟩, k', hrun, hpost⟩ := wp_run hspec
  exact ⟨sz, t', k', hrun, hpost⟩

omit [Link] in
/-- The first program grows by two pages. -/
theorem uvmalloc_all_or_nothing_init : ∃ s t sz t' k',
    @Run.run VmState VmAct (@vmStep kernelImage) (@vmBoot kernelImage) (.kvminit :: toInit) = some s ∧
    (s.proc initSlot).pagetable = some t ∧ (@uvmalloc kernelImage t 8192 16000 true false).run s.k = .ok ((sz, t'), k') ∧
    (sz = 16000 ∨ sz = 0 ∧ t'.pte = t.pte) := by
  obtain ⟨s, t, hs, ht, hsz⟩ := holds_of_boot toInit (fun s _ => (s.proc initSlot).sz = 8192) (by decide +kernel)
  have hfits := @fits_of_eager kernelImage (.kvminit :: toInit) (by decide)
  have hsound : @Sound kernelImage s := Run.allStates_last _ _ _ (@inv_run kernelImage _ hfits) hs
  have hu := (@VmInv.proc kernelImage _ _ hsound initSlot).user t ht
  have hacc := @VmInv.table kernelImage _ _ initSlot t hsound ht
  obtain ⟨sz, t', k', hr, -, -, hor⟩ := @uvmalloc_all_or_nothing kernelImage s.k _ t 8192 16000 true false hu.wf
    (fun u e hut he => hsz ▸ hu.bound u e hut he) hacc (by omega) (by unfold trapVpn; omega)
  exact ⟨s, t, sz, t', k', hs, ht, hr, hor.imp And.left id⟩

end Xv6.Vm
