import Xv6.VmExec
import Xv6.VmTableSpec
/-!
# VmUser — user page tables

`User sole k t n R` says of a user page table of `n` pages that it shows the bytes `R`: a mapped page holds them, an
unmapped one is all zeros in `R`, so that a page faulted in later is right too. A page that is mapped writable has no
other use; with `sole`, as in a program being loaded, no page has. Each function of `vm.c` on user tables keeps this.
-/
namespace Xv6.Vm

open Multiset Function Option Wp
variable {F : Panic → Prop} {sole w : Bool} {R : Nat → UInt8} {new : Pt}

theorem trap_lt_trampoline : trapVpn < trampolineVpn := by
  unfold trapVpn trampolineVpn
  omega

theorem trampoline_lt_max : trampolineVpn < maxVpn := by
  unfold trampolineVpn maxVpn
  omega

variable {v n m p sz i newsz oldsz oldv tf : Nat} {own : Multiset Nat} {k' k1 k2 k : Kmem} {x : Option Pte}
  {R' : Nat → UInt8} {t t' old new1 : Pt} {e : Pte}

theorem eq_trap_or_trampoline (h : trapVpn ≤ v) (h' : v < maxVpn) : v = trapVpn ∨ v = trampolineVpn := by
  unfold trapVpn at h ⊢
  unfold maxVpn at h'
  unfold trampolineVpn
  omega

/-- Entry `x` of virtual page `v` shows what it should. -/
def Shows (sole : Bool) (k : Kmem) (R : Nat → UInt8) (v : Nat) : Option Pte → Prop
  | none => ∀ o, o < 4096 → R (v * 4096 + o) = 0
  | some e => (sole = true ∨ e.w = true → k.ref e.pa = 1) ∧ ∀ o, o < 4096 → k.mem e.pa o = R (v * 4096 + o)

structure User (sole : Bool) (k : Kmem) (t : Pt) (n : Nat) (R : Nat → UInt8) : Prop where
  wf : Wf t
  size : n ≤ trapVpn
  bound : ∀ v e, v < trapVpn → t.pte v = some e → v < n
  trap : (t.pte trapVpn).isSome = true ∧ (t.pte trampolineVpn).isSome = true
  high : ∀ v e, trapVpn ≤ v → t.pte v = some e → e.u = false
  shows : ∀ v, v < trapVpn → Shows sole k R v (t.pte v)

theorem Shows.frame (h : Shows sole k R v x)
    (hk : Keeps own k k') (hx : ∀ e, x = some e → e.pa ∈ own) : Shows sole k' R v x := by
  cases x with
  | none => exact h
  | some e =>
    obtain ⟨hm, hr⟩ := hk e.pa (hx e rfl)
    exact ⟨fun hw => hr (h.1 hw), fun o ho => by rw [hm]; exact h.2 o ho⟩

theorem Shows.congr (h : Shows sole k R v x)
    (hR : ∀ o, o < 4096 → R' (v * 4096 + o) = R (v * 4096 + o)) : Shows sole k R' v x := by
  cases x with
  | none => exact fun o ho => (hR o ho).trans (h o ho)
  | some e => exact ⟨h.1, fun o ho => (h.2 o ho).trans (hR o ho).symm⟩

section
variable (h : User sole k t n R)
include h

theorem User.frame (hk : Keeps own k k') (hle : leaves t.pte ≤ own) : User sole k' t n R :=
  ⟨h.wf, h.size, h.bound, h.trap, h.high, fun v hv =>
    (h.shows v hv).frame hk (fun _ he => mem_of_le hle (mem_leaves hv he))⟩

theorem User.congr (hR : ∀ v, v < trapVpn → ∀ o, o < 4096 → R' (v * 4096 + o) = R (v * 4096 + o)) : User sole k t n R' :=
  ⟨h.wf, h.size, h.bound, h.trap, h.high, fun v hv => (h.shows v hv).congr (hR v hv)⟩

theorem User.weaken : User false k t n R := by
  refine ⟨h.wf, h.size, h.bound, h.trap, h.high, fun v hv => ?_⟩
  have hs := h.shows v hv
  cases hx : t.pte v with
  | none =>
    rw [hx] at hs
    exact hs
  | some e =>
    rw [hx] at hs
    exact ⟨fun hw => hs.1 (.inr (by simpa using hw)), hs.2⟩

theorem User.ofPte (hw : Wf t') (hp : t'.pte = t.pte) : User sole k t' n R :=
  ⟨hw, h.size, by rw [hp]; exact h.bound, by rw [hp]; exact h.trap, by rw [hp]; exact h.high, by rw [hp]; exact h.shows⟩

theorem User.none_of_ge (hv : v < trapVpn) (hn : n ≤ v) : t.pte v = none := by
  by_contra hne
  obtain ⟨e, he⟩ := ne_none_iff_exists'.1 hne
  have := h.bound v e hv he
  omega

theorem User.zero_of_ge (hv : v < trapVpn) (hn : n ≤ v) : ∀ o, o < 4096 → R (v * 4096 + o) = 0 := by
  have hs := h.shows v hv
  rw [h.none_of_ge hv hn] at hs
  exact hs

theorem User.setEntry (hw : Wf t') (hp : t'.pte = update t.pte v x) (hv : v < trapVpn) (hnm : n ≤ m)
    (hm : m ≤ trapVpn) (hvm : v < m) (hk : Keeps own k k') (hle : leaves (update t.pte v none) ≤ own)
    (hR : ∀ w, w < trapVpn → w ≠ v → ∀ o, o < 4096 → R' (w * 4096 + o) = R (w * 4096 + o))
    (hx : Shows sole k' R' v x) : User sole k' t' m R' := by
  refine ⟨hw, hm, fun w e hwt he => ?_, ?_, fun w e hwt he => ?_, fun w hwt => ?_⟩
  · by_cases e' : w = v
    · omega
    · rw [hp, update_of_ne e'] at he
      have := h.bound w e hwt he
      omega
  · rw [hp, update_of_ne (by omega), update_of_ne (by have := trap_lt_trampoline; omega)]
    exact h.trap
  · rw [hp, update_of_ne (by omega)] at he
    exact h.high w e hwt he
  rw [hp]
  by_cases e' : w = v
  · subst e'
    rw [update_self]
    exact hx
  · rw [update_of_ne e']
    refine ((h.shows w hwt).frame hk (fun e he => ?_)).congr (hR w hwt e')
    exact mem_of_le hle (mem_leaves hwt (by rw [update_of_ne e']; exact he))

end

/-! ## Growing and shrinking -/

theorem pgs_mul (v : Nat) : pgs (v * 4096) = v := by
  unfold pgs
  omega

theorem pgs_mono {a b : Nat} (h : a ≤ b) : pgs a ≤ pgs b := by
  unfold pgs
  omega

def cut (R : Nat → UInt8) (n : Nat) : Nat → UInt8 := fun a => if a / 4096 < n then R a else 0

theorem cut_page (R : Nat → UInt8) (n v o : Nat) (ho : o < 4096) :
    cut R n (v * 4096 + o) = if v < n then R (v * 4096 + o) else 0 := by
  unfold cut
  have : (v * 4096 + o) / 4096 = v := by omega
  rw [this]

variable [Link] {k : Kmem} {E own' : Multiset Nat} {f : Flags}

theorem Acc.of_eq (h : Acc k own) (e : own = own') : Acc k own' := e ▸ h

theorem uvmdealloc_spec (hu : User sole k t (pgs oldsz) R) (ha : Acc k (E + uses t)) :
    wp (uvmdealloc t oldsz newsz) (fun r k' => r.1 = min oldsz newsz ∧ Acc k' (E + uses r.2) ∧ Keeps E k k' ∧
      User sole k' r.2 (pgs r.1) (cut R (pgs r.1))) F k := by
  have hsame : ∀ sz, pgs sz = pgs oldsz → User sole k t (pgs sz) (cut R (pgs sz)) := by
    intro sz hsz
    rw [hsz]
    refine hu.congr (fun v hv o ho => ?_)
    rw [cut_page R _ v o ho]
    split
    · rfl
    · exact (hu.zero_of_ge hv (by omega) o ho).symm
  refine wp_ite (fun h => ?_) (fun h => wp_ite (fun hlt => ?_) (fun hge => ?_))
  · exact ⟨(Nat.min_eq_left h).symm, ha, Keeps.refl _ _, hsame oldsz rfl⟩
  · rw [wp_bind]
    have hsz := hu.size
    refine wp_use (uvmunmap_free _ hu.wf (by omega) ha) (fun t' k' ⟨hw', ht', hp', ha', hk'⟩ => ?_)
    rw [wp_pure]
    dsimp only
    refine ⟨(min_eq_right (by omega)).symm, ha', hk'.mono (Multiset.le_add_right _ _), hw', by omega,
      fun v e hv he => ?_, ?_, fun v e hv he => ?_, fun v hv => ?_⟩
    · rw [hp'] at he
      unfold cleared at he
      split at he
      · cases he
      · have := hu.bound v e hv he
        omega
    · rw [hp', cleared, cleared, if_neg (by omega), if_neg (by have := trap_lt_trampoline; omega)]
      exact hu.trap
    · rw [hp', cleared, if_neg (by omega)] at he
      exact hu.high v e hv he
    rw [hp', cleared]
    split
    · intro o ho
      rw [cut_page R _ v o ho, if_neg (by omega)]
    rename_i hnr
    refine ((hu.shows v hv).frame hk' (fun e he => ?_)).congr (fun o ho => ?_)
    · refine mem_of_le (le_trans (Multiset.le_add_left _ (tabs t')) (Multiset.le_add_left _ E)) ?_
      exact mem_leaves hv (by rw [hp', cleared, if_neg hnr]; exact he)
    · rw [cut_page R _ v o ho]
      split
      · rfl
      · exact (hu.zero_of_ge hv (by omega) o ho).symm
  · have : pgs newsz = pgs oldsz := by
      have := pgs_mono (show newsz ≤ oldsz by omega)
      omega
    exact ⟨(Nat.min_eq_right (by omega)).symm, ha, Keeps.refl _ _, hsame newsz this⟩

section
omit [Link]

theorem User.mapped (hu : User sole k t n R) (hw : Wf t')
    (hp : t'.pte = update t.pte v (some { f with pa := p })) (hv : v < trapVpn) (hnm : n ≤ m) (hm : m ≤ trapVpn)
    (hvm : v < m) (hnone : t.pte v = none) (hk1 : Keeps (E + uses t) k k1) (hk2 : Keeps (p ::ₘ (E + leaves t.pte)) k1 k2)
    (href : k1.ref p = 1) (hz : k1.mem p = fun _ => 0) : User sole k2 t' m R := by
  have hupd : update t.pte v none = t.pte := update_eq_self_iff.2 hnone.symm
  have hle : leaves t.pte ≤ E + leaves t.pte := Multiset.le_add_left _ _
  have hk : Keeps (E + leaves t.pte) k k2 := by
    refine Keeps.trans (hk1.mono ?_) (hk2.mono (le_cons_self _ _))
    exact add_le_add (le_refl E) (Multiset.le_add_left _ _)
  obtain ⟨hmem, hr⟩ := hk2 p (mem_cons_self _ _)
  refine hu.setEntry hw hp hv hnm hm hvm hk (by rw [hupd]; exact hle) (fun _ _ _ _ _ => rfl) ⟨fun _ => hr href, ?_⟩
  intro o ho
  have hs := hu.shows v hv
  rw [hnone] at hs
  rw [hmem, hz, hs o ho]

theorem uses_mapped (hv : v < trapVpn) (hnone : t.pte v = none)
    (hp : t'.pte = update t.pte v (some { f with pa := p })) : p ::ₘ (E + leaves t.pte) + tabs t' = E + uses t' := by
  unfold uses
  rw [hp, leaves_insert hv hnone, cons_add, add_cons, add_cons, add_assoc, add_comm (leaves t.pte)]

theorem uses_taken : p ::ₘ (E + uses t) = p ::ₘ (E + leaves t.pte) + tabs t := by
  unfold uses
  rw [cons_add, add_assoc, add_comm (leaves t.pte)]

end

theorem mappages_fresh (hu : User sole k t n R) (hv : v < trapVpn) (hF : t.pte v = none ∨ F .remap)
    (hnm : n ≤ m) (hm : m ≤ trapVpn) (hvm : v < m) (ha : Acc k1 (p ::ₘ (E + uses t))) (hk : Keeps (E + uses t) k k1)
    (href : k1.ref p = 1) (hz : k1.mem p = fun _ => 0) : wp (mappages t v p f 1) (fun r k' => Keeps E k k' ∧
      (if r.1 then t.pte v = none ∧ r.2.pte = update t.pte v (some { f with pa := p }) ∧
          Acc k' (E + uses r.2) ∧ User sole k' r.2 m R
       else r.2.pte = t.pte ∧ Acc k' (p ::ₘ (E + uses r.2)) ∧ User sole k' r.2 n R)) F k1 := by
  refine wp_use (mappages_spec ⟨.inl (lt_maxVpn hv), hF⟩ hu.wf (ha.of_eq uses_taken)) (fun r k2 ⟨hg, hr⟩ => ?_)
  have hkE : Keeps E k k2 := by
    refine Keeps.trans (hk.mono (Multiset.le_add_right _ _)) (hg.keeps.mono ?_)
    exact le_trans (Multiset.le_add_right _ _) (le_cons_self _ _)
  refine ⟨hkE, ?_⟩
  by_cases hok : r.1 = true
  · rw [if_pos hok] at hr ⊢
    obtain ⟨hnone, hp, -⟩ := hr
    exact ⟨hnone, hp, hg.acc.of_eq (uses_mapped hv hnone hp), hu.mapped hg.wf hp hv hnm hm hvm hnone hk hg.keeps href hz⟩
  rw [if_neg hok] at hr ⊢
  refine ⟨hr, hg.acc.of_eq (by rw [← hr, ← uses_taken]), ?_⟩
  have hk2 : Keeps (leaves t.pte) k k2 := by
    refine Keeps.trans (hk.mono ?_) (hg.keeps.mono ?_)
    · exact le_trans (Multiset.le_add_left _ _) (Multiset.le_add_left _ _)
    · exact le_trans (Multiset.le_add_left _ _) (le_cons_self _ _)
  exact (hu.frame hk2 le_rfl).ofPte hg.wf hr

def Mapped (t : Pt) (a b : Nat) : Prop := ∀ v, a ≤ v → v < b → ∃ e, t.pte v = some e ∧ e.u = true

omit [Link] in
theorem User.back (hov : oldv ≤ v) (h : User sole k t (pgs (min (v * 4096) (oldv * 4096)))
      (cut R (pgs (min (v * 4096) (oldv * 4096)))))
    (hz : ∀ w, w < trapVpn → oldv ≤ w → ∀ o, o < 4096 → R (w * 4096 + o) = 0) : User sole k t oldv R := by
  rw [Nat.min_eq_right (by omega), pgs_mul] at h
  refine h.congr (fun w hw o ho => ?_)
  rw [cut_page R _ w o ho]
  split
  · rfl
  · exact hz w hw (by omega) o ho

def Solid (t : Pt) (n : Nat) : Prop := ∀ u, u < n → (t.pte u).isSome = true

omit [Link] in
theorem Mapped.solid (h : Mapped t 0 n) : Solid t n := fun u hu => by
  obtain ⟨e, he, -⟩ := h u (Nat.zero_le u) hu
  rw [he]
  rfl

omit [Link] in
theorem Mapped.grow (h : Mapped t 0 m) (hlow : ∀ u, u < m → t'.pte u = t.pte u) (hm : Mapped t' m n) : Mapped t' 0 n := by
  intro u _ hu
  by_cases hlt : u < m
  · rw [hlow u hlt]
    exact h u (Nat.zero_le u) hlt
  · exact hm u (by omega) hu

/-- What lets a table grow by `n` pages from `v` on: the trapframe is not reached, or the panics are left open, or no page
is shared and none is missing, so that memory runs out first. -/
def CanGrow (F : Panic → Prop) (sole : Bool) (t : Pt) (v n : Nat) : Prop :=
  v + n ≤ trapVpn ∨ (F .walk ∧ F .remap) ∨ (sole = true ∧ Solid t v)

theorem User.le_stopPage (hu : User true k t v R) (ha : Acc k (E + uses t)) (hm : Solid t v) : v ≤ stopPage := by
  have hsz := hu.size
  have hpa : ∀ u, u < v → ∃ e, t.pte u = some e ∧ k.ref e.pa = 1 ∧ e.pa < stopPage := by
    intro u huv
    obtain ⟨e, he⟩ := isSome_iff_exists.1 (hm u huv)
    have hs := hu.shows u (by omega)
    rw [he] at hs
    have hmem : e.pa ∈ E + uses t :=
      Multiset.mem_add.2 (.inr (Multiset.mem_add.2 (.inr (mem_leaves (by omega) he))))
    exact ⟨e, he, hs.1 (.inl rfl), (ha.range _ hmem).2⟩
  -- two virtual pages on one page would make its count two
  have hinj : ∀ u u' e e', u < v → u' < v → t.pte u = some e → t.pte u' = some e' → e.pa = e'.pa → u = u' := by
    intro u u' e e' hlt hlt' he he' heq
    by_contra hne
    obtain ⟨e1, he1, href, -⟩ := hpa u hlt
    rw [he] at he1
    obtain rfl := some.inj he1
    have hrem := leaves_remove (by omega) he
    have hmem' : e.pa ∈ leaves (update t.pte u none) := by
      rw [heq]
      exact mem_leaves (v := u') (by omega) (by rw [update_of_ne (Ne.symm hne)]; exact he')
    have hacc : Acc k (e.pa ::ₘ (E + (tabs t + leaves (update t.pte u none)))) :=
      ha.of_eq (by unfold uses; rw [hrem, add_cons, add_cons])
    have hr := hacc.ref e.pa
    rw [count_cons_self, href] at hr
    have hpos := Multiset.count_pos.2 (Multiset.mem_add.2 (.inr (Multiset.mem_add.2 (.inr hmem'))) :
      e.pa ∈ E + (tabs t + leaves (update t.pte u none)))
    omega
  have hmaps : Set.MapsTo (fun u => ((t.pte u).map Pte.pa).getD 0) (Finset.range v) (Finset.range stopPage) := by
    intro u hu'
    obtain ⟨e, he, -, hlt⟩ := hpa u (by simpa using hu')
    simpa [he] using hlt
  have hon : Set.InjOn (fun u => ((t.pte u).map Pte.pa).getD 0) (Finset.range v) := by
    intro u hu' u' hu'' heq
    obtain ⟨e, he, -⟩ := hpa u (by simpa using hu')
    obtain ⟨e', he', -⟩ := hpa u' (by simpa using hu'')
    exact hinj u u' e e' (by simpa using hu') (by simpa using hu'') he he' (by simpa [he, he'] using heq)
  simpa using Finset.card_le_card_of_injOn _ hmaps hon

omit [Link] in
theorem stopPage_lt_trap : stopPage < trapVpn := by
  unfold trapVpn stopPage
  omega

theorem uvmallocLoop_spec {x : Bool} (hz : ∀ v, v < trapVpn → oldv ≤ v → ∀ o, o < 4096 → R (v * 4096 + o) = 0) :
    ∀ (n : Nat) {t : Pt} {v : Nat} {k : Kmem}, oldv ≤ v → CanGrow F sole t v n → User sole k t v R → Acc k (E + uses t) →
    wp (uvmallocLoop oldv w x t v n) (fun r k' => Acc k' (E + uses r.2) ∧ Keeps E k k' ∧
      (if r.1 then User sole k' r.2 (v + n) R ∧ Mapped r.2 v (v + n) ∧ (∀ u, u < v → r.2.pte u = t.pte u)
       else User sole k' r.2 oldv R)) F k
  | 0, t, v, k, _, _, hu, ha => ⟨ha, Keeps.refl _ _, hu, fun u h1 h2 => by omega, fun _ _ => rfl⟩
  | n + 1, t, v, k, hov, hg, hu, ha => by
    -- giving up: what was mapped from `oldv` on goes back
    have hback : ∀ {t1 : Pt} {k1 : Kmem}, Keeps E k k1 → User sole k1 t1 v R → Acc k1 (E + uses t1) →
        wp (uvmdealloc t1 (v * 4096) (oldv * 4096) >>= fun r => pure (false, r.2)) (fun r k' => Acc k' (E + uses r.2) ∧
          Keeps E k k' ∧ (if r.1 = true then User sole k' r.2 (v + (n + 1)) R ∧ Mapped r.2 v (v + (n + 1)) ∧
            (∀ u, u < v → r.2.pte u = t.pte u) else User sole k' r.2 oldv R)) F k1 := by
      intro t1 k1 hk1 hu1 ha1
      rw [wp_bind]
      have hu1' : User sole k1 t1 (pgs (v * 4096)) R := by rw [pgs_mul]; exact hu1
      refine wp_use (uvmdealloc_spec hu1' ha1) ?_
      rintro r k2 ⟨hr, ha2, hk2, hu2⟩
      rw [hr] at hu2
      exact ⟨ha2, hk1.trans hk2, hu2.back hov hz⟩
    refine kalloc_use ha (hback (Keeps.refl _ _) hu ha) (fun p k1 ha1 hk1 hp href => ?_)
    refine memset_use ha1 hk1 hp href (fun k2 ha2 hk2 href2 hz2 => ?_)
    rw [wp_bind]
    by_cases hv : v < trapVpn
    · refine wp_use (mappages_fresh hu hv (.inl (hu.none_of_ge hv le_rfl)) (by omega) hv (by omega)
        ha2 hk2 href2 hz2) ?_
      rintro r k3 ⟨hk3, hr⟩
      obtain ⟨ok, t3⟩ := r
      refine wp_ite (fun hok => ?_) (fun hok => ?_)
      · rw [if_pos hok] at hr
        obtain ⟨hnone, hp3, ha3, hu3⟩ := hr
        have hg3 : CanGrow F sole t3 (v + 1) n := by
          refine hg.imp (by omega) (Or.imp_right (fun hfull => ⟨hfull.1, fun u hlt => ?_⟩))
          rw [hp3]
          by_cases e : u = v
          · rw [e, update_self]
            rfl
          · rw [update_of_ne e]
            exact hfull.2 u (by omega)
        refine wp_use (uvmallocLoop_spec hz n (by omega) hg3 hu3 ha3) ?_
        rintro r k4 ⟨ha4, hk4, hr4⟩
        refine ⟨ha4, hk3.trans hk4, ?_⟩
        by_cases hok4 : r.1 = true
        · rw [if_pos hok4] at hr4 ⊢
          obtain ⟨hu4, hm4, hlow⟩ := hr4
          refine ⟨by rw [show v + (n + 1) = v + 1 + n by omega]; exact hu4, fun u h1 h2 => ?_, fun u hlt => ?_⟩
          · by_cases e : u = v
            · subst e
              exact ⟨_, by rw [hlow u (by omega), hp3, update_self], rfl⟩
            · exact hm4 u (by omega) (by omega)
          · rw [hlow u (by omega), hp3, update_of_ne (by omega)]
        · rw [if_neg hok4] at hr4 ⊢
          exact hr4
      · rw [if_neg hok] at hr
        obtain ⟨hpte, ha3, hu3⟩ := hr
        refine wp_then (kfree_spec ha3) ?_
        rintro _ k4 ⟨ha4, hk4⟩
        refine hback (hk3.trans (hk4.mono (Multiset.le_add_right _ _))) ?_ ha4
        refine hu3.frame hk4 (le_trans (Multiset.le_add_left _ _) (Multiset.le_add_left _ _))
    · -- the trapframe is mapped there: `mappages` panics, or finds no memory for a table
      have hvt : v = trapVpn := by
        have := hu.size
        omega
      have hopen : F .walk ∧ F .remap := by
        rcases hg with hle | hopen | ⟨rfl, hfull⟩
        · omega
        · exact hopen
        · have := hu.le_stopPage ha hfull
          have := stopPage_lt_trap
          omega
      refine wp_use (mappages_spec ⟨.inr hopen.1, .inr hopen.2⟩ hu.wf (ha2.of_eq uses_taken)) ?_
      rintro r k3 ⟨hg, hr⟩
      obtain ⟨ok, t3⟩ := r
      refine wp_ite (fun hok => ?_) (fun hok => ?_)
      · rw [if_pos hok] at hr
        have htrap := hu.trap.1
        rw [← hvt, hr.1] at htrap
        cases htrap
      rw [if_neg hok] at hr
      rw [wp_bind]
      have ha3 : Acc k3 (p ::ₘ (E + uses t3)) := hg.acc.of_eq (by rw [← hr, ← uses_taken])
      refine wp_use (kfree_spec ha3) ?_
      rintro _ k4 ⟨ha4, hk4⟩
      have hk23 : Keeps (E + leaves t.pte) k k3 := by
        refine Keeps.trans (hk2.mono (add_le_add (le_refl E) (Multiset.le_add_left _ _))) (hg.keeps.mono ?_)
        exact le_cons_self _ _
      have hu3 := hu.frame hk23 (Multiset.le_add_left _ _)
      have hu4 : User sole k4 t v R := hu3.frame hk4 (by
        unfold uses
        rw [hr]
        exact le_trans (Multiset.le_add_left _ _) (Multiset.le_add_left _ _))
      exact hback (Keeps.trans (hk23.mono (Multiset.le_add_right _ _)) (hk4.mono (Multiset.le_add_right _ _)))
        (hu4.ofPte hg.wf hr) ha4

theorem uvmalloc_spec {x : Bool} (hu : User sole k t (pgs oldsz) R)
    (hg : CanGrow F sole t (pgs oldsz) (pgs newsz - pgs oldsz)) (ha : Acc k (E + uses t)) :
    wp (uvmalloc t oldsz newsz w x) (fun r k' => Acc k' (E + uses r.2) ∧ Keeps E k k' ∧
      (if r.1 = 0 then User sole k' r.2 (pgs oldsz) R
       else r.1 = max oldsz newsz ∧ User sole k' r.2 (pgs r.1) R ∧ Mapped r.2 (pgs oldsz) (pgs r.1) ∧
         ∀ u, u < pgs oldsz → r.2.pte u = t.pte u)) F k := by
  refine wp_ite (fun hlt => ?_) (fun hge => ?_)
  · refine ⟨ha, Keeps.refl _ _, ?_⟩
    dsimp only
    split
    · exact hu
    · exact ⟨(Nat.max_eq_left (by omega)).symm, hu, fun v h1 h2 => by omega, fun _ _ => rfl⟩
  refine wp_then (uvmallocLoop_spec (fun v hv => hu.zero_of_ge hv) (pgs newsz - pgs oldsz) le_rfl hg hu ha)
    (fun r k' ⟨ha', hk', hr⟩ => ⟨ha', hk', ?_⟩)
  have hpg : pgs oldsz + (pgs newsz - pgs oldsz) = pgs newsz := by
    have := pgs_mono (show oldsz ≤ newsz by omega)
    omega
  rw [hpg] at hr
  obtain ⟨ok, t'⟩ := r
  by_cases hok : ok = true
  · subst hok
    simp only [if_true]
    split
    · rename_i h0
      have h0' : pgs newsz = pgs oldsz := by
        have : oldsz = 0 := by omega
        rw [h0, this]
      rw [← h0']
      exact hr.1
    · exact ⟨(Nat.max_eq_right (by omega)).symm, hr.1, hr.2.1, hr.2.2⟩
  · rw [if_neg hok] at hr
    simp only [hok]
    exact hr

theorem uvmfree_spec (hw : Wf t) (hF : pgs sz ≤ maxVpn ∨ F .walk)
    (hb : ∀ v e, v < trapVpn → t.pte v = some e → v < pgs sz) (hhigh : ∀ v, trapVpn ≤ v → t.pte v = none)
    (ha : Acc k (E + uses t)) : wp (uvmfree t sz) (fun _ k' => pgs sz ≤ maxVpn ∧ Acc k' E ∧ Keeps E k k') F k := by
  unfold uvmfree
  rw [wp_bind]
  have hfin : ∀ {t1 : Pt} {k1 : Kmem}, pgs sz ≤ maxVpn → Keeps E k k1 → (∀ v, t1.pte v = none) → Acc k1 (E + uses t1) →
      wp (freewalk t1) (fun _ k' => pgs sz ≤ maxVpn ∧ Acc k' E ∧ Keeps E k k') F k1 := by
    intro t1 k1 hle hk1 hnone ha1
    rw [uses, leaves_zero (fun v _ => hnone v), add_zero] at ha1
    exact wp_use (freewalk_spec (.inl hnone) ha1) (fun _ k2 ⟨ha2, hk2⟩ => ⟨hle, ha2, hk1.trans hk2⟩)
  have hnone : ∀ v, pgs sz ≤ v → t.pte v = none := by
    intro v hn
    by_contra hne
    obtain ⟨e, he⟩ := ne_none_iff_exists'.1 hne
    by_cases hv : v < trapVpn
    · have := hb v e hv he
      omega
    · exact hne (hhigh v (by omega))
  refine wp_ite (fun hpos => ?_) (fun h0 => ?_)
  · refine wp_use (uvmunmap_high _ hw (hF.imp_left (by omega)) (Nat.zero_le _) (fun w hge _ => hhigh w hge) ha)
      (fun t' k' ⟨hle, _, _, hp', ha', hk'⟩ => ?_)
    refine hfin (by omega) (hk'.mono (Multiset.le_add_right _ _)) (fun v => ?_) ha'
    rw [hp', cleared]
    split
    · rfl
    · exact hnone v (by omega)
  · have h0 : pgs sz = 0 := by
      have : sz = 0 := by omega
      rw [this]
      rfl
    exact hfin (by omega) (Keeps.refl _ _) (fun v => hnone v (by omega)) ha

theorem procFreepagetable_high (hw : Wf t) (hF : pgs sz ≤ maxVpn ∨ F .walk)
    (hb : ∀ v e, v < trapVpn → t.pte v = some e → v < pgs sz) (ha : Acc k (E + uses t)) :
    wp (procFreepagetable t sz) (fun _ k' => pgs sz ≤ maxVpn ∧ Acc k' E ∧ Keeps E k k') F k := by
  have htr := trap_lt_trampoline
  have hmax := trampoline_lt_max
  refine wp_then (uvmunmap_keep 1 (.inl (by omega)) hw) (fun t1 k1 ⟨hk1, hw1, ht1, hp1⟩ => ?_)
  subst hk1
  refine wp_then (uvmunmap_keep 1 (.inl (by omega)) hw1) (fun t2 k2 ⟨hk2, hw2, ht2, hp2⟩ => ?_)
  subst hk2
  have hpte : ∀ v, v < trapVpn → t2.pte v = t.pte v := by
    intro v hv
    rw [hp2, cleared, if_neg (by omega), hp1, cleared, if_neg (by omega)]
  refine uvmfree_spec hw2 hF (fun v e hv he => hb v e hv (by rw [← hpte v hv]; exact he)) (fun v hv => ?_) (ha.of_eq ?_)
  rotate_left
  · unfold uses
    rw [ht2, ht1, leaves_congr (fun v hv => by rw [← hpte v hv])]
  by_contra hne
  obtain ⟨e, he⟩ := ne_none_iff_exists'.1 hne
  rcases eq_trap_or_trampoline hv (hw2.pte v e he).2 with rfl | rfl
  · rw [hp2, cleared, if_pos (by omega)] at he
    cases he
  · rw [hp2, cleared, if_neg (by omega), hp1, cleared, if_pos (by omega)] at he
    cases he

theorem procFreepagetable_spec (hu : User sole k t (pgs sz) R) (ha : Acc k (E + uses t)) :
    wp (procFreepagetable t sz) (fun _ k' => Acc k' E ∧ Keeps E k k') F k := by
  have hsz : pgs sz ≤ maxVpn := hu.size.trans (trap_lt_trampoline.le.trans trampoline_lt_max.le)
  exact wp_use (procFreepagetable_high hu.wf (.inl hsz) hu.bound ha) (fun _ _ h => h.2)

/-! ## New tables -/

omit [Link] in
theorem tabs_empty (p : Nat) : tabs ⟨p, fun _ => none, fun _ => none, fun _ => none⟩ = {p} := by
  have h : (entries.map (tab1 ⟨p, fun _ => none, fun _ => none, fun _ => none⟩)).sum = 0 :=
    Sum.sum_map_zero (fun _ _ => rfl)
  unfold tabs
  rw [h]
  rfl

omit [Link] in
theorem wf_empty (p : Nat) : Wf ⟨p, fun _ => none, fun _ => none, fun _ => none⟩ := ⟨nofun, nofun, nofun⟩

theorem procPagetable_spec (ha : Acc k E) :
    wp (procPagetable tf) (fun r k' => Keeps E k k' ∧ match r with
      | none => Acc k' E
      | some t => Acc k' (E + uses t) ∧ User true k' t 0 (fun _ => 0)) F k := by
  unfold procPagetable
  rw [wp_bind]
  refine kalloc_use ha ⟨Keeps.refl _ _, ha⟩ (fun p k1 ha1 hk1 hp href => ?_)
  refine memset_use ha1 hk1 hp href (fun k2 ha2 hk2 _ _ => ?_)
  simp only [wp_pure, wp_bind]
  have ha2' : Acc k2 (E + tabs ⟨p, fun _ => none, fun _ => none, fun _ => none⟩) :=
    ha2.of_eq (by rw [tabs_empty, add_comm, Multiset.singleton_add])
  have hlow : ∀ v, v < trapVpn → v ≠ trampolineVpn := by
    intro v hv
    unfold trapVpn at hv
    unfold trampolineVpn
    omega
  have hne : trapVpn ≠ trampolineVpn := by
    unfold trapVpn trampolineVpn
    omega
  -- freeing a table in which nothing is mapped
  have hfree : ∀ {t : Pt} {k3 : Kmem}, Keeps E k k3 → Wf t → Acc k3 (E + tabs t) → (∀ v, t.pte v = none) →
      wp (uvmfree t 0) (fun _ k' => wp (pure none) (fun r k' => Keeps E k k' ∧ match r with
        | none => Acc k' E
        | some t => Acc k' (E + uses t) ∧ User true k' t 0 (fun _ => 0)) F k') F k3 := by
    intro t k3 hk3 hw3 ha3 hn3
    refine wp_use (uvmfree_spec hw3 (.inl (by rw [show pgs 0 = 0 from rfl]; omega)) (fun v e hv he => ?_)
      (fun v _ => hn3 v) ?_) (fun _ k4 h4 => ⟨hk3.trans h4.2.2, h4.2.1⟩)
    · rw [hn3 v] at he
      cases he
    · rw [uses, leaves_zero (fun v _ => hn3 v), add_zero]
      exact ha3
  have hmax := trampoline_lt_max
  have htr := trap_lt_trampoline
  refine wp_use (mappages_spec ⟨.inl hmax, .inl rfl⟩ (wf_empty p) ha2') ?_
  rintro r k3 ⟨hg3, hr3⟩
  refine wp_ite (fun hok => ?_) (fun hok => ?_)
  · rw [if_pos hok] at hr3
    obtain ⟨-, hp3, -⟩ := hr3
    refine wp_then (mappages_spec ⟨.inl (by omega), .inl (by rw [hp3, update_of_ne hne])⟩ hg3.wf hg3.acc) ?_
    rintro r k4 ⟨hg4, hr4⟩
    obtain ⟨ok4, t4⟩ := r
    refine wp_ite (fun hok4 => ?_) (fun hok4 => ?_)
    · rw [if_pos hok4] at hr4
      obtain ⟨-, hp4, -⟩ := hr4
      have hn4 : ∀ v, v < trapVpn → t4.pte v = none := by
        intro v hv
        rw [hp4, update_of_ne (by omega), hp3, update_of_ne (hlow v hv)]
      refine ⟨(hk2.trans hg3.keeps).trans hg4.keeps, ?_, hg4.wf, Nat.zero_le _, fun v e hv he => ?_, ?_, fun v e hv he => ?_,
        fun v hv => ?_⟩
      · rw [uses, leaves_zero hn4, add_zero]
        exact hg4.acc
      · rw [hn4 v hv] at he
        cases he
      · rw [hp4, update_self, update_of_ne hne.symm, hp3, update_self]
        exact ⟨rfl, rfl⟩
      · rw [hp4] at he
        by_cases e1 : v = trapVpn
        · rw [e1, update_self] at he
          cases he
          rfl
        rw [update_of_ne e1, hp3] at he
        by_cases e2 : v = trampolineVpn
        · rw [e2, update_self] at he
          cases he
          rfl
        · rw [update_of_ne e2] at he
          cases he
      · rw [hn4 v hv]
        exact fun _ _ => rfl
    · rw [if_neg hok4] at hr4
      refine wp_then (uvmunmap_keep 1 (.inl (by omega)) hg4.wf) ?_
      rintro t5 k5 ⟨hk5, hw5, ht5, hp5⟩
      subst hk5
      rw [wp_bind]
      refine hfree ((hk2.trans hg3.keeps).trans hg4.keeps) hw5 (by rw [ht5]; exact hg4.acc) (fun v => ?_)
      rw [hp5, cleared]
      split
      · rfl
      · rw [hr4, hp3, update_of_ne (by omega)]
  · rw [if_neg hok] at hr3
    rw [wp_bind]
    exact hfree (hk2.trans hg3.keeps) hg3.wf hg3.acc (fun v => by rw [hr3])

/-! ## `uvmcopy` -/

theorem Keeps.incref (h : Acc k (p ::ₘ own)) : Keeps own k { k with ref := update k.ref p (k.ref p + 1) } := by
  intro q hq
  refine ⟨rfl, fun h1 => ?_⟩
  have hne : q ≠ p := by
    rintro rfl
    have := h.ref q
    have := Multiset.count_pos.2 hq
    rw [count_cons_self] at *
    omega
  rw [← h1]
  exact update_of_ne hne _ _

theorem Acc.notMem_of_sole (h : Acc k (p ::ₘ own)) (h1 : k.ref p = 1) : p ∉ own := by
  intro hp
  have := h.ref p
  have := Multiset.count_pos.2 hp
  rw [count_cons_self] at *
  omega

section
omit [Link]

theorem User.grow (h : User sole k t n R) (hnm : n ≤ m) (hm : m ≤ trapVpn) : User sole k t m R :=
  ⟨h.wf, hm, fun v e hv he => Nat.lt_of_lt_of_le (h.bound v e hv he) hnm, h.trap, h.high, h.shows⟩

theorem shared_flags (e : Pte) : e.shared = { e.toFlags with w := false } := by
  unfold Pte.shared
  split
  · rfl
  · rename_i hw
    obtain ⟨⟨r, w, x, u⟩, pa⟩ := e
    simp only [Bool.not_eq_true] at hw
    simp [hw]

theorem share_pte (he : t.pte i = some e) : (t.share i e).pte = update t.pte i (some { e.shared with pa := e.pa }) := by
  unfold Pt.share Pte.shared
  split
  · rfl
  · exact (update_eq_self_iff.2 he.symm).symm

theorem share_wf (hw : Wf t) (he : t.pte i = some e) : Wf (t.share i e) ∧ tabs (t.share i e) = tabs t := by
  unfold Pt.share
  split
  · exact ⟨hw.setPte _ he, rfl⟩
  · exact ⟨hw, rfl⟩

theorem share_leaves (hi : i < trapVpn) (he : t.pte i = some e) :
    leaves (t.share i e).pte = e.pa ::ₘ leaves (update t.pte i none) := by
  rw [share_pte he, leaves_remove hi (update_self i _ _), update_idem]

theorem share_uses (hw : Wf t) (hi : i < trapVpn) (he : t.pte i = some e) : uses (t.share i e) = uses t := by
  unfold uses
  rw [(share_wf hw he).2, share_leaves hi he, ← leaves_remove hi he]

theorem User.share (hu : User false k t n R)
    (hi : i < trapVpn) (he : t.pte i = some e) (hk : Keeps own k k2) (hle : leaves (update t.pte i none) ≤ own)
    (hmem : k2.mem e.pa = k.mem e.pa) : User false k2 (t.share i e) n R := by
  have hs := hu.shows i hi
  rw [he] at hs
  refine hu.setEntry (share_wf hu.wf he).1 (share_pte he) hi le_rfl hu.size (hu.bound i e hi he) hk hle
    (fun _ _ _ _ _ => rfl) ⟨?_, fun o ho => ?_⟩
  · rw [shared_flags]
    rintro (h | h) <;> cases h
  · rw [hmem]
    exact hs.2 o ho

theorem User.shareNew (hu : User false k t i (cut R i)) (hi : i < trapVpn) (hnone : t.pte i = none) (hw : Wf t')
    (hp : t'.pte = update t.pte i (some { e.shared with pa := e.pa })) (hk : Keeps own k k2)
    (hle : leaves t.pte ≤ own) (hmem : ∀ o, o < 4096 → k2.mem e.pa o = R (i * 4096 + o)) :
    User false k2 t' (i + 1) (cut R (i + 1)) := by
  refine hu.setEntry hw hp hi (Nat.le_succ i) hi (Nat.lt_succ_self i) hk ?_ (fun w _ hne o ho => ?_)
    ⟨?_, fun o ho => ?_⟩
  · rw [update_eq_self_iff.2 hnone.symm]
    exact hle
  · rw [cut_page R _ w o ho, cut_page R _ w o ho]
    have : w < i + 1 ↔ w < i := by omega
    simp only [this]
  · rw [shared_flags]
    rintro (h | h) <;> cases h
  · rw [cut_page R _ i o ho, if_pos (Nat.lt_succ_self i)]
    exact hmem o ho

end

theorem copied_page (ho : User false k old n R)
    (hn : User false k new i (cut R i)) (hi : i < trapVpn) (he : old.pte i = some e)
    (hg : Grown (E + uses (old.share i e) + leaves new.pte) k new k1 new1) (hnone : new.pte i = none)
    (hp : new1.pte = update new.pte i (some { e.shared with pa := e.pa })) :
    Acc { k1 with ref := update k1.ref e.pa (k1.ref e.pa + 1) } (E + uses (old.share i e) + uses new1) ∧
    Keeps E k { k1 with ref := update k1.ref e.pa (k1.ref e.pa + 1) } ∧
    User false { k1 with ref := update k1.ref e.pa (k1.ref e.pa + 1) } (old.share i e) n R ∧
    User false { k1 with ref := update k1.ref e.pa (k1.ref e.pa + 1) } new1 (i + 1) (cut R (i + 1)) := by
  have hl := share_leaves hi he
  -- all uses but the old table's use of the page
  have hacc : Acc k1 (e.pa ::ₘ (E + (tabs (old.share i e) + leaves (update old.pte i none)) + leaves new.pte +
      tabs new1)) := hg.acc.of_eq (by unfold uses; rw [hl]; simp only [add_cons, cons_add])
  have hk2 := Keeps.incref hacc
  have hsub : E + leaves (update old.pte i none) + leaves new.pte ≤
      E + (tabs (old.share i e) + leaves (update old.pte i none)) + leaves new.pte :=
    add_le_add (add_le_add le_rfl (Multiset.le_add_left _ _)) le_rfl
  have hsub1 : E + leaves (update old.pte i none) + leaves new.pte ≤
      E + uses (old.share i e) + leaves new.pte := by
    unfold uses
    rw [hl]
    refine add_le_add (add_le_add le_rfl ?_) le_rfl
    exact le_trans (le_cons_self _ _) (Multiset.le_add_left _ _)
  have hk := Keeps.trans (hg.keeps.mono hsub1) (hk2.mono (le_trans hsub (Multiset.le_add_right _ _)))
  have hpa : e.pa ∈ E + uses (old.share i e) + leaves new.pte := by
    refine Multiset.mem_add.2 (.inl (Multiset.mem_add.2 (.inr (Multiset.mem_add.2 (.inr ?_)))))
    rw [hl]
    exact mem_cons_self _ _
  have hmem := (hg.keeps e.pa hpa).1
  refine ⟨(hacc.incref (mem_cons_self _ _)).of_eq ?_, hk.mono ?_, ?_, ?_⟩
  · unfold uses
    rw [hp, leaves_insert hi hnone, hl]
    simp only [add_cons, cons_add]
    rw [add_assoc _ (leaves new.pte), add_comm (leaves new.pte)]
  · rw [add_assoc]
    exact Multiset.le_add_right _ _
  · exact ho.share hi he hk (le_trans (Multiset.le_add_left _ _) (Multiset.le_add_right _ _)) hmem
  refine hn.shareNew hi hnone hg.wf hp hk (Multiset.le_add_left _ _) (fun o ho' => ?_)
  have hs := ho.shows i hi
  rw [he] at hs
  rw [show k1.mem e.pa = k.mem e.pa from hmem]
  exact hs.2 o ho'

theorem uvmunmap_emptied (hfree : ∀ v, i ≤ v → v < trapVpn → new.pte v = none)
    (htrap : (new.pte trapVpn).isSome = true ∧ (new.pte trampolineVpn).isSome = true)
    (hhigh : ∀ v e, trapVpn ≤ v → new.pte v = some e → e.u = false) (hi : i < trapVpn)
    (hg : Grown (E + leaves new.pte) k new k1 new1) (hp : new1.pte = new.pte) :
    wp (uvmunmap new1 0 true i)
    (fun new2 k2 => Acc k2 (E + uses new2) ∧ Keeps E k k2 ∧ User false k2 new2 0 (fun _ => 0)) F k1 := by
  have ha1 : Acc k1 (E + uses new1) := hg.acc.of_eq (by unfold uses; rw [hp]; abel)
  refine wp_use (uvmunmap_free i hg.wf (by omega) ha1) (fun new2 k2 ⟨hw2, _, hp2, ha2, hk2⟩ => ?_)
  have hnone : ∀ v, v < trapVpn → new2.pte v = none := by
    intro v hv
    rw [hp2, cleared]
    split
    · rfl
    · rw [hp]
      exact hfree v (by omega) hv
  refine ⟨ha2, (hg.keeps.mono (Multiset.le_add_right _ _)).trans (hk2.mono (Multiset.le_add_right _ _)), hw2, Nat.zero_le _,
    fun v e hv he => ?_, ?_, fun v e hv he => ?_, fun v hv => ?_⟩
  · rw [hnone v hv] at he
    cases he
  · rw [hp2, cleared, cleared, if_neg (by omega), if_neg (by have := trap_lt_trampoline; omega), hp]
    exact htrap
  · rw [hp2, cleared, if_neg (by omega), hp] at he
    exact hhigh v e hv he
  · rw [hnone v hv]
    exact fun _ _ => rfl

theorem copied_back (ho : User false k old n R)
    (hn : User false k new i (cut R i)) (hi : i < trapVpn) (he : old.pte i = some e)
    (hg : Grown (E + uses (old.share i e) + leaves new.pte) k new k1 new1) (hp : new1.pte = new.pte) :
    wp (uvmunmap new1 0 true i) (fun new2 k2 => Acc k2 (E + uses (old.share i e) + uses new2) ∧ Keeps E k k2 ∧
      User false k2 (old.share i e) n R ∧ User false k2 new2 0 (fun _ => 0)) F k1 := by
  have hl := share_leaves hi he
  refine wp_use (uvmunmap_emptied (fun v hv hlt => hn.none_of_ge hlt hv) hn.trap hn.high hi hg hp)
    (fun new2 k2 ⟨ha2, hk, hu2⟩ => ?_)
  have hle : leaves (old.share i e).pte ≤ E + uses (old.share i e) :=
    le_trans (Multiset.le_add_left _ _) (Multiset.le_add_left _ _)
  have hle' : leaves (update old.pte i none) ≤ E + uses (old.share i e) := by
    refine le_trans ?_ hle
    rw [hl]
    exact le_cons_self _ _
  have hmem := (hk e.pa (mem_of_le hle (by rw [hl]; exact mem_cons_self _ _))).1
  exact ⟨ha2, hk.mono (Multiset.le_add_right _ _), ho.share hi he hk hle' hmem, hu2⟩

omit [Link] in
theorem User.skip (ho : User false k old n R) (hn : User false k new i (cut R i))
    (hi : i < trapVpn) (hnone : old.pte i = none) : User false k new (i + 1) (cut R (i + 1)) := by
  refine (hn.grow (Nat.le_succ i) hi).congr (fun w hw o ho' => ?_)
  rw [cut_page R _ w o ho', cut_page R _ w o ho']
  by_cases e : w = i
  · subst e
    have hs := ho.shows w hi
    rw [hnone] at hs
    simp [hs o ho']
  · have : w < i + 1 ↔ w < i := by omega
    simp only [this]

theorem uvmcopyLoop_spec : ∀ (m : Nat) {old new : Pt} {i : Nat} {k : Kmem}, i + m = n → User false k old n R →
    User false k new i (cut R i) → Acc k (E + uses old + uses new) →
    wp (uvmcopyLoop old new i m) (fun r k' => Acc k' (E + uses r.2.1 + uses r.2.2) ∧ Keeps E k k' ∧
      User false k' r.2.1 n R ∧ (if r.1 then User false k' r.2.2 n (cut R n) else User false k' r.2.2 0 (fun _ => 0))) F k
  | 0, old, new, i, k, him, ho, hn, ha => by
    have : i = n := by omega
    subst this
    exact ⟨ha, Keeps.refl _ _, ho, hn⟩
  | m + 1, old, new, i, k, him, ho, hn, ha => by
    have hsz := ho.size
    have hi : i < trapVpn := by omega
    unfold uvmcopyLoop
    rw [wp_bind]
    refine ho.wf.walk (.inl (lt_maxVpn hi)) (fun e he => ?_) (fun hnone r hr => ?_)
    · have ha' : Acc k (E + uses (old.share i e) + leaves new.pte + tabs new) :=
        ha.of_eq (by rw [share_uses ho.wf hi he]; unfold uses; abel)
      refine wp_then (mappages_spec ⟨.inl (lt_maxVpn hi), .inl (hn.none_of_ge hi le_rfl)⟩ hn.wf ha') (fun r k1 ⟨hg, hr⟩ => ?_)
      obtain ⟨ok, new1⟩ := r
      refine wp_ite (fun hok => ?_) (fun hok => ?_)
      · rw [if_pos hok] at hr
        obtain ⟨ha2, hk2, ho2, hn2⟩ := copied_page ho hn hi he hg hr.1 hr.2.1
        refine wp_use (uvmcopyLoop_spec m (by omega) ho2 hn2 ha2) (fun r k3 ⟨ha3, hk3, ho3, hn3⟩ => ?_)
        exact ⟨ha3, hk2.trans hk3, ho3, hn3⟩
      · rw [if_neg hok] at hr
        exact wp_then (copied_back ho hn hi he hg hr) (fun new2 k2 h => h)
    · have hgoal := uvmcopyLoop_spec m (by omega) ho (ho.skip hn hi hnone) ha
      rcases hr with rfl | rfl <;> exact hgoal

theorem uvmcopy_spec (ho : User false k old (pgs sz) R) (hn : User false k new 0 (fun _ => 0))
    (ha : Acc k (E + uses old + uses new)) :
    wp (uvmcopy old new sz) (fun r k' => Acc k' (E + uses r.2.1 + uses r.2.2) ∧ Keeps E k k' ∧
      User false k' r.2.1 (pgs sz) R ∧
      (if r.1 then User false k' r.2.2 (pgs sz) R else User false k' r.2.2 0 (fun _ => 0))) F k := by
  have hn' : User false k new 0 (cut R 0) := hn.congr (fun v _ o ho' => by rw [cut_page R _ v o ho']; rfl)
  refine wp_use (uvmcopyLoop_spec (pgs sz) (zero_add _) ho hn' ha) (fun r k' ⟨ha', hk', ho', hr⟩ => ⟨ha', hk', ho', ?_⟩)
  by_cases hok : r.1 = true
  · rw [if_pos hok] at hr ⊢
    refine hr.congr (fun v hv o ho2 => ?_)
    rw [cut_page R _ v o ho2]
    split
    · rfl
    · exact ho'.zero_of_ge hv (by omega) o ho2
  · rw [if_neg hok] at hr ⊢
    exact hr

end Xv6.Vm
