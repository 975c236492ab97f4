import Xv6.VmUser
/-!
# VmCopy — faults, and copies to and from user memory

`cowfault` and `vmfault` change what a page table maps and not what it shows; `copyout` shows the bytes it has copied at
their addresses and nowhere else, in this table and in no other.
-/
namespace Xv6.Vm

open Function Multiset Wp
variable {F : Panic → Prop} {sole : Bool} {R : Nat → UInt8} {a a' : Tabs}

/-! ## Entries in place -/

/-- What was mapped still is, with the same `PTE_U`. -/
def Still (t t' : Pt) : Prop := ∀ w e, t.pte w = some e → ∃ e', t'.pte w = some e' ∧ e'.u = e.u

theorem Still.refl (t : Pt) : Still t t := fun _ e h => ⟨e, h, rfl⟩

variable {t t' t'' : Pt} {v n sz pa p va dst : Nat} {e e' : Pte}

theorem Still.trans (h : Still t t') (h' : Still t' t'') : Still t t'' := by
  intro w e he
  obtain ⟨e1, he1, hu1⟩ := h w e he
  obtain ⟨e2, he2, hu2⟩ := h' w e1 he1
  exact ⟨e2, he2, hu2.trans hu1⟩

theorem Still.mapped {a b : Nat} (h : Still t t') (hm : Mapped t a b) : Mapped t' a b := by
  intro v h1 h2
  obtain ⟨e, he, hu⟩ := hm v h1 h2
  obtain ⟨e', he', hu'⟩ := h v e he
  exact ⟨e', he', hu'.trans hu⟩

theorem Still.update (hp : t'.pte = Function.update t.pte v (some e'))
    (he : t.pte v = some e) (hu : e'.u = e.u) : Still t t' := by
  intro w x hx
  rw [hp]
  by_cases hw : w = v
  · subst hw
    rw [he] at hx
    cases hx
    exact ⟨e', update_self .., hu⟩
  · exact ⟨x, by rw [update_of_ne hw]; exact hx, rfl⟩

theorem Still.insert (hp : t'.pte = Function.update t.pte v (some e')) (hnone : t.pte v = none) : Still t t' := by
  intro w x hx
  have hw : w ≠ v := by
    rintro rfl
    rw [hnone] at hx
    cases hx
  exact ⟨x, by rw [hp, update_of_ne hw]; exact hx, rfl⟩

theorem User.lt_trap {k : Kmem} (h : User sole k t n R) (he : t.pte v = some e) (hu : e.u = true) : v < trapVpn := by
  by_contra hv
  have := h.high v e (by omega) he
  rw [hu] at this
  cases this

variable [Link] {k k1 k2 : Kmem} {E : Multiset Nat} {perm : Flags}

omit [Link] in
theorem mappages_present (hv : v < maxVpn)
    (h1 : (t.l1 (v / 2 ^ 18)).isSome = true) (h0 : (t.l0 (v / 2 ^ 9)).isSome = true) (hnone : t.pte v = none) :
    mappages t v pa perm 1 = pure (true, t.setPte v (some { perm with pa := pa })) := by
  unfold mappages
  rw [walkAlloc_there hv h1 h0]
  simp [hnone]

theorem uvmunmap_one (hw : Wf t) (he : t.pte v = some e) : uvmunmap t v false 1 = pure (t.setPte v none) := by
  have hv := (hw.pte v e he).2
  unfold uvmunmap walk
  rw [if_neg (by omega), hw.slot_some he]
  simp [uvmunmap]

theorem remap_present {α : Type} {f : Bool × Pt → KM α} (hw : Wf t) (he : t.pte v = some e) :
    (uvmunmap t v false 1 >>= fun t => mappages t v p perm 1 >>= f) = f (true, t.setPte v (some { perm with pa := p })) := by
  obtain ⟨h0, hv⟩ := hw.pte v e he
  obtain ⟨p0, hp0⟩ := Option.isSome_iff_exists.1 h0
  have h1 := hw.l0 _ p0 hp0
  rw [div_div_level] at h1
  rw [uvmunmap_one hw he, pure_bind,
    mappages_present hv (t := t.setPte v none) h1 h0 (by simp [Pt.setPte]), pure_bind]
  simp [Pt.setPte]

omit [Link] in
theorem uses_replaced (e' : Pte) (hv : v < trapVpn) (he : t.pte v = some e) :
    e'.pa ::ₘ (E + uses t) = e.pa ::ₘ (E + uses (t.setPte v (some e'))) := by
  unfold uses
  rw [leaves_remove hv he, leaves_remove (f := (t.setPte v (some e')).pte) hv (by simp [Pt.setPte]; rfl), tabs_setPte]
  simp only [Pt.setPte, update_idem, add_cons]
  exact Multiset.cons_swap _ _ _

/-! ## Faults -/

omit [Link] in
theorem User.setFlags (hu : User sole k t n R) (hv : v < trapVpn) (he : t.pte v = some e)
    (hs : Shows sole k R v (some e) → Shows sole k R v (some e')) : User sole k (t.setPte v (some e')) n R :=
  hu.setEntry (hu.wf.setPte _ he) rfl hv le_rfl hu.size (hu.bound v e hv he) (Keeps.refl _ _) le_rfl
    (fun _ _ _ _ _ => rfl) (hs (he ▸ hu.shows v hv))

omit [Link] in
theorem uses_setFlags {f : Pte} (he : t.pte v = some e) (hpa : f.pa = e.pa) : uses (t.setPte v (some f)) = uses t := by
  unfold uses
  rw [tabs_setPte, leaves_congr (fun w _ => ?_)]
  by_cases hw : w = v
  · subst hw
    simp [Pt.setPte, he, hpa]
  · simp [Pt.setPte, hw]

theorem cow_copied (hu : User sole k t n R) (ha : Acc k (E + uses t))
    (hv : v < trapVpn) (he : t.pte v = some e) (hshared : 1 < k.ref e.pa) (ha1 : Acc k1 (p ::ₘ (E + uses t)))
    (hk1 : Keeps (E + uses t) k k1) (hp : p ∉ E + uses t) (href : k1.ref p = 1) :
    wp (decref e.pa) (fun _ k' => Acc k' (E + uses (t.setPte v (some { e with w := true, pa := p }))) ∧ Keeps E k k' ∧
      User sole k' (t.setPte v (some { e with w := true, pa := p })) n R) F
      { k1 with mem := update k1.mem p (k1.mem e.pa) } := by
  have hrest : leaves t.pte = e.pa ::ₘ leaves (update t.pte v none) := leaves_remove hv he
  have hmem : e.pa ∈ E + uses t :=
    mem_add.2 (.inr (mem_add.2 (.inr (mem_leaves hv he))))
  -- the page has a use besides this one
  have hother : e.pa ∈ E + (tabs t + leaves (update t.pte v none)) := by
    have hc := ha.ref e.pa
    rw [uses, hrest, add_cons, add_cons, Multiset.count_cons_self] at hc
    rw [← Multiset.count_pos]
    omega
  have hnew : E + uses (t.setPte v (some { e with w := true, pa := p })) =
      p ::ₘ (E + (tabs t + leaves (update t.pte v none))) := by
    rw [uses, leaves_remove (f := (t.setPte v (some { e with w := true, pa := p })).pte)
      hv (update_self ..), tabs_setPte]
    simp [Pt.setPte, update_idem, add_cons]
  have hle : E + (tabs t + leaves (update t.pte v none)) ≤ E + uses t := by
    rw [uses, hrest]
    exact add_le_add le_rfl (add_le_add le_rfl (le_cons_self _ _))
  have ha2 := (ha1.of_eq (uses_replaced { e with w := true, pa := p } hv he)).setMem
    (update k1.mem p (k1.mem e.pa))
  have hk2 := hk1.trans (Keeps.setMem hp (k1.mem e.pa))
  refine wp_use (decref_spec ha2 (by rw [hnew]; exact Multiset.mem_cons_of_mem hother)) ?_
  rintro _ k3 ⟨ha3, hk3⟩
  rw [hnew] at hk3
  have hk : Keeps (E + (tabs t + leaves (update t.pte v none))) k k3 :=
    (hk2.mono hle).trans (hk3.mono (le_cons_self _ _))
  refine ⟨ha3, hk.mono (le_add_right _ _), ?_⟩
  have hs := hu.shows v hv
  rw [he] at hs
  obtain ⟨hm3, hr3⟩ := hk3 p (Multiset.mem_cons_self _ _)
  refine hu.setEntry (hu.wf.setPte _ he) rfl hv le_rfl hu.size (hu.bound v e hv he) hk
    (le_trans (le_add_left _ _) (le_add_left _ _)) (fun _ _ _ _ _ => rfl)
    ⟨fun _ => hr3 href, fun o ho => ?_⟩
  rw [show k3.mem p = k1.mem e.pa from hm3.trans (update_self ..), (hk1 e.pa hmem).1]
  exact hs.2 o ho

theorem cowfault_spec (hF : v < maxVpn ∨ F .walk) (hu : User sole k t n R) (ha : Acc k (E + uses t)) :
    wp (cowfault t v) (fun r k' => Acc k' (E + uses r.2) ∧ Keeps E k k' ∧ User sole k' r.2 n R ∧ Still t r.2 ∧
      (r.1 = true → ∃ e, r.2.pte v = some e ∧ e.u = true ∧ e.w = true)) F k := by
  have hsame : Acc k (E + uses t) ∧ Keeps E k k ∧ User sole k t n R ∧ Still t t :=
    ⟨ha, Keeps.refl _ _, hu, Still.refl t⟩
  unfold cowfault
  rw [wp_bind]
  refine hu.wf.walk hF (fun e he => ?_) (fun _ r hr => ?_)
  · refine wp_ite (fun _ => ⟨hsame.1, hsame.2.1, hsame.2.2.1, hsame.2.2.2, nofun⟩) (fun hue => ?_)
    have hue : e.u = true := by simpa using hue
    have hv : v < trapVpn := hu.lt_trap he hue
    refine wp_ite (fun _ => ⟨hsame.1, hsame.2.1, hsame.2.2.1, hsame.2.2.2, nofun⟩) (fun _ => ?_)
    refine wp_ite (fun hwr => ⟨hsame.1, hsame.2.1, hsame.2.2.1, hsame.2.2.2, fun _ => ⟨e, he, hue, hwr⟩⟩) (fun _ => ?_)
    refine wp_ite (fun hshared => ?_) (fun hsole => ?_)
    · refine kalloc_use ha ⟨hsame.1, hsame.2.1, hsame.2.2.1, hsame.2.2.2, nofun⟩ (fun p k1 ha1 hk1 hp href => ?_)
      dsimp only
      rw [memmovePage, wp_bind, wp_modify, remap_present hu.wf he]
      simp only [if_true]
      refine wp_then (cow_copied hu ha hv he hshared ha1 hk1 hp href) (fun _ k3 ⟨ha3, hk3, hu3⟩ => ?_)
      exact ⟨ha3, hk3, hu3, Still.update rfl he rfl, fun _ => ⟨_, update_self .., hue, rfl⟩⟩
    · have hpos := ha.ref_pos (p := e.pa)
        (mem_add.2 (.inr (mem_add.2 (.inr (mem_leaves hv he)))))
      rw [wp_pure, uses_setFlags (f := { e with w := true }) he rfl]
      exact ⟨ha, Keeps.refl _ _, hu.setFlags hv he (fun hs => ⟨fun _ => by dsimp only; omega, hs.2⟩), Still.update rfl he rfl,
        fun _ => ⟨_, update_self .., hue, rfl⟩⟩
  · rcases hr with rfl | rfl <;> exact ⟨hsame.1, hsame.2.1, hsame.2.2.1, hsame.2.2.2, nofun⟩

theorem vmfault_spec (hu : User sole k t (pgs sz) R) (ha : Acc k (E + uses t)) :
    wp (vmfault ⟨t, none⟩ sz va) (fun r k' => Acc k' (E + uses r.2.pt) ∧ Keeps E k k' ∧ User sole k' r.2.pt (pgs sz) R ∧
      Still t r.2.pt ∧ r.2.own = none ∧
      (∀ pa, r.1 = some pa → ∃ e, r.2.pt.pte (va / 4096) = some e ∧ e.pa = pa ∧ e.u = true ∧ e.w = true)) F k := by
  have hsame : Acc k (E + uses t) ∧ Keeps E k k ∧ User sole k t (pgs sz) R ∧ Still t t ∧ (none : Option Pt) = none ∧
      (∀ pa, (none : Option Nat) = some pa → ∃ e, t.pte (va / 4096) = some e ∧ e.pa = pa ∧ e.u = true ∧ e.w = true) :=
    ⟨ha, Keeps.refl _ _, hu, Still.refl t, rfl, by simp⟩
  refine wp_ite (fun _ => hsame) (fun hva => ?_)
  have hvn : va / 4096 < pgs sz := by
    unfold pgs
    omega
  have hsz := hu.size
  unfold ismapped
  simp only [wp_bind]
  refine hu.wf.walk (.inl (lt_maxVpn (by omega))) (fun e _ => ?_) (fun hno r hr => ?_)
  · exact hsame
  · rcases hr with rfl | rfl
    all_goals
      refine kalloc_use ha hsame (fun p k1 ha1 hk1 hp href => ?_)
      refine memset_use ha1 hk1 hp href (fun k2 ha2 hk2 href2 hz => ?_)
      refine wp_then (mappages_fresh hu (by omega) (.inl hno) le_rfl hsz hvn ha2 hk2 href2 hz) ?_
      rintro r k3 ⟨hk3, hr⟩
      refine wp_ite (fun hok => ?_) (fun hok => ?_)
      · rw [if_pos hok] at hr
        obtain ⟨hnone, hp', ha', hu'⟩ := hr
        refine ⟨ha', hk3, hu', Still.insert hp' hnone, rfl, fun pa hpa => ?_⟩
        cases hpa
        exact ⟨_, (congrFun hp' _).trans (update_self ..), rfl, rfl, rfl⟩
      · rw [if_neg hok] at hr
        obtain ⟨hp', ha', hu'⟩ := hr
        refine wp_then (kfree_spec ha') ?_
        rintro _ k4 ⟨ha4, hk4⟩
        refine ⟨ha4, hk3.trans (hk4.mono (le_add_right _ _)), hu'.frame hk4 ?_, ?_, rfl, by simp⟩
        · exact le_trans (le_add_left _ _) (le_add_left _ _)
        · exact fun w e he => ⟨e, (congrFun hp' w).trans he, rfl⟩

/-! ## Copies -/

omit [Link] in
theorem writeBytes_nil (R : Nat → UInt8) (a : Nat) : writeBytes R a [] = R := by
  funext b
  exact if_neg (by simp)

omit [Link] in
theorem writeBytes_append (R : Nat → UInt8) (a : Nat) (x y : List UInt8) :
    writeBytes (writeBytes R a x) (a + x.length) y = writeBytes R a (x ++ y) := by
  funext b
  unfold writeBytes
  simp only [List.length_append]
  by_cases hy : a + x.length ≤ b ∧ b < a + x.length + y.length
  · rw [if_pos hy, if_pos (by omega), List.getD_append_right x y 0 _ (by omega)]
    congr 1
    omega
  · rw [if_neg hy]
    by_cases hx : a ≤ b ∧ b < a + x.length
    · rw [if_pos hx, if_pos (by omega), List.getD_append x y 0 _ (by omega)]
    · rw [if_neg hx, if_neg (by omega)]

theorem poke_spec (off : Nat) (bs : List UInt8) (hu : User sole k t n R) (ha : Acc k (E + uses t))
    (he : t.pte v = some e) (hv : v < trapVpn) (href : k.ref e.pa = 1) (hoff : off + bs.length ≤ 4096) :
    wp (poke e.pa off bs) (fun _ k' => Acc k' (E + uses t) ∧ Keeps E k k' ∧
      User sole k' t n (writeBytes R (v * 4096 + off) bs)) F k := by
  have hsplit : E + uses t = e.pa ::ₘ (E + (tabs t + leaves (update t.pte v none))) := by
    rw [uses, leaves_remove hv he, add_cons, add_cons]
  have hnot := (ha.of_eq hsplit).notMem_of_sole href
  have hk : Keeps (E + (tabs t + leaves (update t.pte v none))) k
      { k with mem := update k.mem e.pa (fun o => if off ≤ o ∧ o < off + bs.length then bs.getD (o - off) 0
        else k.mem e.pa o) } := Keeps.setMem hnot _
  have hs := hu.shows v hv
  rw [he] at hs
  refine ⟨ha.setMem _, hk.mono (le_add_right _ _), ?_⟩
  refine hu.setEntry hu.wf (x := some e) (update_eq_self_iff.2 he.symm).symm hv le_rfl hu.size
    (hu.bound v e hv he) hk (le_trans (le_add_left _ _) (le_add_left _ _)) (fun w _ hne o ho => ?_)
    ⟨fun _ => href, fun o ho => ?_⟩
  · exact if_neg (by omega)
  unfold writeBytes
  simp only [update_self]
  by_cases hin : off ≤ o ∧ o < off + bs.length
  · rw [if_pos hin, if_pos (by omega)]
    congr 1
    omega
  · rw [if_neg hin, if_neg (by omega)]
    exact hs.2 o ho

/-- How `copyout` and `copyin` are called: on the running process's table, or on mapped pages of a new image. -/
def Reach (a : Tabs) (sz n lo hi : Nat) : Prop := (a.own = none ∧ n = pgs sz) ∨ Mapped a.pt lo hi

omit [Link] in
theorem Reach.still {lo hi lo' hi' : Nat} (h : Reach a sz n lo hi) (hs : Still a.pt a'.pt)
    (ho : a'.own = a.own) (hlo : lo ≤ lo') (hhi : hi' ≤ hi) : Reach a' sz n lo' hi' := by
  rcases h with ⟨h1, h2⟩ | h
  · exact .inl ⟨ho.trans h1, h2⟩
  · exact .inr (fun v h1 h2 => hs.mapped h v (by omega) (by omega))

structure Kept (sole : Bool) (E : Multiset Nat) (k : Kmem) (a : Tabs) (n : Nat) (R : Nat → UInt8) (k' : Kmem) (a' : Tabs) :
    Prop where
  acc : Acc k' (E + uses a'.pt)
  keeps : Keeps E k k'
  user : User sole k' a'.pt n R
  still : Still a.pt a'.pt
  own : a'.own = a.own

theorem Kept.refl (hu : User sole k a.pt n R) (ha : Acc k (E + uses a.pt)) : Kept sole E k a n R k a :=
  ⟨ha, Keeps.refl _ _, hu, Still.refl _, rfl⟩

theorem Kept.trans {a1 a2 : Tabs} {R1 R2 : Nat → UInt8} (h : Kept sole E k a n R1 k1 a1)
    (h' : Kept sole E k1 a1 n R2 k2 a2) : Kept sole E k a n R2 k2 a2 :=
  ⟨h'.acc, h.keeps.trans h'.keeps, h'.user, h.still.trans h'.still, h'.own.trans h.own⟩

theorem pageFor_spec (hu : User sole k a.pt n R) (ha : Acc k (E + uses a.pt))
    (hr : Reach a sz n v (v + 1)) :
    wp (match walkaddr a.pt v with
      | some pa => pure (some pa, a)
      | none => vmfault a sz (v * 4096)) (fun r k' => Kept sole E k a n R k' r.2 ∧
        ∀ pa, r.1 = some pa → ∃ e, r.2.pt.pte v = some e ∧ e.pa = pa ∧ e.u = true) F k := by
  split
  · rename_i pa hpa
    obtain ⟨-, e, he, hue, hpa'⟩ := walkaddr_some hpa
    refine ⟨Kept.refl hu ha, fun pa' h => ?_⟩
    cases h
    exact ⟨e, he, hpa', hue⟩
  rename_i hno
  rcases hr with ⟨hown, hn⟩ | hmap
  · subst hn
    obtain ⟨t, own⟩ := a
    subst hown
    refine wp_use (vmfault_spec hu ha) (fun r k' ⟨ha', hk', hu', hs', ho', hpa'⟩ => ⟨⟨ha', hk', hu', hs', ho'⟩, ?_⟩)
    intro pa hpa
    rw [Nat.mul_div_cancel v (by omega)] at hpa'
    obtain ⟨e, he, hep, hue, -⟩ := hpa' pa hpa
    exact ⟨e, he, hep, hue⟩
  · obtain ⟨e, he, hue⟩ := hmap v (le_refl v) (Nat.lt_succ_self v)
    rw [hu.wf.walkaddr_of he hue] at hno
    cases hno

theorem copyoutPage_spec (hu : User sole k a.pt n R) (ha : Acc k (E + uses a.pt)) (hr : Reach a sz n v (v + 1)) :
    wp (copyoutPage a sz v) (fun r k' => Kept sole E k a n R k' r.2 ∧
      ∀ pa, r.1 = some pa → ∃ e, r.2.pt.pte v = some e ∧ e.pa = pa ∧ e.u = true ∧ e.w = true) F k := by
  refine wp_then (pageFor_spec hu ha hr) (fun r k1 ⟨hk, hpa⟩ => ?_)
  obtain ⟨pa, a1⟩ := r
  cases pa with
  | none => exact ⟨hk, nofun⟩
  | some pa =>
    obtain ⟨e, he, hep, hue⟩ := hpa pa rfl
    have hv : v < maxVpn := (hk.user.wf.pte v e he).2
    rw [wp_bind]
    refine hk.user.wf.walk (.inl hv) (fun e' he' => ?_) (fun hnone => ?_)
    · rw [he] at he'
      cases he'
      refine wp_ite (fun _ => ?_) (fun hw => ?_)
      · refine wp_then (cowfault_spec (.inl hv) hk.user hk.acc) (fun r k2 ⟨ha2, hk2, hu2, hs2, hok⟩ => ?_)
        obtain ⟨ok, t2⟩ := r
        have hcow : Kept sole E k1 a1 n R k2 { a1 with pt := t2 } := ⟨ha2, hk2, hu2, hs2, rfl⟩
        refine ⟨hk.trans hcow, fun pa' hpa' => ?_⟩
        cases ok with
        | false => cases hpa'
        | true =>
          obtain ⟨e2, he2, hue2, hw2⟩ := hok rfl
          rw [if_pos rfl, hu2.wf.walkaddr_of he2 hue2] at hpa'
          exact ⟨e2, he2, Option.some.inj hpa', hue2, hw2⟩
      · refine ⟨hk, fun pa' hpa' => ?_⟩
        cases hpa'
        exact ⟨e, he, hep, hue, by simpa [hue] using hw⟩
    · rw [he] at hnone
      cases hnone

theorem copyoutLoop_spec : ∀ (fuel : Nat) {a : Tabs} {dst : Nat} {src : List UInt8} {done : Nat} {k : Kmem}
    {R : Nat → UInt8}, User sole k a.pt n R → Acc k (E + uses a.pt) →
    Reach a sz n (dst / 4096) ((dst + src.length + 4095) / 4096) →
    wp (copyoutLoop fuel a sz dst src done) (fun r k' => ∃ c, r.2.2 = done + c ∧ c ≤ src.length ∧
      Kept sole E k a n (writeBytes R dst (src.take c)) k' r.2.1 ∧
      (r.1 = true → src.length ≤ fuel → c = src.length)) F k
  | 0, a, dst, src, done, k, R, hu, ha, _ => by
    refine ⟨0, rfl, Nat.zero_le _, ?_, fun _ h => by omega⟩
    rw [List.take_zero, writeBytes_nil]
    exact Kept.refl hu ha
  | fuel + 1, a, dst, src, done, k, R, hu, ha, hr => by
    have hsame : Kept sole E k a n (writeBytes R dst (src.take 0)) k a := by
      rw [List.take_zero, writeBytes_nil]
      exact Kept.refl hu ha
    refine wp_ite (fun h0 => ⟨0, rfl, Nat.zero_le _, hsame, fun _ _ => by rw [h0]; rfl⟩) (fun h0 => ?_)
    have hpos : 0 < src.length := List.length_pos_iff.2 h0
    refine wp_ite (fun _ => ⟨0, rfl, Nat.zero_le _, hsame, nofun⟩) (fun _ => ?_)
    refine wp_then (copyoutPage_spec hu ha (hr.still (Still.refl _) rfl le_rfl (by omega)))
      (fun r k1 ⟨hk1, hpa⟩ => ?_)
    obtain ⟨pa, a1⟩ := r
    cases pa with
    | none =>
      refine ⟨0, rfl, Nat.zero_le _, ?_, nofun⟩
      rw [List.take_zero, writeBytes_nil]
      exact hk1
    | some pa =>
      obtain ⟨e, he, hep, hue, hw⟩ := hpa pa rfl
      subst hep
      have hv : dst / 4096 < trapVpn := hk1.user.lt_trap he hue
      have hs := hk1.user.shows _ hv
      rw [he] at hs
      have hdst : dst / 4096 * 4096 + dst % 4096 = dst := by omega
      have hlen : (src.take (min (4096 - dst % 4096) src.length)).length = min (4096 - dst % 4096) src.length := by
        rw [List.length_take]
        omega
      have hrest : (src.drop (min (4096 - dst % 4096) src.length)).length =
          src.length - min (4096 - dst % 4096) src.length := List.length_drop
      refine wp_then (poke_spec (dst % 4096) (src.take (min (4096 - dst % 4096) src.length)) hk1.user hk1.acc he hv
        (hs.1 (.inr hw)) (by omega)) (fun _ k2 ⟨ha2, hk2, hu2⟩ => ?_)
      rw [hdst] at hu2
      have hk12 : Kept sole E k a n (writeBytes R dst (src.take (min (4096 - dst % 4096) src.length))) k2 a1 :=
        hk1.trans ⟨ha2, hk2, hu2, Still.refl _, rfl⟩
      have hr2 : Reach a1 sz n ((dst / 4096 + 1) * 4096 / 4096) (((dst / 4096 + 1) * 4096 +
          (src.drop (min (4096 - dst % 4096) src.length)).length + 4095) / 4096) :=
        hr.still hk1.still hk1.own (by omega) (by omega)
      refine wp_use (copyoutLoop_spec fuel hu2 ha2 hr2) (fun r k3 ⟨c, hc, hcl, hk3, hfull⟩ => ?_)
      refine ⟨min (4096 - dst % 4096) src.length + c, by omega, by omega, ?_, fun h1 h2 => ?_⟩
      · rw [List.take_add, ← writeBytes_append, hlen]
        rcases Nat.eq_zero_or_pos c with h0 | hc0
        · subst h0
          rw [List.take_zero, writeBytes_nil] at hk3 ⊢
          exact hk12.trans hk3
        · -- bytes are left, so that this turn has gone to the end of its page
          have hnext : dst + min (4096 - dst % 4096) src.length = (dst / 4096 + 1) * 4096 := by omega
          rw [hnext]
          exact hk12.trans hk3
      · have := hfull h1 (by omega)
        omega

theorem copyout_spec {src : List UInt8} (hu : User sole k a.pt n R) (ha : Acc k (E + uses a.pt))
    (hr : Reach a sz n (dst / 4096) ((dst + src.length + 4095) / 4096)) :
    wp (copyout a sz dst src) (fun r k' => Kept sole E k a n (writeBytes R dst (src.take r.2.2)) k' r.2.1 ∧
      (r.1 = true → src.take r.2.2 = src)) F k := by
  refine wp_use (copyoutLoop_spec src.length hu ha hr) (fun r k' ⟨c, hc, hcl, hk, hfull⟩ => ?_)
  rw [hc, zero_add]
  exact ⟨hk, fun h => by rw [hfull h le_rfl, List.take_length]⟩

theorem copyinLoop_spec : ∀ (fuel : Nat) {a : Tabs} {src len : Nat} {dst : List UInt8} {k : Kmem},
    User sole k a.pt (pgs sz) R → Acc k (E + uses a.pt) → a.own = none →
    wp (copyinLoop fuel a sz src len dst) (fun r k' => Kept sole E k a (pgs sz) R k' r.2 ∧
      (∀ bs, r.1 = some bs → len ≤ fuel → bs = dst ++ (List.range len).map (fun i => R (src + i)))) F k
  | 0, a, src, len, dst, k, hu, ha, _ => by
    refine ⟨Kept.refl hu ha, fun bs h hf => ?_⟩
    cases h
    have : len = 0 := by omega
    simp [this]
  | fuel + 1, a, src, len, dst, k, hu, ha, hown => by
    refine wp_ite (fun h0 => ⟨Kept.refl hu ha, fun bs h _ => ?_⟩) (fun h0 => ?_)
    · cases h
      simp [h0]
    refine wp_then (pageFor_spec hu ha (.inl ⟨hown, rfl⟩)) (fun r k1 ⟨hk1, hpa⟩ => ?_)
    obtain ⟨pa, a1⟩ := r
    cases pa with
    | none => exact ⟨hk1, nofun⟩
    | some pa =>
      obtain ⟨e, he, hep, hue⟩ := hpa pa rfl
      subst hep
      have hv : src / 4096 < trapVpn := hk1.user.lt_trap he hue
      have hs := hk1.user.shows _ hv
      rw [he] at hs
      refine wp_use (copyinLoop_spec fuel hk1.user hk1.acc (hk1.own.trans hown)) (fun r k2 ⟨hk2, hbs⟩ => ?_)
      refine ⟨hk1.trans hk2, fun bs h hf => ?_⟩
      rw [hbs bs h (by omega), List.append_assoc]
      have hsum : len = min (4096 - src % 4096) len + (len - min (4096 - src % 4096) len) := by omega
      have hread : (List.range (min (4096 - src % 4096) len)).map (fun i => k1.mem e.pa (src % 4096 + i)) =
          (List.range (min (4096 - src % 4096) len)).map (fun i => R (src + i)) := by
        refine List.map_congr_left (fun i hi => ?_)
        have hi := List.mem_range.1 hi
        rw [hs.2 _ (by omega)]
        congr 1
        omega
      have hnext : (List.range (len - min (4096 - src % 4096) len)).map (fun i => R ((src / 4096 + 1) * 4096 + i)) =
          (List.range (len - min (4096 - src % 4096) len)).map (fun i => R (src + (min (4096 - src % 4096) len + i))) := by
        refine List.map_congr_left (fun i hi => ?_)
        have hi := List.mem_range.1 hi
        congr 1
        omega
      conv_rhs => rw [hsum, List.range_add, List.map_append, List.map_map]
      rw [hread, hnext]
      rfl

theorem copyin_spec {src len : Nat} (hu : User sole k t (pgs sz) R) (ha : Acc k (E + uses t)) :
    wp (copyin ⟨t, none⟩ sz src len) (fun r k' => Kept sole E k ⟨t, none⟩ (pgs sz) R k' r.2 ∧
      (∀ bs, r.1 = some bs → bs = (List.range len).map (fun i => R (src + i)))) F k :=
  wp_use (copyinLoop_spec len hu ha rfl) (fun _ _ ⟨hk, hbs⟩ => ⟨hk, fun bs h => hbs bs h le_rfl⟩)

end Xv6.Vm
