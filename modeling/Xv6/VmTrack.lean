import Xv6.VmCopy
/-!
# VmTrack — what the kernel may do to a page of a user page table

Whatever is read from or written to a process, faulted in or shared by `fork`, an entry of its page table keeps its user
and execute bits; one that is executable is never made writable; and a page that comes in is a user page that is not
executable (`Evolves`). No accounts are needed for this: the statements say what a function returns if it returns.
-/
namespace Xv6.Vm

open Function Wp
variable {t₀ : Pt}

/-- **What can become of an entry** while its process runs, or in the child that inherits it. -/
def Ages : Option Pte → Option Pte → Prop
  | none, none => True
  | none, some e' => e'.u = true ∧ e'.x = false
  | some _, none => False
  | some e, some e' => e'.u = e.u ∧ e'.x = e.x ∧ (e.x = true → e'.w = true → e.w = true)

theorem Ages.refl : ∀ x : Option Pte, Ages x x
  | none => trivial
  | some _ => ⟨rfl, rfl, fun _ => id⟩

theorem Ages.trans : ∀ {x y z : Option Pte}, Ages x y → Ages y z → Ages x z
  | none, none, _, _, h => h
  | none, some _, none, _, h => h.elim
  | none, some _, some _, ⟨hu, hx⟩, ⟨hu', hx', _⟩ => ⟨hu'.trans hu, hx'.trans hx⟩
  | some _, none, _, h, _ => h.elim
  | some _, some _, none, _, h => h.elim
  | some _, some _, some _, ⟨hu, hx, hw⟩, ⟨hu', hx', hw'⟩ =>
    ⟨hu'.trans hu, hx'.trans hx, fun h h' => hw h (hw' (hx.trans h) h')⟩

structure Evolves (t t' : Pt) : Prop where
  wf : Wf t'
  ages : ∀ v, Ages (t.pte v) (t'.pte v)

variable {t t' t'' : Pt} {v sz pa b i newsz oldsz va dst base tf : Nat} {e e' : Pte} {w free x : Bool}

theorem Evolves.ofPte (hw : Wf t') (h : t'.pte = t.pte) : Evolves t t' := by
  constructor
  · exact hw
  · intro v
    rw [h]
    exact .refl _

theorem Evolves.refl (hw : Wf t) : Evolves t t := .ofPte hw rfl

theorem Evolves.trans (h : Evolves t t') (h' : Evolves t' t'') : Evolves t t'' :=
  ⟨h'.wf, fun v => (h.ages v).trans (h'.ages v)⟩

theorem Evolves.update {x : Option Pte} (hw : Wf t') (hp : t'.pte = Function.update t.pte v x)
    (h : Ages (t.pte v) x) : Evolves t t' := by
  constructor
  · exact hw
  intro u
  rw [hp]
  by_cases e : u = v
  · subst e
    rwa [update_self]
  · rw [update_of_ne e]
    exact .refl _

theorem Evolves.insert (hw : Wf t') (hp : t'.pte = Function.update t.pte v (some e'))
    (hn : t.pte v = none) (hu : e'.u = true) (hx : e'.x = false) : Evolves t t' :=
  .update hw hp (by rw [hn]; exact ⟨hu, hx⟩)

theorem Evolves.change (hw : Wf t')
    (hp : t'.pte = Function.update t.pte v (some e')) (he : t.pte v = some e) (hu : e'.u = e.u) (hx : e'.x = e.x)
    (hwr : e.x = true → e'.w = true → e.w = true) : Evolves t t' := .update hw hp (by rw [he]; exact ⟨hu, hx, hwr⟩)

variable {k : Kmem}

theorem any (e : Panic) : Any e := trivial

/-- An entry that nothing written for its process gets past: a user page, executable and not writable. -/
def Barred (x : Option Pte) : Prop := ∃ e, x = some e ∧ e.u = true ∧ e.w = false ∧ e.x = true

theorem Barred.ages : ∀ {x y : Option Pte}, Ages x y → Barred x → Barred y
  | some _, some e', ⟨hu', hx', hw'⟩, ⟨_, rfl, hu, hw, hx⟩ => by
    refine ⟨e', rfl, hu'.trans hu, ?_, hx'.trans hx⟩
    by_contra hne
    rw [hw' hx (by simpa using hne)] at hw
    cases hw

structure Moves (a a' : Tabs) : Prop where
  pt : Evolves a.pt a'.pt
  mine : Evolves a.mine a'.mine
  own : a'.own.isSome = a.own.isSome

variable {a : Tabs} {perm : Flags}

theorem Moves.refl (hp : Wf a.pt) (hm : Wf a.mine) : Moves a a := ⟨.refl hp, .refl hm, rfl⟩

theorem Moves.trans {a' a'' : Tabs} (h : Moves a a') (h' : Moves a' a'') : Moves a a'' :=
  ⟨h.pt.trans h'.pt, h.mine.trans h'.mine, h'.own.trans h.own⟩

theorem Moves.setMine (hp : Wf a.pt) (h : Evolves a.mine t) : Moves a (a.setMine t) := by
  obtain ⟨pt, own⟩ := a
  cases own with
  | none => exact ⟨h, h, rfl⟩
  | some own => exact ⟨.refl hp, h, rfl⟩

theorem Moves.setPt (hm : Wf a.mine) (h : Evolves a.pt t) : Moves a { a with pt := t } := by
  obtain ⟨pt, own⟩ := a
  cases own with
  | none => exact ⟨h, h, rfl⟩
  | some own => exact ⟨h, .refl hm, rfl⟩

/-! ## Tables -/

section
variable (hw : Wf t)
include hw

theorem walkAlloc1_pte (hv : v < maxVpn) :
    wp (walkAlloc1 t v) (fun r _ => Wf r.2 ∧ r.2.pte = t.pte ∧ (r.1 = true → (r.2.l1 (v / 2 ^ 18)).isSome = true))
      Any k := by
  unfold walkAlloc1
  split
  · rename_i p h1
    exact ⟨hw, rfl, fun _ => by rw [h1]; rfl⟩
  rename_i h1
  refine wp_skip any (fun r k1 => ?_)
  cases r with
  | none => exact ⟨hw, rfl, nofun⟩
  | some p =>
    refine wp_skip any (fun _ k2 => ?_)
    simp only [wp_pure, (tabs_newL1 (p := p) hw hv h1).1]
    exact ⟨hw.newL1 hv, trivial, fun _ => by rw [update_self]; rfl⟩

theorem walkAlloc0_pte (hv : v < maxVpn) (h1 : (t.l1 (v / 2 ^ 18)).isSome = true) :
    wp (walkAlloc0 t v) (fun r _ => Wf r.2 ∧ r.2.pte = t.pte ∧ (r.1 = true → (r.2.l0 (v / 2 ^ 9)).isSome = true))
      Any k := by
  unfold walkAlloc0
  split
  · rename_i p h0
    exact ⟨hw, rfl, fun _ => by rw [h0]; rfl⟩
  rename_i h0
  refine wp_skip any (fun r k1 => ?_)
  cases r with
  | none => exact ⟨hw, rfl, nofun⟩
  | some p =>
    refine wp_skip any (fun _ k2 => ?_)
    simp only [wp_pure, (tabs_newL0 (p := p) hw hv h1 h0).1]
    exact ⟨hw.newL0 h1, trivial, fun _ => by rw [update_self]; rfl⟩

theorem walkAlloc_pte : wp (walkAlloc t v) (fun r _ => Wf r.2 ∧ r.2.pte = t.pte ∧
      (r.1 = true → v < maxVpn ∧ (r.2.l0 (v / 2 ^ 9)).isSome = true)) Any k := by
  refine wp_ite (fun _ => trivial) (fun hv => ?_)
  have hv : v < maxVpn := by omega
  refine wp_then (walkAlloc1_pte hw hv) (fun r k1 ⟨hw1, hp1, hl1⟩ => ?_)
  refine wp_ite (fun hok => ?_) (fun _ => ⟨hw1, hp1, nofun⟩)
  refine wp_use (walkAlloc0_pte hw1 hv (hl1 hok)) (fun r k2 ⟨hw2, hp2, hl2⟩ => ?_)
  exact ⟨hw2, hp2.trans hp1, fun h => ⟨hv, hl2 h⟩⟩

theorem mappages_pte : wp (mappages t v pa perm 1) (fun r _ => Wf r.2 ∧
      (if r.1 then t.pte v = none ∧ r.2.pte = update t.pte v (some { perm with pa := pa })
       else r.2.pte = t.pte)) Any k := by
  refine wp_then (walkAlloc_pte hw) (fun r k1 ⟨hw1, hp1, hl1⟩ => ?_)
  obtain ⟨ok, t1⟩ := r
  refine wp_ite (fun hok => ?_) (fun hok => ?_)
  · have hok : ok = false := by simpa using hok
    exact ⟨hw1, by simpa using hp1⟩
  have hok : ok = true := by simpa using hok
  obtain ⟨hv, hl0⟩ := hl1 hok
  refine wp_ite (fun _ => trivial) (fun hn => ?_)
  have hn : t1.pte v = none := by simpa using hn
  refine ⟨hw1.newPte _ hv hl0, ?_⟩
  exact ⟨by rw [← hp1, hn], by rw [← hp1]; rfl⟩

theorem mappages_evolves (hu : perm.u = true) (hx : perm.x = false) :
    wp (mappages t v pa perm 1) (fun r _ => Evolves t r.2) Any k := by
  refine wp_use (mappages_pte hw) (fun r _ ⟨hw1, hr⟩ => ?_)
  split at hr
  · exact .insert hw1 hr.2 hr.1 hu hx
  · exact .ofPte hw1 hr

end

/-- `t` is `t₀` with the pages from `a` to `b` laid out, all with the bits `w` and `x`. -/
structure Laid (t₀ t : Pt) (a b : Nat) (w x : Bool) : Prop where
  fresh : ∀ u, a ≤ u → u < b → t₀.pte u = none
  laid : ∀ u, a ≤ u → u < b → ∃ pa, t.pte u = some ⟨⟨true, w, x, true⟩, pa⟩
  same : ∀ u, ¬ (a ≤ u ∧ u < b) → t.pte u = t₀.pte u

theorem Laid.evolves {a : Nat} (h : Laid t₀ t a b w false) (hw : Wf t) : Evolves t₀ t := by
  constructor
  · exact hw
  intro u
  by_cases hu : a ≤ u ∧ u < b
  · obtain ⟨pa, he⟩ := h.laid u hu.1 hu.2
    rw [h.fresh u hu.1 hu.2, he]
    exact ⟨rfl, rfl⟩
  · rw [h.same u hu]
    exact .refl _

structure Copied (t₀ old new : Pt) (i : Nat) : Prop where
  grew : Evolves t₀ old
  wf : Wf new
  ages : ∀ v, v < i → v < trapVpn → Ages (t₀.pte v) (new.pte v)
  ahead : ∀ v, i ≤ v → old.pte v = t₀.pte v
  blank : ∀ v, i ≤ v → v < trapVpn → new.pte v = none

theorem Evolves.share (hw : Wf t) (he : t.pte i = some e) : Evolves t (t.share i e) := by
  unfold Pt.share
  split
  · exact .change (hw.setPte _ he) rfl he rfl rfl nofun
  · exact .refl hw

theorem share_ahead (h : v ≠ i) : (t.share i e).pte v = t.pte v := by
  unfold Pt.share
  split
  · exact update_of_ne h _ _
  · rfl

theorem Ages.shared (e : Pte) : Ages (some e) (some { e.shared with pa := e.pa }) := by
  unfold Pte.shared
  split
  · exact ⟨rfl, rfl, nofun⟩
  · exact ⟨rfl, rfl, fun _ => id⟩

variable [Link] {src : List UInt8}

theorem uvmunmap_pte : ∀ (n : Nat) {t : Pt} {v : Nat} {k : Kmem}, Wf t →
    wp (uvmunmap t v free n) (fun r _ => Wf r ∧ r.pte = cleared t.pte v n) Any k
  | 0, t, v, k, hw => by
    refine ⟨hw, funext (fun u => ?_)⟩
    rw [cleared, if_neg (by omega)]
  | n + 1, t, v, k, hw => by
    unfold uvmunmap
    rw [wp_bind]
    refine walk_spec (.inr trivial) (fun _ => ?_)
    have hgo : ∀ k1, wp (uvmunmap (t.setPte v none) (v + 1) free n)
        (fun r _ => Wf r ∧ r.pte = cleared t.pte v (n + 1)) Any k1 := by
      intro k1
      refine wp_use (uvmunmap_pte n (hw.clearPte v)) ?_
      rintro r _ ⟨hwr, hr⟩
      refine ⟨hwr, ?_⟩
      rw [hr, Pt.setPte, cleared_cons]
    split
    · refine wp_ite (fun _ => ?_) (fun _ => ?_)
      · exact wp_skip any (fun _ => hgo)
      · exact hgo k
    rename_i hslot
    have hn : t.pte v = none := by
      by_contra hne
      obtain ⟨e, he⟩ := Option.ne_none_iff_exists'.1 hne
      exact hslot e (hw.slot_some he)
    refine wp_use (uvmunmap_pte n hw) ?_
    rintro r _ ⟨hwr, hr⟩
    refine ⟨hwr, ?_⟩
    rw [hr, cleared_none n hn]

theorem uvmdealloc_pte (hw : Wf t) :
    wp (uvmdealloc t oldsz newsz) (fun r _ => Wf r.2 ∧ ∀ v, v < pgs r.1 → r.2.pte v = t.pte v) Any k := by
  refine wp_ite (fun _ => ⟨hw, fun _ _ => rfl⟩) (fun _ => wp_ite (fun _ => ?_) (fun _ => ⟨hw, fun _ _ => rfl⟩))
  refine wp_then (uvmunmap_pte _ hw) (fun r _ ⟨hwr, hr⟩ => ⟨hwr, fun v hv => ?_⟩)
  dsimp only at hv
  rw [hr, cleared, if_neg (by omega)]

theorem Laid.undo {a : Nat} (h : Laid t₀ t a b w x) (hw : Wf t) :
    wp (uvmdealloc t (b * 4096) (a * 4096)) (fun r _ => Wf r.2 ∧ r.2.pte = t₀.pte) Any k := by
  refine wp_ite (fun hle => ⟨hw, ?_⟩) (fun hlt => ?_)
  · funext u
    exact h.same u (by omega)
  rw [pgs_mul, pgs_mul, if_pos (by omega)]
  refine wp_then (uvmunmap_pte _ hw) (fun r _ ⟨hwr, hr⟩ => ⟨hwr, ?_⟩)
  funext u
  rw [hr, cleared]
  split
  · rw [h.fresh u (by omega) (by omega)]
  · exact h.same u (by omega)

theorem uvmallocLoop_laid {a : Nat} : ∀ (n : Nat) {t : Pt} {v : Nat} {k : Kmem}, Wf t → a ≤ v →
    Laid t₀ t a v w x → wp (uvmallocLoop a w x t v n)
      (fun r _ => Wf r.2 ∧ if r.1 then Laid t₀ r.2 a (v + n) w x else r.2.pte = t₀.pte) Any k
  | 0, t, v, k, hw, _, hl => ⟨hw, by simpa using hl⟩
  | n + 1, t, v, k, hw, hav, hl => by
    have hundo : ∀ {t1 : Pt} {k1 : Kmem}, Wf t1 → Laid t₀ t1 a v w x →
        wp (uvmdealloc t1 (v * 4096) (a * 4096) >>= fun r => pure (false, r.2))
          (fun r _ => Wf r.2 ∧ if r.1 then Laid t₀ r.2 a (v + (n + 1)) w x else r.2.pte = t₀.pte) Any k1 := by
      intro t1 k1 hw1 hl1
      refine wp_then (hl1.undo hw1) ?_
      rintro r _ ⟨hwr, hr⟩
      exact ⟨hwr, by simpa using hr⟩
    refine wp_skip any (fun r k1 => ?_)
    cases r with
    | none => exact hundo hw hl
    | some p =>
      refine wp_skip any (fun _ k2 => ?_)
      refine wp_then (mappages_pte hw) ?_
      rintro r k3 ⟨hw1, hr⟩
      obtain ⟨ok, t1⟩ := r
      cases ok with
      | false =>
        refine wp_skip any (fun _ k4 => hundo hw1 ⟨hl.fresh, ?_, ?_⟩)
        · intro u h1 h2
          rw [hr]
          exact hl.laid u h1 h2
        · intro u h
          rw [hr]
          exact hl.same u h
      | true =>
        obtain ⟨hn, hp⟩ := hr
        rw [show v + (n + 1) = v + 1 + n by omega]
        refine uvmallocLoop_laid n hw1 (by omega) ⟨?_, ?_, ?_⟩
        · intro u h1 h2
          by_cases e : u = v
          · rw [e, ← hl.same v (by omega), hn]
          · exact hl.fresh u h1 (by omega)
        · intro u h1 h2
          rw [hp]
          by_cases e : u = v
          · rw [e, update_self]
            exact ⟨p, rfl⟩
          · rw [update_of_ne e]
            exact hl.laid u h1 (by omega)
        · intro u h
          rw [hp, update_of_ne (by omega)]
          exact hl.same u (by omega)

theorem uvmalloc_laid (hw : Wf t) : wp (uvmalloc t oldsz newsz w x) (fun r _ => Wf r.2 ∧
      (r.1 = 0 ∧ r.2.pte = t.pte ∨ r.1 = oldsz ∧ newsz < oldsz ∧ r.2.pte = t.pte ∨
        r.1 = newsz ∧ oldsz ≤ newsz ∧ Laid t r.2 (pgs oldsz) (pgs newsz) w x)) Any k := by
  refine wp_ite (fun h => ⟨hw, .inr (.inl ⟨rfl, h, rfl⟩)⟩) (fun h => ?_)
  have hpg : pgs oldsz ≤ pgs newsz := pgs_mono (by omega)
  rw [wp_bind]
  have hstart : Laid t t (pgs oldsz) (pgs oldsz) w x := ⟨fun u _ _ => by omega, fun u _ _ => by omega, fun _ _ => rfl⟩
  refine wp_use (uvmallocLoop_laid _ hw le_rfl hstart) (fun r _ ⟨hwr, hr⟩ => ⟨hwr, ?_⟩)
  rw [Nat.add_sub_cancel' hpg] at hr
  split at hr
  · rename_i hok
    rw [if_pos hok]
    exact .inr (.inr ⟨rfl, by omega, hr⟩)
  · rename_i hok
    rw [if_neg hok]
    exact .inl ⟨rfl, hr⟩

/-! ## Faults -/

theorem cowfault_evolves (hw : Wf t) : wp (cowfault t v) (fun r _ => Evolves t r.2) Any k := by
  unfold cowfault
  rw [wp_bind]
  refine walk_spec (.inr trivial) (fun _ => ?_)
  split
  · rename_i e hslot
    have he := pte_of_slot hslot
    refine wp_ite (fun _ => .refl hw) (fun _ => ?_)
    refine wp_ite (fun _ => .refl hw) (fun hx => ?_)
    refine wp_ite (fun _ => .refl hw) (fun _ => ?_)
    refine wp_then (wp_true _ any k) (fun n k1 _ => ?_)
    have hchange : ∀ e' : Pte, e'.u = e.u → e'.x = e.x → Evolves t (t.setPte v (some e')) :=
      fun e' hu' hx' => .change (hw.setPte _ he) rfl he hu' hx' (fun h => absurd h hx)
    refine wp_ite (fun _ => ?_) (fun _ => hchange _ rfl rfl)
    refine wp_skip any (fun r k2 => ?_)
    cases r with
    | none => exact .refl hw
    | some p =>
      refine wp_skip any (fun _ k3 => ?_)
      rw [remap_present hw he]
      simp only [if_true]
      refine wp_skip any (fun _ k4 => ?_)
      exact hchange _ rfl rfl
  · exact .refl hw

theorem vmfault_moves (hp : Wf a.pt) (hm : Wf a.mine) : wp (vmfault a sz va) (fun r _ => Moves a r.2) Any k := by
  refine wp_ite (fun _ => .refl hp hm) (fun _ => ?_)
  refine wp_skip any (fun m k1 => ?_)
  refine wp_ite (fun _ => .refl hp hm) (fun _ => ?_)
  refine wp_skip any (fun r k2 => ?_)
  cases r with
  | none => exact .refl hp hm
  | some p =>
    refine wp_skip any (fun _ k3 => ?_)
    refine wp_then (mappages_evolves hm rfl rfl) (fun r k4 hr => ?_)
    refine wp_ite (fun _ => .setMine hp hr) (fun _ => ?_)
    exact wp_skip any (fun _ k5 => .setMine hp hr)

/-! ## Copies -/

theorem pageFor_moves (hp : Wf a.pt) (hm : Wf a.mine) :
    wp (match walkaddr a.pt v with
      | some pa => pure (some pa, a)
      | none => vmfault a sz (v * 4096)) (fun r _ => Moves a r.2) Any k := by
  split
  · exact .refl hp hm
  · exact vmfault_moves hp hm

theorem copyoutPage_moves (hp : Wf a.pt) (hm : Wf a.mine) : wp (copyoutPage a sz v) (fun r _ => Moves a r.2) Any k := by
  refine wp_then (pageFor_moves hp hm) (fun r k1 h1 => ?_)
  dsimp only at ⊢
  split
  · exact h1
  rw [wp_bind]
  refine walk_spec (.inr trivial) (fun _ => ?_)
  split
  · refine wp_ite (fun _ => ?_) (fun _ => h1)
    exact wp_then (cowfault_evolves h1.pt.wf) (fun r k2 hr => h1.trans (.setPt h1.mine.wf hr))
  · exact h1

theorem copyoutPage_barred (hw : Wf a.pt) (hb : Barred (a.pt.pte v)) :
    wp (copyoutPage a sz v) (fun r _ => r.1 = none) Any k := by
  obtain ⟨e, hv, hu, hwr, hx⟩ := hb
  unfold copyoutPage
  rw [hw.walkaddr_of hv hu, pure_bind]
  rw [wp_bind]
  refine walk_spec (.inr trivial) (fun hlt => ?_)
  rw [hw.slot_some hv]
  dsimp only
  rw [if_pos (by simp [hu, hwr]), wp_bind]
  have hcow : wp (cowfault a.pt v) (fun r _ => r.1 = false) Any k := by
    unfold cowfault
    rw [wp_bind]
    refine walk_spec (.inr trivial) (fun _ => ?_)
    rw [hw.slot_some hv]
    simp [hx]
  refine wp_use hcow (fun r k1 hr => ?_)
  obtain ⟨ok, t⟩ := r
  subst hr
  simp

theorem copyoutLoop_moves : ∀ (fuel : Nat) {a : Tabs} {dst done : Nat} {src : List UInt8} {k : Kmem},
    Wf a.pt → Wf a.mine → wp (copyoutLoop fuel a sz dst src done) (fun r _ => Moves a r.2.1) Any k
  | 0, a, dst, done, src, k, hp, hm => .refl hp hm
  | fuel + 1, a, dst, done, src, k, hp, hm => by
    refine wp_ite (fun _ => .refl hp hm) (fun _ => ?_)
    refine wp_ite (fun _ => .refl hp hm) (fun _ => ?_)
    refine wp_then (copyoutPage_moves hp hm) (fun r k1 h1 => ?_)
    obtain ⟨pa, a1⟩ := r
    cases pa with
    | none => exact h1
    | some pa =>
      refine wp_skip any (fun _ k2 => ?_)
      exact wp_use (copyoutLoop_moves fuel h1.pt.wf h1.mine.wf) (fun r _ => h1.trans)

theorem copyout_moves (hp : Wf a.pt) (hm : Wf a.mine) : wp (copyout a sz dst src) (fun r _ => Moves a r.2.1) Any k :=
  copyoutLoop_moves _ hp hm

theorem copyoutLoop_barred : ∀ (fuel : Nat) {a : Tabs} {dst done : Nat} {src : List UInt8} {k : Kmem},
    Wf a.pt → Wf a.mine → Barred (a.pt.pte v) → (src ≠ [] → dst = base + done) →
    (∀ b, base ≤ b → b < base + done → b / 4096 ≠ v) →
    wp (copyoutLoop fuel a sz dst src done) (fun r _ => ∀ b, base ≤ b → b < base + r.2.2 → b / 4096 ≠ v) Any k
  | 0, a, dst, done, src, k, hp, hm, hb, hd, hpre => hpre
  | fuel + 1, a, dst, done, src, k, hp, hm, hb, hd, hpre => by
    unfold copyoutLoop
    refine wp_ite (fun _ => hpre) (fun hsrc => ?_)
    refine wp_ite (fun _ => hpre) (fun _ => ?_)
    have hdst := hd hsrc
    rw [wp_bind]
    have hstop : wp (copyoutPage a sz (dst / 4096)) (fun r _ => dst / 4096 = v → r.1 = none) Any k :=
      wp_imp any (fun e => copyoutPage_barred hp (e ▸ hb))
    refine wp_use (wp_and (copyoutPage_moves hp hm) hstop) (fun r k1 ⟨h1, hv⟩ => ?_)
    obtain ⟨pa, a1⟩ := r
    cases pa with
    | none => exact hpre
    | some pa =>
      have hne : dst / 4096 ≠ v := fun e => nomatch hv e
      refine wp_skip any (fun _ k2 => ?_)
      refine copyoutLoop_barred fuel h1.pt.wf h1.mine.wf (hb.ages (h1.pt.ages v)) (fun hrest => ?_) (fun b hb1 hb2 => ?_)
      · -- a turn that leaves bytes ends at the end of a page
        have : min (4096 - dst % 4096) src.length < src.length := by
          by_contra hge
          exact hrest (List.drop_eq_nil_of_le (by omega))
        omega
      · by_cases h : b < base + done
        · exact hpre b hb1 h
        · have : b / 4096 = dst / 4096 := by omega
          rwa [this]

theorem copyout_barred (hp : Wf a.pt) (hm : Wf a.mine) (hb : Barred (a.pt.pte v)) :
    wp (copyout a sz dst src) (fun r _ => ∀ b, dst ≤ b → b < dst + r.2.2 → b / 4096 ≠ v) Any k :=
  copyoutLoop_barred _ hp hm hb (fun _ => rfl) (fun b h1 h2 => by omega)

theorem copyinLoop_moves : ∀ (fuel : Nat) {a : Tabs} {src len : Nat} {dst : List UInt8} {k : Kmem},
    Wf a.pt → Wf a.mine → wp (copyinLoop fuel a sz src len dst) (fun r _ => Moves a r.2) Any k
  | 0, a, src, len, dst, k, hp, hm => .refl hp hm
  | fuel + 1, a, src, len, dst, k, hp, hm => by
    refine wp_ite (fun _ => .refl hp hm) (fun _ => ?_)
    refine wp_then (pageFor_moves hp hm) (fun r k1 h1 => ?_)
    obtain ⟨pa, a1⟩ := r
    cases pa with
    | none => exact h1
    | some pa =>
      rw [wp_bind, wp_get]
      exact wp_use (copyinLoop_moves fuel h1.pt.wf h1.mine.wf) (fun r _ => h1.trans)

theorem copyin_moves {src len : Nat} (hp : Wf a.pt) (hm : Wf a.mine) :
    wp (copyin a sz src len) (fun r _ => Moves a r.2) Any k := copyinLoop_moves _ hp hm

/-! ## `fork` -/

theorem uvmcopyLoop_copied : ∀ (n : Nat) {old new : Pt} {i : Nat} {k : Kmem}, Copied t₀ old new i →
    wp (uvmcopyLoop old new i n) (fun r _ => Evolves t₀ r.2.1 ∧ (r.1 = true → Copied t₀ r.2.1 r.2.2 (i + n))) Any k
  | 0, old, new, i, k, h => ⟨h.grew, fun _ => h⟩
  | n + 1, old, new, i, k, h => by
    unfold uvmcopyLoop
    rw [wp_bind]
    refine walk_spec (.inr trivial) (fun _ => ?_)
    rw [show i + (n + 1) = i + 1 + n by omega]
    split
    · rename_i e hslot
      have he := pte_of_slot hslot
      have he0 : t₀.pte i = some e := by rw [← h.ahead i le_rfl, he]
      have hshare := h.grew.trans (.share h.grew.wf he)
      refine wp_then (mappages_pte h.wf) (fun r k1 ⟨hw1, hr⟩ => ?_)
      obtain ⟨ok, new1⟩ := r
      refine wp_ite (fun hok => ?_) (fun _ => ?_)
      · rw [if_pos hok] at hr
        refine wp_skip any (fun _ k2 => ?_)
        refine uvmcopyLoop_copied n ⟨hshare, hw1, ?_, ?_, ?_⟩
        · intro v hv hvt
          rw [hr.2]
          by_cases ev : v = i
          · rw [ev, update_self, he0]
            exact .shared e
          · rw [update_of_ne ev]
            exact h.ages v (by omega) hvt
        · intro v hv
          rw [share_ahead (by omega)]
          exact h.ahead v (by omega)
        · intro v hv hvt
          rw [hr.2, update_of_ne (by omega)]
          exact h.blank v (by omega) hvt
      · exact wp_skip any (fun _ k2 => ⟨hshare, nofun⟩)
    · rename_i hslot
      have hn : old.pte i = none := by
        by_contra hne
        obtain ⟨e, he⟩ := Option.ne_none_iff_exists'.1 hne
        exact hslot e (h.grew.wf.slot_some he)
      refine uvmcopyLoop_copied n ⟨h.grew, h.wf, ?_, fun v hv => h.ahead v (by omega), fun v hv => h.blank v (by omega)⟩
      intro v hv hvt
      by_cases ev : v = i
      · rw [ev, ← h.ahead i le_rfl, hn, h.blank i le_rfl (ev ▸ hvt)]
        trivial
      · exact h.ages v (by omega) hvt

theorem uvmcopy_copied {old new : Pt} (ho : Wf old) (hn : Wf new) (hb : ∀ v, v < trapVpn → new.pte v = none) :
    wp (uvmcopy old new sz) (fun r _ => Evolves old r.2.1 ∧ (r.1 = true → Copied old r.2.1 r.2.2 (pgs sz))) Any k := by
  have h := uvmcopyLoop_copied (k := k) (pgs sz)
    (⟨.refl ho, hn, fun v hv => by omega, fun _ _ => rfl, fun v _ => hb v⟩ : Copied old old new 0)
  rw [zero_add] at h
  exact h

theorem procPagetable_blank :
    wp (procPagetable tf) (fun r _ => ∀ t, r = some t → Wf t ∧ ∀ v, v < trapVpn → t.pte v = none) Any k := by
  have hlt := trap_lt_trampoline
  unfold procPagetable uvmcreate
  simp only [bind_assoc]
  refine wp_skip any (fun r k1 => ?_)
  cases r with
  | none => exact nofun
  | some p =>
    simp only [bind_assoc, pure_bind]
    refine wp_skip any (fun _ k2 => ?_)
    rw [wp_bind]
    have hw0 : Wf { root := p, l1 := fun _ => none, l0 := fun _ => none, pte := fun _ => none } :=
      ⟨(fun _ _ h => by cases h), (fun _ _ h => by cases h), (fun _ _ h => by cases h)⟩
    refine wp_use (mappages_pte hw0) (fun r k3 ⟨hw1, h1⟩ => ?_)
    have hfail : ∀ {k'} {m : KM Unit}, wp (do
        m
        return (none : Option Pt)) (fun r _ => ∀ t, r = some t → Wf t ∧ ∀ v, v < trapVpn → t.pte v = none) Any k' :=
      wp_skip any (fun _ _ => nofun)
    refine wp_ite (fun hok1 => ?_) (fun _ => hfail)
    rw [if_pos hok1] at h1
    refine wp_then (mappages_pte hw1) (fun r k4 ⟨hw2, h2⟩ => ?_)
    obtain ⟨ok2, t2⟩ := r
    refine wp_ite (fun hok2 => ?_) (fun _ => wp_skip any (fun _ _ => hfail))
    rw [if_pos hok2] at h2
    rintro t ⟨⟩
    refine ⟨hw2, fun v hv => ?_⟩
    rw [h2.2, update_of_ne (by omega), h1.2, update_of_ne (by omega)]

end Xv6.Vm
