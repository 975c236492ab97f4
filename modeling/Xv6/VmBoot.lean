import Xv6.VmTableSpec
import Xv6.VmModel
/-!
# VmBoot — the machine after `kinit` and `kvminit`, computed

`kinit` frees every page one by one and `kvminit` maps some fifty thousand of them one by one. Both have a closed form:
the free list counts down (`freerange_run`), and a level-0 table that is new is filled in one piece (`mappages_eq`). With
them the first steps of a run can be evaluated.
-/
namespace Xv6.Vm

open Function Wp

/-! ## `kinit` -/

def pagesDown (p : Nat) : Nat → List Nat
  | 0 => []
  | n + 1 => (p + n) :: pagesDown p n

theorem pagesDown_snoc (p : Nat) (free : List Nat) : ∀ n, pagesDown (p + 1) n ++ p :: free = pagesDown p (n + 1) ++ free
  | 0 => rfl
  | n + 1 => by
    rw [pagesDown, List.cons_append, pagesDown_snoc p free n, pagesDown, pagesDown, add_right_comm, add_assoc]
    rfl

def freed (p n : Nat) (k : Kmem) : Kmem :=
  { ref := fun _ => 0
    free := pagesDown p n ++ k.free
    mem := fun q => if p ≤ q ∧ q < p + n then fun _ => 1 else k.mem q }

variable {k : Kmem}

theorem freed_zero {p : Nat} (h : k.ref = fun _ => 0) : freed p 0 k = k := by
  obtain ⟨ref, free, mem⟩ := k
  subst h
  have hmem : (fun q => if p ≤ q ∧ q < p + 0 then fun _ => 1 else mem q) = mem := by
    funext q
    rw [if_neg (by omega)]
  rw [freed, hmem]
  rfl

theorem freed_succ (p n : Nat) (k : Kmem) : freed (p + 1) n (freed p 1 k) = freed p (n + 1) k := by
  have hmem : (fun q => if p + 1 ≤ q ∧ q < p + 1 + n then (fun _ => 1 : Nat → UInt8)
      else if p ≤ q ∧ q < p + 1 then fun _ => 1 else k.mem q) =
      fun q => if p ≤ q ∧ q < p + (n + 1) then fun _ => 1 else k.mem q := by
    funext q
    split_ifs <;> first | rfl | omega
  unfold freed
  rw [hmem, ← pagesDown_snoc p k.free n]
  rfl

section Kinit
variable [Link]

theorem kfree_first {p : Nat} (h : k.ref = fun _ => 0) (hp : InRange p) :
    wp (kfree p) (fun _ k' => k' = freed p 1 k) (fun _ => False) { k with ref := update k.ref p 1 } := by
  have href : update (update k.ref p 1) p 0 = fun _ => 0 := by
    rw [update_idem, h]
    exact update_eq_self_iff.2 rfl
  have hmem : update k.mem p (fun _ => 1) = fun q => if p ≤ q ∧ q < p + 1 then fun _ => 1 else k.mem q := by
    funext q
    by_cases e : q = p
    · subst e
      rw [update_self, if_pos (by omega)]
    · rw [update_of_ne e, if_neg (by omega)]
  unfold kfree decref getref memset
  rw [if_neg (not_not_intro hp)]
  simp only [wp_bind, wp_modify, wp_get, wp_pure, update_self, sub_self, ne_eq, not_true_eq_false, if_false, href,
    hmem]
  rfl

theorem freerange_freed : ∀ (n : Nat) {p : Nat} {k : Kmem}, (k.ref = fun _ => 0) → Link.endPage ≤ p →
    p + n ≤ stopPage → wp (freerange p n) (fun _ k' => k' = freed p n k) (fun _ => False) k
  | 0, p, k, h, _, _ => (freed_zero h).symm
  | n + 1, p, k, h, hlo, hhi => by
    unfold freerange
    rw [wp_bind, wp_modify]
    refine wp_then (kfree_first h ⟨hlo, by omega⟩) (fun _ k1 hk1 => ?_)
    subst hk1
    refine wp_use (freerange_freed n rfl (by omega) (by omega)) (fun _ k2 hk2 => ?_)
    rw [hk2, freed_succ]

def bootMem : Kmem := freed Link.endPage (stopPage - Link.endPage) bareMem

theorem kinit_run (h : Link.endPage ≤ stopPage) : vmBoot.k = bootMem := by
  have hw : wp kinit (fun _ k' => k' = bootMem) (fun _ => False) bareMem := by
    unfold kinit
    exact freerange_freed _ rfl le_rfl (by omega)
  unfold vmBoot
  split
  · rename_i hrun
    have hk := wp_of_ok hw hrun
    exact hk
  · rename_i hrun
    exact (wp_of_error hw hrun).elim

end Kinit

/-! ## `kvminit` -/

def Pt.fill (t : Pt) (v pa n : Nat) (perm : Flags) : Pt :=
  { t with pte := fun u => if v ≤ u ∧ u < v + n then some { perm with pa := pa + (u - v) } else t.pte u }

theorem fill_zero (t : Pt) (v pa : Nat) (perm : Flags) : t.fill v pa 0 perm = t := by
  have hpte : (fun u => if v ≤ u ∧ u < v + 0 then some { perm with pa := pa + (u - v) } else t.pte u) = t.pte := by
    funext u
    rw [if_neg (by omega)]
  rw [Pt.fill, hpte]

theorem fill_succ (t : Pt) (v pa n : Nat) (perm : Flags) :
    (t.setPte v (some { perm with pa := pa })).fill (v + 1) (pa + 1) n perm = t.fill v pa (n + 1) perm := by
  have hpte : (fun u => if v + 1 ≤ u ∧ u < v + 1 + n then some { perm with pa := pa + 1 + (u - (v + 1)) }
      else update t.pte v (some { perm with pa := pa }) u) =
      fun u => if v ≤ u ∧ u < v + (n + 1) then some { perm with pa := pa + (u - v) } else t.pte u := by
    funext u
    by_cases e : u = v
    · subst e
      rw [if_neg (by omega), if_pos (by omega), update_self, Nat.sub_self]
      rfl
    · rw [update_of_ne e]
      by_cases hr : v ≤ u ∧ u < v + (n + 1)
      · rw [if_pos hr, if_pos (by omega), show pa + 1 + (u - (v + 1)) = pa + (u - v) by omega]
      · rw [if_neg hr, if_neg (by omega)]
  unfold Pt.fill Pt.setPte
  rw [hpte]

def mapRest (t : Pt) (v pa : Nat) (perm : Flags) (n : Nat) : KM (Bool × Pt) :=
  if n = 0 then return (true, t) else mappages t v pa perm n

theorem mapRest_succ (t : Pt) (v pa : Nat) (perm : Flags) (n : Nat) : mapRest t v pa perm (n + 1) = (do
    let (ok, t) ← walkAlloc t v
    if ¬ ok then return (false, t)
    if (t.pte v).isSome then throw .remap
    mapRest (t.setPte v (some { perm with pa := pa })) (v + 1) (pa + 1) perm n) := rfl

theorem mapRest_add (perm : Flags) (b : Nat) : ∀ (a : Nat) (t : Pt) (v pa : Nat), mapRest t v pa perm (a + b) = (do
    let (ok, t) ← mapRest t v pa perm a
    if ok then mapRest t (v + a) (pa + a) perm b else return (false, t))
  | 0, t, v, pa => by
    rw [zero_add]
    rfl
  | a + 1, t, v, pa => by
    rw [add_right_comm, mapRest_succ, mapRest_succ, bind_assoc]
    congr 1
    funext r
    obtain ⟨ok, t⟩ := r
    cases ok with
    | false => rfl
    | true =>
      simp only [not_true_eq_false]
      by_cases hs : (t.pte v).isSome = true
      · simp only [hs]
        rfl
      · simp only [hs, if_false, Bool.false_eq_true]
        rw [mapRest_add perm b a, show v + 1 + a = v + (a + 1) by omega, show pa + 1 + a = pa + (a + 1) by omega]

variable {perm : Flags}

theorem mapRest_fill : ∀ (n : Nat) {t : Pt} {v pa : Nat}, v % 2 ^ 9 + n ≤ 2 ^ 9 → v + n ≤ maxVpn →
    (t.l1 (v / 2 ^ 18)).isSome = true → (t.l0 (v / 2 ^ 9)).isSome = true →
    (∀ u, v ≤ u → u < v + n → t.pte u = none) → mapRest t v pa perm n = pure (true, t.fill v pa n perm)
  | 0, t, v, pa, _, _, _, _, _ => by
    rw [fill_zero]
    rfl
  | n + 1, t, v, pa, hn, hv, h1, h0, hno => by
    rw [mapRest_succ, walkAlloc_there (by omega) h1 h0]
    simp only [pure_bind, hno v (Nat.le_refl v) (by omega), Option.isSome_none,
      Bool.false_eq_true]
    rw [← fill_succ]
    cases n with
    | zero =>
      rw [fill_zero]
      rfl
    | succ n =>
      refine mapRest_fill (n + 1) (by omega) (by omega) ?_ ?_ (fun u hu hlt => ?_)
      · rw [show (v + 1) / 2 ^ 18 = v / 2 ^ 18 by omega]
        exact h1
      · rw [show (v + 1) / 2 ^ 9 = v / 2 ^ 9 by omega]
        exact h0
      · rw [Pt.setPte]
        dsimp only
        rw [update_of_ne (by omega)]
        exact hno u (by omega) (by omega)

structure Opened (t t' : Pt) (v : Nat) : Prop where
  l1 : (t'.l1 (v / 2 ^ 18)).isSome = true
  l0 : (t'.l0 (v / 2 ^ 9)).isSome = true
  pte : ∀ u, u / 2 ^ 9 = v / 2 ^ 9 → t'.pte u = none
  rest : ∀ j, j ≠ v / 2 ^ 9 → t.l0 j = none → t'.l0 j = none

theorem walkAlloc_opened {t : Pt} {v : Nat} (h0 : t.l0 (v / 2 ^ 9) = none) :
    wp (walkAlloc t v) (fun r _ => r.1 = true → Opened t r.2 v) (fun _ => True) k := by
  have hlevel0 : ∀ {t1 : Pt} {k1 : Kmem}, (t1.l1 (v / 2 ^ 18)).isSome = true → (∀ j, t.l0 j = none → t1.l0 j = none) →
      wp (walkAlloc0 t1 v) (fun r _ => r.1 = true → Opened t r.2 v) (fun _ => True) k1 := by
    intro t1 k1 h1 hl0
    unfold walkAlloc0
    rw [hl0 _ h0]
    unfold kalloc
    simp only [wp_bind, wp_get]
    split
    · simp
    · refine fun _ => ⟨h1, ?_, fun u hu => if_pos hu, fun j hj hno => ?_⟩
      · simp [update_self, Option.isSome_some]
      · simp only [update_of_ne hj]
        exact hl0 j hno
  refine wp_ite (fun _ => trivial) (fun _ => ?_)
  unfold walkAlloc1
  cases h1 : t.l1 (v / 2 ^ 18) with
  | some p => exact hlevel0 (by rw [h1]; rfl) (fun _ h => h)
  | none =>
    unfold kalloc
    simp only [wp_bind, wp_get]
    split
    · simp
    · refine hlevel0 ?_ (fun j hj => ?_)
      · simp [update_self, Option.isSome_some]
      · simp [hj, ite_self]

/-- `mappages` of whole level-0 tables, `m` of them. -/
def mapTables (t : Pt) (v pa : Nat) (perm : Flags) : Nat → KM (Bool × Pt)
  | 0 => return (true, t)
  | m + 1 => do
    let (ok, t) ← walkAlloc t v
    if ¬ ok then return (false, t)
    mapTables (t.fill v pa (2 ^ 9) perm) (v + 2 ^ 9) (pa + 2 ^ 9) perm m

theorem mapRest_tables : ∀ (m : Nat) {t : Pt} {v pa : Nat}, v % 2 ^ 9 = 0 → v + 2 ^ 9 * m ≤ maxVpn →
    (∀ j, v / 2 ^ 9 ≤ j → j < v / 2 ^ 9 + m → t.l0 j = none) → mapRest t v pa perm (2 ^ 9 * m) = mapTables t v pa perm m
  | 0, _, _, _, _, _, _ => rfl
  | m + 1, t, v, pa, hv, hmax, hno => by
    have h0 := hno (v / 2 ^ 9) le_rfl (by omega)
    rw [show 2 ^ 9 * (m + 1) = (511 + 2 ^ 9 * m) + 1 by omega, mapRest_succ, mapTables]
    funext k
    refine bind_congr_of_wp (wp_use (walkAlloc_opened h0) (fun r k1 hr => ?_))
    obtain ⟨ok, t1⟩ := r
    cases ok with
    | false => rfl
    | true =>
      have ho := hr rfl
      have hfirst : t1.pte v = none := ho.pte v rfl
      simp only [if_false, hfirst, Option.isSome_none, Bool.false_eq_true]
      rw [mapRest_add]
      -- the first page has made the table, the others fill it
      have hfill : ∀ n, n + 1 = 2 ^ 9 → mapRest (t1.setPte v (some { perm with pa := pa })) (v + 1) (pa + 1) perm n =
          pure (true, t1.fill v pa (2 ^ 9) perm) := by
        intro n hn
        rw [mapRest_fill n (by omega) (by omega), fill_succ, hn]
        · rw [show (v + 1) / 2 ^ 18 = v / 2 ^ 18 by omega]
          exact ho.l1
        · rw [show (v + 1) / 2 ^ 9 = v / 2 ^ 9 by omega]
          exact ho.l0
        intro u hu hlt
        rw [Pt.setPte]
        dsimp only
        rw [update_of_ne (by omega)]
        exact ho.pte u (by omega)
      rw [hfill 511 rfl, pure_bind]
      simp only [if_true]
      have hrest : ∀ j, (v + 2 ^ 9) / 2 ^ 9 ≤ j → j < (v + 2 ^ 9) / 2 ^ 9 + m → t1.l0 j = none := by
        intro j hj hlt
        exact ho.rest j (by omega) (hno j (by omega) (by omega))
      rw [show v + 1 + 511 = v + 2 ^ 9 by omega, show pa + 1 + 511 = pa + 2 ^ 9 by omega,
        mapRest_tables (t := t1.fill v pa (2 ^ 9) perm) m (by omega) (by omega) hrest]

/-- The pages up to the end of a table, at once if the table is there and has no entry for them. -/
def mapHead (t : Pt) (v pa : Nat) (perm : Flags) (n : Nat) : KM (Bool × Pt) :=
  if v % 2 ^ 9 + n ≤ 2 ^ 9 ∧ v + n ≤ maxVpn ∧ (t.l1 (v / 2 ^ 18)).isSome = true ∧ (t.l0 (v / 2 ^ 9)).isSome = true ∧
      ∀ j ∈ List.range n, t.pte (v + j) = none then return (true, t.fill v pa n perm)
  else mapRest t v pa perm n

theorem mapHead_eq (t : Pt) (v pa : Nat) (perm : Flags) (n : Nat) : mapRest t v pa perm n = mapHead t v pa perm n := by
  unfold mapHead
  split
  · rename_i hc
    obtain ⟨hn, hv, h1, h0, hno⟩ := hc
    refine mapRest_fill n hn hv h1 h0 (fun u hu hlt => ?_)
    have hj := hno (u - v) (List.mem_range.2 (by omega))
    rw [Nat.add_sub_cancel' hu] at hj
    exact hj
  · rfl

/-- The pages of `m` whole tables, by tables if there are none of them yet. -/
def mapBody (t : Pt) (v pa : Nat) (perm : Flags) (m : Nat) : KM (Bool × Pt) :=
  if v % 2 ^ 9 = 0 ∧ v + 2 ^ 9 * m ≤ maxVpn ∧ ∀ j ∈ List.range m, t.l0 (v / 2 ^ 9 + j) = none then
    mapTables t v pa perm m
  else mapRest t v pa perm (2 ^ 9 * m)

theorem mapBody_eq (t : Pt) (v pa : Nat) (perm : Flags) (m : Nat) :
    mapRest t v pa perm (2 ^ 9 * m) = mapBody t v pa perm m := by
  unfold mapBody
  split
  · rename_i hc
    obtain ⟨hv, hmax, hfresh⟩ := hc
    refine mapRest_tables m hv hmax (fun j hj hlt => ?_)
    have hj' := hfresh (j - v / 2 ^ 9) (List.mem_range.2 (by omega))
    rw [Nat.add_sub_cancel' hj] at hj'
    exact hj'
  · rfl

/-- `mappages`, up to the first whole table and then by tables. -/
def mapFast (t : Pt) (v pa : Nat) (perm : Flags) (n : Nat) : KM (Bool × Pt) :=
  let a := (2 ^ 9 - v % 2 ^ 9) % 2 ^ 9
  let m := (n - a) / 2 ^ 9
  if 0 < n ∧ n = a + 2 ^ 9 * m then do
    let (ok, t) ← mapHead t v pa perm a
    if ok then mapBody t (v + a) (pa + a) perm m else return (false, t)
  else mappages t v pa perm n

theorem mappages_eq (t : Pt) (v pa : Nat) (perm : Flags) (n : Nat) : mappages t v pa perm n = mapFast t v pa perm n := by
  unfold mapFast
  dsimp only
  split
  · rename_i hc
    obtain ⟨hpos, hn⟩ := hc
    have hrest : mappages t v pa perm n = mapRest t v pa perm n := by
      unfold mapRest
      rw [if_neg (by omega)]
    rw [hrest, hn, mapRest_add, ← hn, mapHead_eq]
    simp only [mapBody_eq]
  · rfl

def kvmmapFast (t : Pt) (v pa n : Nat) (perm : Flags) : KM Pt := do
  let (ok, t) ← mapFast t v pa perm n
  if ok then return t else throw .kvmmap

theorem kvmmap_eq (t : Pt) (v pa n : Nat) (perm : Flags) : kvmmap t v pa n perm = kvmmapFast t v pa n perm := by
  unfold kvmmap kvmmapFast
  rw [mappages_eq]

variable [Link]

def kvmmakeFast : KM (Pt × List Nat) := do
  match ← uvmcreate with
  | none => throw .kalloc
  | some t =>
    let t ← kvmmapFast t 0x10000 0x10000 1 ⟨true, true, false, false⟩
    let t ← kvmmapFast t 0x10001 0x10001 1 ⟨true, true, false, false⟩
    let t ← kvmmapFast t 0xc000 0xc000 0x4000 ⟨true, true, false, false⟩
    let t ← kvmmapFast t 0x80000 0x80000 (Link.etext - 0x80000) ⟨true, false, true, false⟩
    let t ← kvmmapFast t Link.etext Link.etext (stopPage - Link.etext) ⟨true, true, false, false⟩
    let t ← kvmmapFast t trampolineVpn Link.trampoline 1 ⟨true, false, true, false⟩
    mapstacks t [] (List.finRange nproc)

theorem kvmmake_eq : kvmmake = kvmmakeFast := by
  unfold kvmmake
  congr 1
  funext r
  cases r with
  | none => rfl
  | some t => simp only [kvmmap_eq]

/-- **The machine after `kvminit`.** -/
def booted : VmState :=
  match kvmmakeFast.run bootMem with
  | .ok ((t, kstack), k) => { vmBoot with k := k, kpt := some t, kstack := kstack }
  | .error e => { vmBoot with k := bootMem, panic := some e }

section
variable {ok : VmState → VmAct → Prop} (h : Link.endPage ≤ stopPage)
include h

theorem vmStep_kvminit : vmStep vmBoot .kvminit = some booted := by
  have hk := kinit_run h
  have hrun : kvminit.run vmBoot = match kvmmakeFast.run bootMem with
      | .ok ((t, kstack), k) => .ok ((), { vmBoot with k := k, kpt := some t, kstack := kstack })
      | .error e => .error e := by
    unfold kvminit onMem
    rw [StateT.run_bind, kvmmake_eq]
    simp only [StateT.run, hk]
    cases kvmmakeFast bootMem with
    | ok r => rfl
    | error e => rfl
  have hprog : program vmBoot .kvminit = some kvminit := rfl
  have hpanic : ¬ vmBoot.panic.isSome = true := nofun
  unfold vmStep booted
  rw [if_neg hpanic, hprog, Option.map_some, hrun]
  congr 1
  cases kvmmakeFast.run bootMem with
  | ok r => rfl
  | error e =>
    rw [← hk]

/-! Runs from `kinit`, after their first step. -/

theorem run_booted (as : List VmAct) : Run.run vmStep vmBoot (.kvminit :: as) = Run.run vmStep booted as := by
  rw [Run.run_cons, vmStep_kvminit h, Option.bind_some]

theorem allSteps_booted {as : List VmAct} (hfirst : ok vmBoot .kvminit) (hrest : Run.allSteps vmStep ok booted as) :
    Run.allSteps vmStep ok vmBoot (.kvminit :: as) := by
  refine ⟨hfirst, ?_⟩
  rw [vmStep_kvminit h]
  exact hrest

end

end Xv6.Vm
