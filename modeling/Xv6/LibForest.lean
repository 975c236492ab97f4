import Xv6.LibSum
/-!
# LibForest — directories that form a tree

A table of directories, each with a parent and the indices it names. It forms a tree (`Forest.Tree`): a directory other than
the root is named once, by its parent, and every directory is below the root. Adding a name (`Tree.add`), of a new empty
directory or of what is none, and dropping a name (`Tree.drop`), of an empty directory with it or of what is none, keep that.
The links (`links`) are all names together with all parents.
-/
namespace Forest

open Multiset Function Option
variable {ι : Type}

structure Dir (ι : Type) where
  up : ι
  names : Multiset ι

variable {l : List ι} {g : ι → Option (Dir ι)} {f : Dir ι → Multiset ι} {root i j p : ι} {d e : Dir ι}

/-! ## Sums over the directories -/

def total (f : Dir ι → Multiset ι) (l : List ι) (g : ι → Option (Dir ι)) : Multiset ι := (l.map (fun i => (g i).elim 0 f)).sum

def names (l : List ι) (g : ι → Option (Dir ι)) : Multiset ι := total Dir.names l g

def links (l : List ι) (g : ι → Option (Dir ι)) : Multiset ι := total (fun d => d.up ::ₘ d.names) l g

theorem mem_total : j ∈ total f l g ↔ ∃ i ∈ l, ∃ d, g i = some d ∧ j ∈ f d := by
  unfold total
  rw [Sum.mem_sum_map]
  constructor
  · rintro ⟨i, hi, hj⟩
    cases hg : g i with
    | none =>
      rw [hg] at hj
      exact absurd hj (notMem_zero j)
    | some d =>
      rw [hg] at hj
      exact ⟨i, hi, d, hg, hj⟩
  · rintro ⟨i, hi, d, hg, hj⟩
    refine ⟨i, hi, ?_⟩
    rw [hg]
    exact hj

theorem links_of_names (hj : j ∈ names l g) : j ∈ links l g := by
  obtain ⟨i, hi, d, hg, hj⟩ := mem_total.1 hj
  exact mem_total.2 ⟨i, hi, d, hg, mem_cons_of_mem hj⟩

variable [DecidableEq ι]

theorem total_update (hn : l.Nodup) (hi : i ∈ l) (o : Option (Dir ι)) :
    total f l (update g i o) + (g i).elim 0 f = total f l g + o.elim 0 f := by
  have h := Sum.sum_map_change (f := fun i => (g i).elim 0 f) (g := fun j => (update g i o j).elim 0 f) hn hi
    (fun j _ hj => by rw [update_of_ne hj])
  rwa [update_self] at h

/-! ## Trees -/

/-- What is named by the root, or by what is below it. -/
inductive Below (g : ι → Option (Dir ι)) (root : ι) : ι → Prop
  | root : Below g root root
  | name {i j : ι} {d : Dir ι} (hi : Below g root i) (hg : g i = some d) (hj : j ∈ d.names) : Below g root j

/-- **The directories form a tree.** -/
structure Tree (l : List ι) (root : ι) (g : ι → Option (Dir ι)) : Prop where
  nodup : l.Nodup
  dom : ∀ i d, g i = some d → i ∈ l
  top : ∃ d, g root = some d ∧ d.up = root
  unnamed : root ∉ names l g
  once : ∀ i d, g i = some d → i ≠ root → (names l g).count i = 1
  parent : ∀ i d, g i = some d → i ≠ root → ∃ p, g d.up = some p ∧ i ∈ p.names
  below : ∀ i d, g i = some d → Below g root i

section
variable (h : Tree l root g)
include h

theorem Tree.up (hi : g i = some d) : ∃ p, g d.up = some p := by
  by_cases e : i = root
  · obtain ⟨r, hr, hup⟩ := h.top
    rw [e, hr] at hi
    cases hi
    rw [hup]
    exact ⟨_, hr⟩
  · obtain ⟨p, hp, -⟩ := h.parent i d hi e
    exact ⟨p, hp⟩

theorem Tree.reach (hj : j ∈ links l g) : Below g root j := by
  obtain ⟨i, -, d, hi, hj⟩ := mem_total.1 hj
  rcases Multiset.mem_cons.1 hj with rfl | hj
  · obtain ⟨p, hp⟩ := h.up hi
    exact h.below _ p hp
  · exact (h.below i d hi).name hi hj

theorem mem_names (hi : g i = some d) (hj : j ∈ d.names) : j ∈ names l g := mem_total.2 ⟨i, h.dom i d hi, d, hi, hj⟩

theorem Tree.linked (hi : g i = some d) : i ∈ links l g := by
  by_cases e : i = root
  · obtain ⟨r, hr, hup⟩ := h.top
    refine mem_total.2 ⟨root, h.dom _ _ hr, r, hr, ?_⟩
    rw [hup, e]
    exact mem_cons_self _ _
  · obtain ⟨p, hp, hm⟩ := h.parent i d hi e
    exact mem_total.2 ⟨_, h.dom _ _ hp, p, hp, mem_cons_of_mem hm⟩

end

def alone (root : ι) : ι → Option (Dir ι) := update (fun _ => none) root (some ⟨root, 0⟩)

theorem total_alone (hn : l.Nodup) (hr : root ∈ l) : total f l (alone root) = f ⟨root, 0⟩ := by
  have h := total_update (f := f) (g := fun _ => none) hn hr (some ⟨root, 0⟩)
  have h0 : total f l (fun _ => none) = 0 := Sum.sum_map_zero (fun _ _ => rfl)
  rwa [h0, elim_none, add_zero, zero_add, elim_some] at h

theorem tree_alone (hn : l.Nodup) (hr : root ∈ l) : Tree l root (alone root) := by
  have hnames : names l (alone root) = 0 := total_alone hn hr
  have hself : alone root root = some ⟨root, 0⟩ := update_self _ _ _
  have honly : ∀ i d, alone root i = some d → i = root := fun i d hi => by
    by_contra hne
    unfold alone at hi
    rw [update_of_ne hne] at hi
    cases hi
  refine ⟨hn, fun i d hi => (honly i d hi) ▸ hr, ⟨_, hself, rfl⟩, ?_, fun i d hi hne => absurd (honly i d hi) hne,
    fun i d hi hne => absurd (honly i d hi) hne, fun i d hi => (honly i d hi) ▸ .root⟩
  rw [hnames]
  exact notMem_zero root

/-! ## A name more -/

/-- `p` names `j` once more, which is the directory `o` from now on. -/
def add (g : ι → Option (Dir ι)) (p : ι) (d : Dir ι) (j : ι) (o : Option (Dir ι)) : ι → Option (Dir ι) :=
  update (update g j o) p (some { d with names := j ::ₘ d.names })

variable {o : Option (Dir ι)}

theorem total_add (h : Tree l root g) (hp : g p = some d) (hj : g j = none) (ho : o ≠ none → j ∈ l)
    (hf : ∀ d : Dir ι, f { d with names := j ::ₘ d.names } = j ::ₘ f d) :
    total f l (add g p d j o) = j ::ₘ (total f l g + o.elim 0 f) := by
  have hne : p ≠ j := fun e => by
    rw [e, hj] at hp
    cases hp
  have h1 : total f l (update g j o) = total f l g + o.elim 0 f := by
    cases o with
    | none =>
      rw [← hj, update_eq_self, hj]
      exact (add_zero _).symm
    | some e =>
      have := total_update (f := f) h.nodup (ho (some_ne_none e)) (some e) (g := g)
      rwa [hj, elim_none, add_zero] at this
  have h2 := total_update (f := f) h.nodup (h.dom p d hp) (some { d with names := j ::ₘ d.names })
    (g := update g j o)
  rw [update_of_ne hne, hp, elim_some, elim_some, hf, h1, add_cons, ← cons_add] at h2
  exact add_right_cancel h2

section
variable (hp : g p = some d)
include hp

theorem add_self (hj : g j = none) (o : Option (Dir ι)) : add g p d j o j = o := by
  have hne : j ≠ p := fun e => by
    rw [← e, hj] at hp
    cases hp
  unfold add
  rw [update_of_ne hne, update_self]

theorem add_other (hj : g j = none) (hi : g i = some e) :
    ∃ e', add g p d j o i = some e' ∧ e'.up = e.up ∧ ∀ k ∈ e.names, k ∈ e'.names := by
  unfold add
  by_cases hip : i = p
  · subst hip
    rw [hp] at hi
    cases hi
    exact ⟨_, update_self _ _ _, rfl, fun k hk => mem_cons_of_mem hk⟩
  · have hij : i ≠ j := fun e => by
      rw [e, hj] at hi
      cases hi
    rw [update_of_ne hip, update_of_ne hij]
    exact ⟨e, hi, rfl, fun k hk => hk⟩

theorem of_add (hi : add g p d j o i = some e) (hij : i ≠ j) : ∃ e', g i = some e' ∧ e'.up = e.up := by
  unfold add at hi
  by_cases hip : i = p
  · subst hip
    rw [update_self] at hi
    cases hi
    exact ⟨d, hp, rfl⟩
  · rw [update_of_ne hip, update_of_ne hij] at hi
    exact ⟨e, hi, rfl⟩

theorem below_add (hj : g j = none) (h : Below g root i) : Below (add g p d j o) root i := by
  induction h with
  | root => exact .root
  | name _ hg hk ih =>
    obtain ⟨e', he', -, hsub⟩ := add_other hp hj (o := o) hg
    exact ih.name he' (hsub _ hk)

end

theorem Tree.add (h : Tree l root g) (hp : g p = some d) (hj : g j = none)
    (ho : ∀ e, o = some e → e = ⟨p, 0⟩ ∧ j ∈ l ∧ j ∉ Forest.names l g) : Tree l root (Forest.add g p d j o) := by
  have hnames : Forest.names l (Forest.add g p d j o) = j ::ₘ Forest.names l g := by
    unfold Forest.names
    rw [total_add h hp hj (fun hne => (ho _ (some_get (ne_none_iff_isSome.1 hne)).symm).2.1) (fun _ => rfl)]
    cases o with
    | none => rw [elim_none, add_zero]
    | some e =>
      obtain ⟨rfl, -⟩ := ho e rfl
      rw [elim_some, add_zero]
  obtain ⟨p', hp', hup', hsub⟩ : ∃ p', Forest.add g p d j o p = some p' ∧ p'.up = d.up ∧ j ∈ p'.names :=
    ⟨_, update_self _ _ _, rfl, mem_cons_self _ _⟩
  obtain ⟨r, hr, hrup⟩ := h.top
  have hjr : root ≠ j := fun e => by
    rw [e, hj] at hr
    cases hr
  -- the new directory, if there is one
  have hnew : ∀ e, Forest.add g p d j o j = some e → e = ⟨p, 0⟩ ∧ j ∈ l ∧ j ∉ Forest.names l g := fun e he => by
    rw [add_self hp hj] at he
    exact ho e he
  constructor
  · exact h.nodup
  · intro i e hi
    by_cases hij : i = j
    · subst hij
      exact (hnew e hi).2.1
    · obtain ⟨e', he', -⟩ := of_add hp hi hij
      exact h.dom i e' he'
  · obtain ⟨r', hr', hup, -⟩ := add_other hp hj (o := o) hr
    exact ⟨r', hr', hup.trans hrup⟩
  · rw [hnames, Multiset.mem_cons]
    exact fun hm => hm.elim hjr h.unnamed
  · intro i e hi hir
    rw [hnames]
    by_cases hij : i = j
    · subst hij
      rw [count_cons_self, Multiset.count_eq_zero_of_notMem (hnew e hi).2.2]
    · obtain ⟨e', he', -⟩ := of_add hp hi hij
      rw [count_cons_of_ne hij]
      exact h.once i e' he' hir
  · intro i e hi hir
    by_cases hij : i = j
    · subst hij
      obtain ⟨rfl, -⟩ := hnew e hi
      exact ⟨p', hp', hsub⟩
    · obtain ⟨e', he', hup⟩ := of_add hp hi hij
      obtain ⟨q, hq, hm⟩ := h.parent i e' he' hir
      obtain ⟨q', hq', -, hsub'⟩ := add_other hp hj (o := o) hq
      exact ⟨q', hup ▸ hq', hsub' _ hm⟩
  · intro i e hi
    by_cases hij : i = j
    · subst hij
      exact (below_add hp hj (h.below p d hp)).name hp' hsub
    · obtain ⟨e', he', -⟩ := of_add hp hi hij
      exact below_add hp hj (h.below i e' he')

/-! ## A name less -/

/-- `p` names `j` once less, and is left with `rest`; `j` is no directory any more. -/
def drop (g : ι → Option (Dir ι)) (p : ι) (d : Dir ι) (rest : Multiset ι) (j : ι) : ι → Option (Dir ι) :=
  update (update g p (some { d with names := rest })) j none

section Drop
variable {rest : Multiset ι}

theorem total_drop (h : Tree l root g) (hp : g p = some d) (hne : j ≠ p)
    (hf : f d = j ::ₘ f { d with names := rest }) : total f l g = j ::ₘ (total f l (drop g p d rest j) + (g j).elim 0 f) := by
  have h1 := total_update (f := f) h.nodup (h.dom p d hp) (some { d with names := rest }) (g := g)
  rw [hp, elim_some, elim_some, hf, add_cons, ← cons_add] at h1
  have h2 : total f l (drop g p d rest j) + (g j).elim 0 f = total f l (update g p (some { d with names := rest })) := by
    unfold drop
    cases hj : g j with
    | none =>
      have : update g p (some { d with names := rest }) j = none := by rw [update_of_ne hne, hj]
      rw [← this, update_eq_self, this, elim_none, add_zero]
    | some e =>
      have := total_update (f := f) h.nodup (h.dom j e hj) none (g := update g p (some { d with names := rest }))
      rwa [update_of_ne hne, hj, elim_none, add_zero] at this
  rw [h2]
  exact (add_right_cancel h1).symm

theorem drop_self : drop g p d rest j j = none := update_self _ _ _

theorem drop_other (hp : g p = some d) (hd : d.names = j ::ₘ rest) (hij : i ≠ j) (hi : g i = some e) :
    ∃ e', drop g p d rest j i = some e' ∧ e'.up = e.up ∧ ∀ k ∈ e.names, k ≠ j → k ∈ e'.names := by
  unfold drop
  rw [update_of_ne hij]
  by_cases hip : i = p
  · subst hip
    rw [hp] at hi
    cases hi
    refine ⟨_, update_self _ _ _, rfl, fun k hk hkj => ?_⟩
    rw [hd] at hk
    exact (Multiset.mem_cons.1 hk).resolve_left hkj
  · rw [update_of_ne hip]
    exact ⟨e, hi, rfl, fun k hk _ => hk⟩

theorem of_drop (hp : g p = some d) (hi : drop g p d rest j i = some e) : i ≠ j ∧ ∃ e', g i = some e' ∧ e'.up = e.up := by
  have hij : i ≠ j := fun e' => by
    rw [e', drop_self] at hi
    cases hi
  refine ⟨hij, ?_⟩
  unfold drop at hi
  rw [update_of_ne hij] at hi
  by_cases hip : i = p
  · subst hip
    rw [update_self] at hi
    cases hi
    exact ⟨d, hp, rfl⟩
  · rw [update_of_ne hip] at hi
    exact ⟨e, hi, rfl⟩

theorem below_drop (hp : g p = some d) (hd : d.names = j ::ₘ rest) (hj : ∀ e, g j = some e → e.names = 0)
    (h : Below g root i) (hij : i ≠ j) : Below (drop g p d rest j) root i := by
  induction h with
  | root => exact .root
  | @name a b e _ hg hk ih =>
    have haj : a ≠ j := fun he => by
      rw [hj e (he ▸ hg)] at hk
      exact notMem_zero _ hk
    obtain ⟨e', he', -, hsub⟩ := drop_other hp hd haj hg
    exact (ih haj).name he' (hsub _ hk hij)

theorem names_drop (h : Tree l root g) (hp : g p = some d) (hd : d.names = j ::ₘ rest) (hne : j ≠ p)
    (hj : ∀ e, g j = some e → e.names = 0) : names l g = j ::ₘ names l (drop g p d rest j) := by
  unfold names
  rw [total_drop h hp hne hd]
  cases hg : g j with
  | none => rw [elim_none, add_zero]
  | some e => rw [elim_some, hj e hg, add_zero]

theorem Tree.count_drop (h : Tree l root g) (hp : g p = some d) (hd : d.names = j ::ₘ rest) (hne : j ≠ p) (hg : g j = some e)
    (he : ∀ e, g j = some e → e.names = 0) : j ≠ root ∧ j ∉ names l (drop g p d rest j) := by
  have hjr : j ≠ root := fun er => h.unnamed (er ▸ mem_names h hp (hd ▸ mem_cons_self _ _))
  refine ⟨hjr, fun hmem => ?_⟩
  have hone := h.once j e hg hjr
  rw [names_drop h hp hd hne he, count_cons_self] at hone
  have := Multiset.count_pos.2 hmem
  omega

omit [DecidableEq ι] in
theorem names_zero (hg : g j = some e) (he : e.names = 0) : ∀ e', g j = some e' → e'.names = 0 := by
  intro e' he'
  rw [hg] at he'
  cases he'
  exact he

theorem Tree.up_drop (h : Tree l root g) (hp : g p = some d) (hd : d.names = j ::ₘ rest) (hne : j ≠ p) (hg : g j = some e)
    (he : e.names = 0) : e.up = p := by
  obtain ⟨hjr, hnot⟩ := h.count_drop hp hd hne hg (names_zero hg he)
  obtain ⟨q, hq, hm⟩ := h.parent j e hg hjr
  by_contra hup
  have hupj : e.up ≠ j := fun er => by
    rw [er, hg] at hq
    cases hq
    rw [he] at hm
    exact notMem_zero _ hm
  refine hnot (mem_total.2 ⟨e.up, h.dom _ _ hq, q, ?_, hm⟩)
  unfold drop
  rw [update_of_ne hupj, update_of_ne hup, hq]

theorem Tree.drop (h : Tree l root g) (hp : g p = some d) (hd : d.names = j ::ₘ rest) (hne : j ≠ p)
    (hj : ∀ e, g j = some e → e.names = 0) : Tree l root (Forest.drop g p d rest j) := by
  have hnames := names_drop h hp hd hne hj
  obtain ⟨r, hr, hrup⟩ := h.top
  have hrj : root ≠ j := fun er => h.unnamed (er ▸ mem_names h hp (hd ▸ mem_cons_self _ _))
  constructor
  · exact h.nodup
  · intro i e hi
    obtain ⟨-, e', he', -⟩ := of_drop hp hi
    exact h.dom i e' he'
  · obtain ⟨r', hr', hup, -⟩ := drop_other hp hd hrj hr
    exact ⟨r', hr', hup.trans hrup⟩
  · intro hm
    apply h.unnamed
    rw [hnames]
    exact mem_cons_of_mem hm
  · intro i e hi hir
    obtain ⟨hij, e', he', -⟩ := of_drop hp hi
    have := h.once i e' he' hir
    rwa [hnames, count_cons_of_ne hij] at this
  · intro i e hi hir
    obtain ⟨hij, e', he', hup⟩ := of_drop hp hi
    obtain ⟨q, hq, hm⟩ := h.parent i e' he' hir
    have hupj : e'.up ≠ j := fun er => by
      rw [hj q (er ▸ hq)] at hm
      exact notMem_zero _ hm
    obtain ⟨q', hq', -, hsub⟩ := drop_other hp hd hupj hq
    exact ⟨q', hup ▸ hq', hsub _ hm hij⟩
  · intro i e hi
    obtain ⟨hij, e', he', -⟩ := of_drop hp hi
    exact below_drop hp hd hj (h.below i e' he') hij

theorem Tree.gone (h : Tree l root g) (hp : g p = some d) (hd : d.names = j ::ₘ rest) (hne : j ≠ p) (hg : g j = some e)
    (he : e.names = 0) : j ∉ links l (Forest.drop g p d rest j) := by
  have hjs := names_zero hg he
  have ht := h.drop hp hd hne hjs
  intro hm
  obtain ⟨i, hi, a, ha, hm⟩ := mem_total.1 hm
  rcases Multiset.mem_cons.1 hm with hup | hm
  · -- it is nobody's parent, for a parent is a directory
    obtain ⟨q, hq⟩ := ht.up ha
    rw [← hup, drop_self] at hq
    cases hq
  · exact (h.count_drop hp hd hne hg hjs).2 (mem_names ht ha hm)

end Drop

end Forest
