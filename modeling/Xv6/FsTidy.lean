import Xv6.FsEntry
/-!
# FsTidy — link counts, and directories that form a tree

In a tidy tree (`Tidy`) the directories that have a link are well formed and form a tree, and the link count of an inode is
the number of entries that name it: names, and the `..` of its subdirectories. Each change that a call makes keeps that,
as long as a count does not pass what a `short` holds. What has been given up had no links (`Tidy.shrink`); making an inode
and adding a link are a name more (`Forest.add`), taking a link away is a name less (`Forest.drop`).
-/
namespace Xv6.Fs

open Multiset Function Option
variable {t t' : Tree} {i j dp off : Nat} {n dn m : Node} {name bytes : Bytes}

/-! ## Tidy trees -/

/-- The directory that a node is, while it has a link. -/
def dirOf (n : Node) : Option (Forest.Dir Nat) :=
  if n.type = .dir ∧ n.nlink ≠ 0 then some ⟨upOf n.bytes, namesOf n.bytes⟩ else none

def dirs (t : Tree) (i : Nat) : Option (Forest.Dir Nat) := (t i).bind dirOf

def nlinkOf (o : Option Node) : Int := o.elim 0 Node.nlink

/-- **Directories form a tree, and links are counted.** -/
structure Tidy (t : Tree) : Prop where
  zero : t 0 = none
  bound : ∀ i n, t i = some n → i < 65536
  small : ∀ i n, t i = some n → n.nlink < 32768
  shape : ∀ i n, t i = some n → n.type = .dir → n.nlink ≠ 0 → Shape i n.bytes
  forest : Forest.Tree inums rootino (dirs t)
  count : ∀ j, 0 < j → ((Forest.links inums (dirs t)).count j : Int) = nlinkOf (t j)

theorem dirOf_plain (h : n.type ≠ .dir) : dirOf n = none := if_neg (fun hd => h hd.1)

theorem dirOf_zero (h : n.nlink = 0) : dirOf n = none := if_neg (fun hd => hd.2 h)

theorem dirOf_dir (h : n.type = .dir) (h0 : n.nlink ≠ 0) : dirOf n = some ⟨upOf n.bytes, namesOf n.bytes⟩ := if_pos ⟨h, h0⟩

theorem dirs_update (t : Tree) (i : Nat) (n : Node) : dirs (update t i (some n)) = update (dirs t) i (dirOf n) := by
  funext j
  unfold dirs
  by_cases e : j = i
  · subst e
    rw [update_self, update_self, bind_some]
  · rw [update_of_ne e, update_of_ne e]

theorem dirs_node (h : t i = some n) : dirs t i = dirOf n := by
  unfold dirs
  rw [h, bind_some]

section
variable (h : Tidy t)
include h

theorem Tidy.pos (hn : t i = some n) : 0 < i := by
  rcases Nat.eq_zero_or_pos i with rfl | hpos
  · rw [h.zero] at hn
    cases hn
  · exact hpos

theorem Tidy.nlink (hn : t i = some n) : ((Forest.links inums (dirs t)).count i : Int) = n.nlink := by
  rw [h.count i (h.pos hn), hn]
  rfl

theorem Tidy.dir (hn : t i = some n) (hd : n.type = .dir) (h0 : n.nlink ≠ 0) :
    Shape i n.bytes ∧ dirs t i = some ⟨upOf n.bytes, namesOf n.bytes⟩ :=
  ⟨h.shape i n hn hd h0, by rw [dirs_node hn, dirOf_dir hd h0]⟩

structure TidyNode (i : Nat) (n : Node) : Prop where
  pos : 0 < i
  bound : i < 65536
  small : n.nlink < 32768
  shape : n.type = .dir → n.nlink ≠ 0 → Shape i n.bytes

theorem Tidy.sound (hn : t i = some n) : TidyNode i n := ⟨h.pos hn, h.bound i n hn, h.small i n hn, h.shape i n hn⟩

theorem Tidy.change (hn : ∀ j n, t' j = some n → t j = some n ∨ TidyNode j n)
    (hforest : Forest.Tree inums rootino (dirs t'))
    (hcount : ∀ j, 0 < j → ((Forest.links inums (dirs t')).count j : Int) = nlinkOf (t' j)) : Tidy t' := by
  have hsound : ∀ j n, t' j = some n → TidyNode j n := fun j n hj => (hn j n hj).elim h.sound id
  refine ⟨?_, fun j n hj => (hsound j n hj).bound, fun j n hj => (hsound j n hj).small, fun j n hj => (hsound j n hj).shape,
    hforest, hcount⟩
  cases h0 : t' 0 with
  | none => rfl
  | some n => exact absurd (hsound 0 n h0).pos (lt_irrefl 0)

end

theorem update_cases {o : Option Node} (h : update t i o j = some m) : t j = some m ∨ j = i ∧ o = some m := by
  by_cases e : j = i
  · subst e
    rw [update_self] at h
    exact .inr ⟨rfl, h⟩
  · rw [update_of_ne e] at h
    exact .inl h

/-! ## Changes of one inode -/

theorem Tidy.shrink (h : Tidy t) (hs : Shrinks t t') : Tidy t' := by
  have hdirs : dirs t' = dirs t := by
    funext i
    unfold dirs
    rcases hs i with e | ⟨e, n, hn, h0⟩
    · rw [e]
    · rw [e, hn, bind_some, dirOf_zero h0, bind_none]
  apply h.change
  · intro i n hn
    rcases hs i with e | ⟨e, -⟩
    · exact .inl (e ▸ hn)
    · rw [e] at hn
      cases hn
  · rw [hdirs]
    exact h.forest
  intro j hj
  rw [hdirs, h.count j hj]
  rcases hs j with e | ⟨e, n, hn, h0⟩
  · rw [e]
  · rw [e, hn]
    exact h0

theorem Tidy.store (h : Tidy t) (hn : t i = some n) (hd : n.type ≠ .dir) (bytes : Bytes) :
    Tidy (update t i (some { n with bytes := bytes })) := by
  have hdirs : dirs (update t i (some { n with bytes := bytes })) = dirs t := by
    rw [dirs_update, dirOf_plain (n := { n with bytes := bytes }) hd, ← dirOf_plain hd, ← dirs_node hn, update_eq_self]
  have hs := h.sound hn
  apply h.change
  · intro j m hm
    rcases update_cases hm with hm | ⟨rfl, he⟩
    · exact .inl hm
    · cases he
      exact .inr ⟨hs.pos, hs.bound, hs.small, fun hd' => absurd hd' hd⟩
  · rw [hdirs]
    exact h.forest
  intro j hj
  rw [hdirs, h.count j hj]
  by_cases e : j = i
  · subst e
    rw [update_self, hn]
    rfl
  · rw [update_of_ne e]

/-! ## A link more -/

theorem relinkParent_type (type : IType) (n : Node) (d : Int) : (relinkParent type n d).type = n.type := by
  unfold relinkParent
  split
  · rfl
  · rfl

theorem relinkParent_bytes (type : IType) (n : Node) (d : Int) : (relinkParent type n d).bytes = n.bytes := by
  unfold relinkParent
  split
  · rfl
  · rfl

theorem relinkParent_nlink (type : IType) (n : Node) (d : Int) :
    (relinkParent type n d).nlink = if type = .dir then short (n.nlink + d) else n.nlink := by
  unfold relinkParent
  split
  · rfl
  · rfl

theorem count_parent (type : IType) (h : j ≠ dp) : (if type = .dir then ({dp} : Multiset Nat) else 0).count j = 0 := by
  split
  · rw [count_singleton, if_neg h]
  · exact count_zero _

theorem Tidy.create (h : Tidy t) (hi : 0 < i) (hi' : i < 65536) (hnone : t i = none) (hdn : t dp = some dn)
    (hd : dn.type = .dir)
    (h0 : dn.nlink ≠ 0) (hfind : dirFind dn.bytes name = .ok none) (hhole : dirHole dn.bytes = .ok off) (hone : n.nlink = 1)
    (hdir : n.type = .dir → n.bytes = dots i dp ∧ dn.nlink ≠ 32767) :
    Tidy (createTree t i n dp dn name off) ∧ (relinkParent n.type (addEntry dn off i name) 1).nlink ≠ 0 := by
  obtain ⟨hshape, hdirdp⟩ := h.dir hdn hd h0
  have hsdp := h.sound hdn
  have hpos := hsdp.pos
  have hsmall := hsdp.small
  obtain ⟨hshape', hup, hnames⟩ := hshape.add (by omega) hi hi' hfind hhole
  have hne : i ≠ dp := fun e => by
    rw [e, hdn] at hnone
    cases hnone
  have hcdp := h.nlink hdn
  have hci : (Forest.links inums (dirs t)).count i = 0 := by
    have := h.count i hi
    rw [hnone] at this
    exact Int.ofNat_eq_zero.1 this
  have hdi : dirs t i = none := by
    unfold dirs
    rw [hnone, bind_none]
  -- the counts of the parent and of the inode
  have hnl : (relinkParent n.type (addEntry dn off i name) 1).nlink = if n.type = .dir then dn.nlink + 1 else dn.nlink := by
    rw [relinkParent_nlink]
    unfold addEntry
    split
    · rename_i hty
      have := (hdir hty).2
      exact short_of_lt (by dsimp only; omega) (by dsimp only; omega)
    · rfl
  have hnl0 : (relinkParent n.type (addEntry dn off i name) 1).nlink ≠ 0 := by
    rw [hnl]
    split
    · omega
    · exact h0
  -- the new inode as a directory
  obtain ⟨o, ho, hodir, hplain⟩ : ∃ o, dirOf n = o ∧ (n.type = .dir → o = some ⟨dp, 0⟩) ∧ (n.type ≠ .dir → o = none) := by
    refine ⟨_, rfl, fun hty => ?_, dirOf_plain⟩
    obtain ⟨-, hupi, hnamesi⟩ := shape_dots hi' hpos hsdp.bound
    rw [dirOf_dir hty (by omega), (hdir hty).1, hupi, hnamesi]
  have hdirs : dirs (createTree t i n dp dn name off) =
      Forest.add (dirs t) dp ⟨upOf dn.bytes, namesOf dn.bytes⟩ i o := by
    unfold createTree Forest.add
    rw [dirs_update, dirs_update, ho, dirOf_dir (by rw [relinkParent_type]; exact hd) hnl0, relinkParent_bytes]
    unfold addEntry
    rw [hup, hnames]
  have hsome : ∀ e, o = some e → e = ⟨dp, 0⟩ ∧ i ∈ inums ∧ i ∉ Forest.names inums (dirs t) := fun e he => by
    by_cases hty : n.type = .dir
    · rw [hodir hty] at he
      refine ⟨(some.inj he).symm, mem_inums.2 hi', fun hm => ?_⟩
      exact absurd hci (Multiset.count_ne_zero.2 (Forest.links_of_names hm))
    · rw [hplain hty] at he
      cases he
  have hlinks : Forest.links inums (Forest.add (dirs t) dp ⟨upOf dn.bytes, namesOf dn.bytes⟩ i o) =
      i ::ₘ (Forest.links inums (dirs t) + if n.type = .dir then {dp} else 0) := by
    unfold Forest.links
    rw [Forest.total_add h.forest hdirdp hdi (fun _ => mem_inums.2 hi') (fun d => cons_swap ..)]
    split
    · rename_i hty
      rw [hodir hty]
      rfl
    · rename_i hty
      rw [hplain hty]
      rfl
  refine ⟨h.change ?_ ?_ ?_, hnl0⟩
  · intro j m hm
    rcases update_cases hm with hm | ⟨rfl, he⟩
    · rcases update_cases hm with hm | ⟨rfl, he⟩
      · exact .inl hm
      · cases he
        refine .inr ⟨hi, hi', by omega, fun hty _ => ?_⟩
        rw [(hdir hty).1]
        exact (shape_dots hi' hpos hsdp.bound).1
    · cases he
      refine .inr ⟨hpos, hsdp.bound, ?_, fun _ _ => ?_⟩
      · rw [hnl]
        split
        · rename_i hty
          have := (hdir hty).2
          omega
        · exact hsmall
      · rw [relinkParent_bytes]
        exact hshape'
  · rw [hdirs]
    exact h.forest.add hdirdp hdi hsome
  intro j hj
  rw [hdirs, hlinks]
  unfold createTree
  by_cases ej : j = dp
  · subst ej
    rw [update_self, count_cons_of_ne hne.symm, count_add]
    show _ = (relinkParent n.type (addEntry dn off i name) 1).nlink
    rw [hnl]
    split
    · rw [Multiset.count_singleton_self]
      omega
    · rw [count_zero]
      omega
  rw [update_of_ne ej]
  have hrest := count_parent n.type ej
  by_cases ei : j = i
  · subst ei
    rw [update_self, count_cons_self, count_add, hci, hrest]
    show _ = n.nlink
    omega
  · rw [update_of_ne ei, count_cons_of_ne ei, count_add, hrest, add_zero]
    exact h.count j hj

theorem Tidy.link (h : Tidy t) (hn : t i = some n) (hty : n.type ≠ .dir) (hmax : n.nlink ≠ 32767) (hdn : t dp = some dn)
    (hd : dn.type = .dir) (h0 : dn.nlink ≠ 0) (hfind : dirFind dn.bytes name = .ok none) (hhole : dirHole dn.bytes = .ok off) :
    Tidy (linkTree t i n dp dn name off) := by
  obtain ⟨hshape, hdirdp⟩ := h.dir hdn hd h0
  have hs := h.sound hn
  have hsmall := hs.small
  have hsdp := h.sound hdn
  have hpos := hsdp.pos
  obtain ⟨hshape', hup, hnames⟩ := hshape.add (by omega) hs.pos hs.bound hfind hhole
  have hne : i ≠ dp := fun e => by
    rw [e, hdn] at hn
    cases hn
    exact hty hd
  have hci := h.nlink hn
  have hdi : dirs t i = none := by rw [dirs_node hn, dirOf_plain hty]
  have hnl : (relink n 1).nlink = n.nlink + 1 := short_of_lt (by omega) (by omega)
  have hdirs : dirs (linkTree t i n dp dn name off) =
      Forest.add (dirs t) dp ⟨upOf dn.bytes, namesOf dn.bytes⟩ i none := by
    unfold linkTree Forest.add
    rw [dirs_update, dirs_update, dirOf_plain (n := relink n 1) hty, dirOf_dir (n := addEntry dn off i name) hd h0]
    unfold addEntry
    rw [hup, hnames]
  have hlinks : Forest.links inums (Forest.add (dirs t) dp ⟨upOf dn.bytes, namesOf dn.bytes⟩ i none) =
      i ::ₘ Forest.links inums (dirs t) := by
    unfold Forest.links
    rw [Forest.total_add h.forest hdirdp hdi (fun _ => mem_inums.2 hs.bound) (fun d => cons_swap _ _ _),
      elim_none, add_zero]
  apply h.change
  · intro j m hm
    rcases update_cases hm with hm | ⟨rfl, he⟩
    · rcases update_cases hm with hm | ⟨rfl, he⟩
      · exact .inl hm
      · cases he
        exact .inr ⟨hs.pos, hs.bound, by omega, fun hd' => absurd hd' hty⟩
    · cases he
      exact .inr ⟨hpos, hsdp.bound, hsdp.small, fun _ _ => hshape'⟩
  · rw [hdirs]
    exact h.forest.add hdirdp hdi (fun e he => by cases he)
  intro j hj
  rw [hdirs, hlinks]
  unfold linkTree
  by_cases ej : j = dp
  · subst ej
    rw [update_self, count_cons_of_ne hne.symm]
    show _ = dn.nlink
    exact h.nlink hdn
  rw [update_of_ne ej]
  by_cases ei : j = i
  · subst ei
    rw [update_self, count_cons_self]
    show _ = (relink n 1).nlink
    omega
  · rw [update_of_ne ei, count_cons_of_ne ei]
    exact h.count j hj

/-! ## A link less -/

theorem namesOf_empty (h : dirEmpty bytes = .ok true) : namesOf bytes = 0 := by
  rw [Multiset.eq_zero_iff_forall_notMem]
  intro j hj
  obtain ⟨h0, k, de, hk, hde, rfl⟩ := mem_namesOf.1 hj
  exact h0 (dirEmpty_true h hde hk)

theorem Tidy.unlink (h : Tidy t) (hdn : t dp = some dn) (hd : dn.type = .dir) (h0 : dn.nlink ≠ 0)
    (hfind : dirFind dn.bytes name = .ok (some (i, off))) (hn : t i = some n) (hne : i ≠ dp) (hrem : Removable n name) :
    Tidy (unlinkTree t dp dn i n off) ∧ (relinkParent n.type (clearEntry dn off) (-1)).nlink ≠ 0 := by
  obtain ⟨hshape, hdirdp⟩ := h.dir hdn hd h0
  have hs := h.sound hn
  have hsmall := hs.small
  have hone := hrem.nlink
  have hsdp := h.sound hdn
  have hsmalldp := hsdp.small
  obtain ⟨hshape', hup, hnames⟩ := hshape.clear hrem.dot hrem.dotdot hfind
  obtain ⟨rest, hrest⟩ : ∃ rest, rest = namesOf (patch dn.bytes off (List.replicate 16 0)) := ⟨_, rfl⟩
  rw [← hrest] at hnames
  have hci := h.nlink hn
  have hcdp := h.nlink hdn
  have hnl : (relink n (-1)).nlink = n.nlink - 1 := short_of_lt (by omega) (by omega)
  -- the inode as a directory: it names nothing, and `dp` is its parent
  have hnot : ∀ e, dirs t i = some e → e.names = 0 := fun e he => by
    rw [dirs_node hn] at he
    unfold dirOf at he
    split at he
    · rename_i hc
      cases he
      exact namesOf_empty (hrem.empty hc.1)
    · cases he
  have hgdir : n.type = .dir → dirs t i = some ⟨dp, 0⟩ := fun hty => by
    have hi := (h.dir hn hty (by omega)).2
    have hempty := hnot _ hi
    have hupi := h.forest.up_drop hdirdp hnames hne hi hempty
    dsimp only at hempty hupi
    rw [hi, hempty, hupi]
  have hlinks : Forest.links inums (dirs t) = i ::ₘ
      (Forest.links inums (Forest.drop (dirs t) dp ⟨upOf dn.bytes, namesOf dn.bytes⟩ rest i) +
        if n.type = .dir then {dp} else 0) := by
    unfold Forest.links
    rw [Forest.total_drop h.forest hdirdp hne (by dsimp only; rw [hnames]; exact cons_swap ..)]
    congr 2
    split
    · rename_i hty
      rw [hgdir hty]
      rfl
    · rename_i hty
      rw [dirs_node hn, dirOf_plain hty]
      rfl
  obtain ⟨g', hg'⟩ : ∃ g', g' = Forest.drop (dirs t) dp ⟨upOf dn.bytes, namesOf dn.bytes⟩ rest i := ⟨_, rfl⟩
  have hforest : Forest.Tree inums rootino g' := hg' ▸ h.forest.drop hdirdp hnames hne hnot
  rw [← hg'] at hlinks
  have hlast : n.type = .dir → (relink n (-1)).nlink = 0 := fun hty => by
    have hgone : (Forest.links inums g').count i = 0 := by
      rw [hg']
      exact Multiset.count_eq_zero_of_notMem (h.forest.gone hdirdp hnames hne (hgdir hty) rfl)
    rw [hlinks, if_pos hty, count_cons_self, count_add, hgone, count_singleton, if_neg hne] at hci
    omega
  -- the count of the parent
  have hgdp : g' dp = some ⟨upOf dn.bytes, rest⟩ := by
    rw [hg']
    unfold Forest.drop
    rw [update_of_ne hne.symm, update_self]
  have hpos : 0 < (Forest.links inums g').count dp := Multiset.count_pos.2 (hforest.linked hgdp)
  rw [hlinks, count_cons_of_ne hne.symm, count_add] at hcdp
  have hnldp : (relinkParent n.type (clearEntry dn off) (-1)).nlink = (Forest.links inums g').count dp := by
    rw [relinkParent_nlink]
    unfold clearEntry
    split
    · rename_i hty
      rw [if_pos hty, Multiset.count_singleton_self] at hcdp
      rw [short_of_lt (by dsimp only; omega) (by dsimp only; omega)]
      dsimp only
      omega
    · rename_i hty
      rw [if_neg hty, count_zero] at hcdp
      dsimp only
      omega
  have hdirs : dirs (unlinkTree t dp dn i n off) = g' := by
    rw [hg']
    unfold unlinkTree Forest.drop
    have hi0 : dirOf (relink n (-1)) = none := by
      by_cases hty : n.type = .dir
      · exact dirOf_zero (hlast hty)
      · exact dirOf_plain hty
    rw [dirs_update, dirs_update, hi0, dirOf_dir (by rw [relinkParent_type]; exact hd) (by rw [hnldp]; omega),
      relinkParent_bytes]
    unfold clearEntry
    rw [hup, ← hrest]
  refine ⟨h.change ?_ ?_ ?_, by rw [hnldp]; omega⟩
  · intro j m hm
    unfold unlinkTree at hm
    rcases update_cases hm with hm | ⟨rfl, he⟩
    · rcases update_cases hm with hm | ⟨rfl, he⟩
      · exact .inl hm
      cases he
      refine .inr ⟨hsdp.pos, hsdp.bound, ?_, fun _ _ => ?_⟩
      · omega
      · rw [relinkParent_bytes]
        exact hshape'
    · cases he
      exact .inr ⟨hs.pos, hs.bound, by omega, fun hty hnz => absurd (hlast hty) hnz⟩
  · rw [hdirs]
    exact hforest
  intro j hj
  rw [hdirs]
  unfold unlinkTree
  by_cases ei : j = i
  · subst ei
    rw [update_self]
    show _ = (relink n (-1)).nlink
    rw [hlinks, count_cons_self, count_add, count_parent n.type hne] at hci
    omega
  rw [update_of_ne ei]
  by_cases ej : j = dp
  · subst ej
    rw [update_self]
    exact hnldp.symm
  · rw [update_of_ne ej, ← h.count j hj, hlinks, count_cons_of_ne ei, count_add, count_parent n.type ej, add_zero]

end Xv6.Fs
