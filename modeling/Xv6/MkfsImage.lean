import Xv6.MkfsAppend
/-!
# MkfsImage — what the image holds

The inodes from 1 to `freeinode` hold what `mkfs` has been told to store (`Inv`). `layout` is what that is after some of
the files: the root directory with an entry for each of them, and their contents.
-/
namespace Xv6.Mkfs

open Function List Fs Wp
variable {g g' : Img} {C D : Nat → IType × Bytes} {d d' : Dinode} {i n b k : Nat} {F : Die → Prop}
  {files : List Input} {own E : Multiset Nat} {f : Input} {α β : Type}

/-! ## Inodes on disk -/

/-- The inodes there are blocks for. -/
def inodeRoom : Nat := ninodeblocks * ipb

@[irreducible] def inodeAt (g : Img) (i : Nat) : Dinode := dinodeAt (g.disk (iblock sb i)) (i % ipb)

theorem iblock_lt (h : i < inodeRoom) : sb.inodestart ≤ iblock sb i ∧ iblock sb i < sb.bmapstart := by
  have h1 : inodeRoom = 208 := rfl
  have h2 : sb.inodestart = 33 := rfl
  have h3 : sb.bmapstart = 46 := rfl
  unfold iblock
  omega

/-- **An inode has been written**, and nothing else. -/
structure Stored (g : Img) (i : Nat) (d : Dinode) (g' : Img) : Prop where
  self : inodeAt g' i = d
  others : ∀ j < inodeRoom, j ≠ i → inodeAt g' j = inodeAt g j
  disk : ∀ b, b < sb.inodestart ∨ sb.bmapstart ≤ b → g'.disk b = g.disk b
  nsect : g'.nsect = g.nsect
  freeinode : g'.freeinode = g.freeinode
  freeblock : g'.freeblock = g.freeblock

theorem winode_spec (hn : g.nsect = fssize) (hi : i < inodeRoom) (hd : Storable d) :
    wp (winode i d) (fun _ g' => Stored g i d g') F g := by
  obtain ⟨hlo, hhi⟩ := iblock_lt hi
  have hmap : sb.bmapstart < fssize := by decide
  unfold winode rsect
  simp only [wp_bind, wp_get]
  rw [if_neg (by omega)]
  refine ⟨?_, fun j hj hne => ?_, fun b hb => ?_, ?_, rfl, rfl⟩
  · unfold inodeAt
    dsimp only
    rw [update_self, dinodeAt_store hd]
  · unfold inodeAt
    dsimp only
    by_cases e : iblock sb j = iblock sb i
    · have hmod : j % ipb ≠ i % ipb := by
        unfold iblock at e
        change j % 16 ≠ i % 16
        omega
      rw [e, update_self, dinodeAt_store_ne hmod]
    · rw [update_of_ne e]
  · exact update_of_ne (by omega) _ _
  · dsimp only
    omega

theorem rinode_spec {Q : Dinode → Img → Prop} (hn : g.nsect = fssize) (hi : i < inodeRoom) (h : Q (inodeAt g i) g) :
    wp (rinode i) Q F g := by
  obtain ⟨hlo, hhi⟩ := iblock_lt hi
  have hmap : sb.bmapstart < fssize := by decide
  unfold rinode rsect
  simp only [wp_bind, wp_get]
  rw [if_neg (by omega)]
  unfold inodeAt at h
  exact h

theorem storable_inodeAt (g : Img) (i : Nat) : Storable (inodeAt g i) := by
  unfold inodeAt
  exact storable_dinodeAt _ _

theorem Storable.resize (h : Storable d) (hn : n < 2 ^ 32) : Storable { d with size := n } :=
  ⟨h.major, h.minor, h.nlink, hn, h.addr, h.rest⟩

/-! ## The invariant -/

def inums (g : Img) : List Nat := List.range' 1 (g.freeinode - 1)

theorem mem_inums : i ∈ inums g ↔ 1 ≤ i ∧ i < g.freeinode := by
  unfold inums
  rw [mem_range'_1]
  omega

theorem nodup_inums (g : Img) : (inums g).Nodup := List.nodup_range'

def ownedAll (g : Img) : Multiset Nat := ((inums g).map (fun i => blocksOf g.disk (inodeAt g i))).sum

structure IsNode (disk : Nat → Nat → UInt8) (d : Dinode) (c : IType × Bytes) : Prop where
  type : d.type = c.1
  nlink : d.nlink = 1
  size : d.size = c.2.length
  holds : Holds disk d c.2
  bare : Bare d c.2.length

/-- **The image holds `C`.** -/
structure Inv (g : Img) (C : Nat → IType × Bytes) : Prop where
  tidy : Tidy g
  super : g.disk 1 = superblock
  room : g.freeinode ≤ inodeRoom
  marks : Marks (view g) (ownedAll g)
  node : ∀ i ∈ inums g, IsNode g.disk (inodeAt g i) (C i)
  unused : ∀ i, g.freeinode ≤ i → i < inodeRoom → (inodeAt g i).type = .none

theorem Inv.congr (h : Inv g C) (he : ∀ i ∈ inums g, C i = D i) : Inv g D :=
  ⟨h.tidy, h.super, h.room, h.marks, fun i hi => he i hi ▸ h.node i hi, h.unused⟩

theorem Stored.data (h : Stored g i d g') (hm : Marks (view g) own) (hb : b ∈ own) : g'.disk b = g.disk b := by
  have hlo := (Marks.below hm hb).1
  have hmap : sb.bmapstart < nmeta := by decide
  exact h.disk b (.inr (by omega))

theorem Stored.tidy (h : Stored g i d g') (ht : Tidy g) (hm : nmeta ≤ g.freeblock) : Tidy g' := by
  have hmap : sb.bmapstart < nmeta := by decide
  refine ⟨h.nsect.trans ht.nsect, by rw [h.freeblock]; exact ht.free, fun b hb => ?_⟩
  rw [h.freeblock] at hb
  rw [h.disk b (.inr (by omega))]
  exact ht.blank b hb

theorem Marks.freeblock (h : Marks (view g) own) : nmeta ≤ g.freeblock := by
  have hlast : nmeta - 1 < wide.size := by decide
  have hpos : nmeta - 1 < wide.nmeta := by decide
  have := of_decide_eq_true ((h.bit (nmeta - 1) hlast).2 (.inl hpos))
  omega

theorem Stored.marks (h : Stored g i d g') (hm : Marks (view g) own) : Marks (view g') own := by
  refine hm.congr rfl ?_
  funext b
  unfold view
  rw [h.freeblock]

theorem ialloc_spec {type : IType} (h : Inv g C) (hroom : g.freeinode < inodeRoom) (h1 : 1 ≤ g.freeinode) :
    wp (ialloc type) (fun i g' => i = g.freeinode ∧ g'.freeinode = g.freeinode + 1 ∧
      Inv g' (update C i (type, []))) F g := by
  unfold ialloc
  simp only [wp_bind, wp_get, wp_modify]
  obtain ⟨g1, hg1⟩ : ∃ g1 : Img, g1 = { g with freeinode := g.freeinode + 1 } := ⟨_, rfl⟩
  obtain ⟨i, hi⟩ : ∃ i, i = g.freeinode := ⟨_, rfl⟩
  rw [← hg1, ← hi]
  have hat : ∀ j, inodeAt g1 j = inodeAt g j := fun j => by
    unfold inodeAt
    rw [hg1]
  have hm1 : Marks (view g1) (ownedAll g) := h.marks.congr (by rw [hg1]; rfl) (by rw [hg1]; rfl)
  have hst : Storable { freshDinode type with nlink := 1 } :=
    ⟨show short 0 = 0 by decide, show short 0 = 0 by decide, show short 1 = 1 by decide, Nat.two_pow_pos 32,
      fun _ => Nat.two_pow_pos 32, fun _ _ => rfl⟩
  refine wp_use (winode_spec (by rw [hg1]; exact h.tidy.nsect) (by rw [hi]; exact hroom) hst) (fun _ g2 hs => ?_)
  have hold : ∀ j ∈ inums g, inodeAt g2 j = inodeAt g j ∧
      blocksOf g2.disk (inodeAt g j) = blocksOf g.disk (inodeAt g j) ∧
      ∀ b ∈ blocksOf g.disk (inodeAt g j), g2.disk b = g.disk b := by
    intro j hj
    have hlt := mem_inums.1 hj
    have hdata : ∀ b ∈ blocksOf g.disk (inodeAt g j), g2.disk b = g.disk b := fun b hb => by
      rw [hs.data hm1 (Sum.mem_sum_map.2 ⟨j, hj, hb⟩), hg1]
    exact ⟨(hs.others j (by omega) (by omega)).trans (hat j), blocksOf_congr (fun hne => hdata _ (indirect_mem hne)), hdata⟩
  have hf2 : g2.freeinode = g.freeinode + 1 := by rw [hs.freeinode, hg1]
  have hinums : inums g2 = inums g ++ [i] := by
    unfold inums
    rw [hf2, hi]
    obtain ⟨n, hn⟩ : ∃ n, g.freeinode = n + 1 := ⟨g.freeinode - 1, by omega⟩
    rw [hn, Nat.add_sub_cancel, Nat.add_sub_cancel, range'_concat, one_mul, add_comm]
  have hself : (inodeAt g2 i).addrs = fun _ => 0 := by rw [hs.self]; rfl
  refine ⟨rfl, by omega, ?_, ?_, by omega, ?_, fun j hj => ?_, fun j hlo hhi => ?_⟩
  · exact hs.tidy (by rw [hg1]; exact ⟨h.tidy.nsect, h.tidy.free, h.tidy.blank⟩) (Marks.freeblock hm1)
  · rw [hs.disk 1 (.inl (by decide)), hg1]
    exact h.super
  · have hall : ownedAll g2 = ownedAll g := by
      unfold ownedAll
      rw [hinums, map_append, sum_append, map_singleton, sum_singleton, blocksOf_none hself, add_zero]
      exact Sum.sum_map_congr (fun j hj => by rw [(hold j hj).1, (hold j hj).2.1])
    rw [hall]
    exact hs.marks hm1
  · rw [hinums, mem_append, mem_singleton] at hj
    rcases hj with hj | rfl
    · have hne : j ≠ i := by
        have := mem_inums.1 hj
        omega
      obtain ⟨he, -, hdata⟩ := hold j hj
      have hnode := h.node j hj
      rw [update_of_ne hne, he]
      exact ⟨hnode.type, hnode.nlink, hnode.size, hnode.holds.frame hdata, hnode.bare⟩
    · rw [update_self, hs.self]
      exact ⟨rfl, rfl, rfl, Holds.nil rfl, fun _ _ _ => rfl⟩
  · rw [hs.others j hhi (by omega), hat]
    exact h.unused j (by omega) hhi

theorem Appended.storable (h : Appended E g d g' d') (hd : Storable d)
    (hn : n < 2 ^ 32) : Storable { d' with size := n } := by
  have hsame := h.same
  refine ⟨?_, ?_, ?_, hn, fun i => ?_, fun i hi => (h.out i hi).trans (hd.rest i hi)⟩
  · rw [hsame]
    exact hd.major
  · rw [hsame]
    exact hd.minor
  · rw [hsame]
    exact hd.nlink
  by_cases hi : i ≤ ndirect
  · by_cases h0 : d'.addrs i = 0
    · rw [h0]
      exact Nat.two_pow_pos 32
    · refine h.marks.lt (Multiset.mem_add.2 (.inr ?_))
      rcases lt_or_eq_of_le hi with hlt | rfl
      · exact Multiset.mem_add.2 (.inl (mem_directBlocks hlt h0))
      · exact indirect_mem h0
  · rw [h.out i (by omega)]
    exact hd.addr i

theorem iappend_spec {p : Bytes} (hF : ∀ e, F e) (h : Inv g C) (hi : i ∈ inums g) :
    wp (iappend i p) (fun _ g' => g'.freeinode = g.freeinode ∧ Inv g' (update C i ((C i).1, (C i).2 ++ p))) F g := by
  have hlt := mem_inums.1 hi
  have hroom := h.room
  have hir : i < inodeRoom := by omega
  have hnode := h.node i hi
  obtain ⟨E, hE⟩ := Sum.exists_rest (fun j => blocksOf g.disk (inodeAt g j)) (nodup_inums g) hi
  have hm : Marks (view g) (E + blocksOf g.disk (inodeAt g i)) := by
    rw [← hE _ (fun _ _ _ => rfl)]
    exact h.marks
  have hrest : ∀ j ∈ inums g, j ≠ i → ∀ b ∈ blocksOf g.disk (inodeAt g j), b ∈ E := by
    intro j hj hne b hb
    have hmem : b ∈ E + blocksOf g.disk (inodeAt g i) := by
      rw [← hE _ (fun _ _ _ => rfl)]
      exact Sum.mem_sum_map.2 ⟨j, hj, hb⟩
    refine (Multiset.mem_add.1 hmem).resolve_right (fun hbi => hne ?_)
    exact Sum.eq_of_nodup_sum h.marks.nodup hj hi hb hbi
  unfold iappend
  rw [wp_bind]
  refine rinode_spec h.tidy.nsect hir ?_
  rw [wp_bind, hnode.size]
  refine wp_use (wp_and (appendLoop_spec hF _ g (inodeAt g i) (C i).2 p le_rfl hm h.tidy hnode.holds)
    (appendLoop_bare _ _ _ p g hnode.bare)) (fun r g1 ⟨⟨ha, hr, hc⟩, hbare⟩ => ?_)
  obtain ⟨d', off⟩ := r
  dsimp only at ha hr hc hbare ⊢
  subst hr
  have hmax : maxfile * bsize < 2 ^ 32 := by decide
  have hmeta : sb.bmapstart < nmeta := by decide
  have hat : ∀ j < inodeRoom, inodeAt g1 j = inodeAt g j := by
    intro j hj
    have := (iblock_lt hj).2
    unfold inodeAt
    rw [ha.kept _ (.inr (by omega))]
  refine wp_use (winode_spec ha.tidy.nsect hir (ha.storable (storable_inodeAt g i) (lt_of_le_of_lt hc.le hmax)))
    (fun _ g2 hs => ?_)
  have hf2 : g2.freeinode = g.freeinode := hs.freeinode.trans ha.freeinode
  have hinums : inums g2 = inums g := by
    unfold inums
    rw [hf2]
  have hblk : blocksOf g2.disk (inodeAt g2 i) = blocksOf g1.disk d' := by
    have hind : d'.addrs ndirect ≠ 0 → g2.disk (d'.addrs ndirect) = g1.disk (d'.addrs ndirect) := fun hne =>
      hs.data ha.marks (Multiset.mem_add.2 (.inr (indirect_mem hne)))
    rw [hs.self, ← blocksOf_congr hind]
    exact blocksOf_addrs rfl
  have hold : ∀ j ∈ inums g, j ≠ i → inodeAt g2 j = inodeAt g j ∧
      ∀ b ∈ blocksOf g.disk (inodeAt g j), g2.disk b = g.disk b := by
    intro j hj hne
    have hjr : j < inodeRoom := by
      have := mem_inums.1 hj
      omega
    refine ⟨(hs.others j hjr hne).trans (hat j hjr), fun b hb => ?_⟩
    have hbE := hrest j hj hne b hb
    rw [hs.data ha.marks (Multiset.mem_add.2 (.inl hbE)), ha.kept b (.inl hbE)]
  refine ⟨hf2, hs.tidy ha.tidy (Marks.freeblock ha.marks), ?_, by omega, ?_, fun j hj => ?_, fun j hlo hhi => ?_⟩
  · rw [hs.disk 1 (.inl (by decide)), ha.kept 1 (.inr (by decide))]
    exact h.super
  · unfold ownedAll
    rw [hinums, hE (fun j => blocksOf g2.disk (inodeAt g2 j)), hblk]
    · exact hs.marks ha.marks
    · intro j hj hne
      obtain ⟨he, hdata⟩ := hold j hj hne
      rw [he]
      exact blocksOf_congr (fun hi => hdata _ (indirect_mem hi))
  · rw [hinums] at hj
    by_cases e : j = i
    · subst e
      rw [update_self, hs.self]
      have htype : d'.type = (inodeAt g j).type := by rw [ha.same]
      have hnlink : d'.nlink = (inodeAt g j).nlink := by rw [ha.same]
      refine ⟨htype.trans hnode.type, hnlink.trans hnode.nlink, rfl, ?_, hbare⟩
      exact (hc.frame (fun b hb => hs.data ha.marks (Multiset.mem_add.2 (.inr hb)))).addrs rfl
    · obtain ⟨he, hdata⟩ := hold j hj e
      have hn := h.node j hj
      rw [update_of_ne e, he]
      exact ⟨hn.type, hn.nlink, hn.size, hn.holds.frame hdata, hn.bare⟩
  · have hne : j ≠ i := by omega
    rw [hs.others j hhi hne, hat j hhi]
    exact h.unused j (by omega) hhi

/-! ## The files -/

def entriesOf (files : List Input) : List Dirent :=
  ⟨rootino, dot⟩ :: ⟨rootino, dotdot⟩ :: files.mapIdx (fun k f => ⟨k + 2, f.name⟩)

def dirBytes (es : List Dirent) : Bytes := es.flatMap direntBytes

/-- **What the inodes hold** after some files. -/
def layout (files : List Input) (i : Nat) : IType × Bytes :=
  if i = rootino then (.dir, dirBytes (entriesOf files))
  else
    match files[i - 2]? with
    | some f => (.file, f.contents)
    | none => (.none, [])

def Named (f : Input) : Prop := slash ∉ withoutDir f.arg ∧ f.name.length ≤ dirsiz

theorem dirBytes_concat (es : List Dirent) (e : Dirent) : dirBytes (es ++ [e]) = dirBytes es ++ direntBytes e := by
  unfold dirBytes
  rw [flatMap_append, flatMap_singleton]

theorem entriesOf_concat (files : List Input) (f : Input) :
    entriesOf (files ++ [f]) = entriesOf files ++ [⟨files.length + 2, f.name⟩] := by
  unfold entriesOf
  rw [mapIdx_concat]
  rfl

theorem layout_root (files : List Input) : layout files rootino = (.dir, dirBytes (entriesOf files)) := if_pos rfl

theorem layout_file (h : files[k]? = some f) : layout files (k + 2) = (.file, f.contents) := by
  have hne : k + 2 ≠ rootino := by
    unfold rootino
    omega
  unfold layout
  rw [if_neg hne, Nat.add_sub_cancel, h]

theorem layout_concat (hi : i ≠ rootino) (hlt : i < files.length + 2) (h1 : 1 ≤ i) :
    layout (files ++ [f]) i = layout files i := by
  have h2 : i - 2 < files.length := by
    unfold rootino at hi
    omega
  unfold layout
  rw [if_neg hi, if_neg hi, getElem?_append_left h2]

theorem chunks_spec (hF : ∀ e, F e) : ∀ (chunks : List Bytes) (g : Img) (C : Nat → IType × Bytes), Inv g C → i ∈ inums g →
    wp (chunks.forM (iappend i)) (fun _ g' => g'.freeinode = g.freeinode ∧
      Inv g' (update C i ((C i).1, (C i).2 ++ chunks.flatten))) F g
  | [], g, C, h, _ => by
    refine ⟨rfl, h.congr (fun j _ => ?_)⟩
    rw [flatten_nil, append_nil, Prod.mk.eta, update_eq_self]
  | c :: cs, g, C, h, hi => by
    refine wp_bind.2 ?_
    refine wp_use (iappend_spec hF h hi) (fun _ g1 ⟨hf, h1⟩ => ?_)
    have hi1 : i ∈ inums g1 := by rwa [mem_inums, hf, ← mem_inums]
    refine wp_use (chunks_spec hF cs g1 _ h1 hi1) (fun _ g2 ⟨hf2, h2⟩ => ⟨hf2.trans hf, ?_⟩)
    rw [update_self, update_idem, append_assoc] at h2
    exact h2

theorem addFile_spec (hF : ∀ e, F e) (h : Inv g (layout files))
    (hn : g.freeinode = files.length + 2) (hroom : files.length + 2 < inodeRoom) :
    wp (addFile f) (fun _ g' => g'.freeinode = files.length + 3 ∧ Inv g' (layout (files ++ [f])) ∧ Named f) F g := by
  refine wp_ite (fun _ => hF _) (fun hslash => ?_)
  refine wp_ite (fun _ => hF _) (fun hlen => ?_)
  refine wp_then (ialloc_spec h (by omega) (by omega)) (fun i g1 ⟨hi, hf1, h1⟩ => ?_)
  rw [hn] at hi
  have hroot : rootino ≠ i := by
    unfold rootino
    omega
  have hmem : rootino ∈ inums g1 := mem_inums.2 ⟨by decide, by rw [hf1]; unfold rootino; omega⟩
  refine wp_then (iappend_spec hF h1 hmem) (fun _ g2 ⟨hf2, h2⟩ => ?_)
  refine wp_use (chunks_spec hF f.chunks g2 _ h2 (mem_inums.2 ⟨by omega, by omega⟩))
    (fun _ g3 ⟨hf3, h3⟩ => ⟨by omega, h3.congr (fun j hj => ?_), hslash, by omega⟩)
  have hj' := mem_inums.1 hj
  by_cases ej : j = i
  · rw [ej, update_self, update_of_ne hroot.symm, update_self, hi]
    exact (layout_file (by rw [getElem?_append_right le_rfl, Nat.sub_self]; rfl)).symm
  rw [update_of_ne ej]
  by_cases er : j = rootino
  · rw [er, update_self, update_of_ne hroot, layout_root, layout_root, entriesOf_concat, dirBytes_concat, hi]
  · rw [update_of_ne er, update_of_ne ej, layout_concat er (by omega) hj'.1]

/-! ## The inodes that are used -/

abbrev SameInode (g g' : Img) : Prop := g'.freeinode = g.freeinode

theorem rsect_same (sec : Nat) : Does SameInode (fun _ => True) (rsect sec) := by
  intro g
  unfold rsect
  exact wp_ite (fun _ => trivial) (fun _ => rfl)

theorem wsect_same (sec : Nat) (buf : Nat → UInt8) : Does SameInode (fun _ => True) (wsect sec buf) := fun _ => rfl

theorem SameInode.bind {m : MM α} {f : α → MM β} (hm : Does SameInode (fun _ => True) m)
    (hf : ∀ a, Does SameInode (fun _ => True) (f a)) : Does SameInode (fun _ => True) (m >>= f) :=
  hm.bind (fun _ _ _ h h' => h'.trans h) hf

theorem SameInode.pure (a : α) : Does SameInode (fun _ => True) (pure a : MM α) := fun _ => rfl

theorem SameInode.throw (e : Die) : Does SameInode (fun _ => True) (throw e : MM α) := fun _ => trivial

theorem newBlock_same : Does SameInode (fun _ => True) newBlock := fun _ => rfl

theorem winode_same (i : Nat) (d : Dinode) : Does SameInode (fun _ => True) (winode i d) :=
  SameInode.bind (rsect_same _) (fun _ => wsect_same _ _)

theorem rinode_same (i : Nat) : Does SameInode (fun _ => True) (rinode i) :=
  SameInode.bind (rsect_same _) (fun _ => SameInode.pure _)

theorem addrFor_same (d : Dinode) (i : Nat) : Does SameInode (fun _ => True) (addrFor d i) :=
  Does.ite (fun _ => SameInode.pure _) (fun _ => SameInode.bind newBlock_same (fun _ => SameInode.pure _))

theorem wordFor_same (ind j : Nat) : Does SameInode (fun _ => True) (wordFor ind j) :=
  SameInode.bind (rsect_same _) (fun _ => Does.ite (fun _ => SameInode.pure _) (fun _ =>
    SameInode.bind newBlock_same (fun _ => SameInode.bind (wsect_same _ _) (fun _ => SameInode.pure _))))

theorem blockFor_same (d : Dinode) (fbn : Nat) : Does SameInode (fun _ => True) (blockFor d fbn) :=
  Does.ite (fun _ => SameInode.bind (addrFor_same _ _) (fun _ => SameInode.pure _))
    (fun _ => SameInode.bind (addrFor_same _ _) (fun _ => SameInode.bind (wordFor_same _ _) (fun _ => SameInode.pure _)))

theorem appendLoop_same : ∀ (fuel : Nat) (d : Dinode) (off : Nat) (p : Bytes),
    Does SameInode (fun _ => True) (appendLoop fuel d off p)
  | 0, _, _, _ => SameInode.pure _
  | fuel + 1, d, off, p => by
    refine Does.ite (fun _ => SameInode.pure _) (fun _ => ?_)
    refine Does.ite (fun _ => SameInode.throw _) (fun _ => SameInode.bind (blockFor_same _ _) (fun r => ?_))
    exact SameInode.bind (rsect_same _) (fun _ => SameInode.bind (wsect_same _ _) (fun _ => appendLoop_same fuel _ _ _))

theorem iappend_same (i : Nat) (p : Bytes) : Does SameInode (fun _ => True) (iappend i p) :=
  SameInode.bind (rinode_same _) (fun _ => SameInode.bind (appendLoop_same _ _ _ _) (fun _ => winode_same _ _))

theorem ialloc_count (type : IType) (g : Img) :
    wp (ialloc type) (fun i g' => i = g.freeinode ∧ g'.freeinode = g.freeinode + 1) (fun _ => True) g := by
  unfold ialloc
  simp only [wp_bind, wp_get, wp_modify]
  exact wp_use (winode_same ..) (fun _ g' h => ⟨rfl, h⟩)

theorem addFile_count (f : Input) (g : Img) :
    wp (addFile f) (fun _ g' => g'.freeinode = g.freeinode + 1) (fun _ => True) g := by
  refine wp_ite (fun _ => trivial) (fun _ => wp_ite (fun _ => trivial) (fun _ => ?_))
  refine wp_then (ialloc_count _ _) (fun i g1 ⟨_, h1⟩ => ?_)
  have hrest : Does SameInode (fun _ => True)
      (iappend rootino (direntBytes ⟨i, f.name⟩) >>= fun _ => f.chunks.forM (iappend i)) :=
    SameInode.bind (iappend_same _ _)
      (fun _ => Does.forM (R := SameInode) (fun _ => rfl) (fun _ _ _ h h' => h'.trans h) (iappend_same i) _)
  exact wp_use (hrest g1) (fun _ g' h => h.trans h1)

theorem mkfs_count (files : List Input) :
    wp (mkfs files) (fun _ g' => g'.freeinode = files.length + 2) (fun _ => True) zeroed := by
  unfold mkfs
  refine wp_then (wsect_same _ _ _) (fun _ g1 h1 => ?_)
  refine wp_then (ialloc_count _ _) (fun i g2 ⟨hi, h2⟩ => wp_ite (fun _ => trivial) (fun _ => ?_))
  refine wp_then (iappend_same _ _ _) (fun _ g3 h3 => ?_)
  refine wp_then (iappend_same _ _ _) (fun _ g4 h4 => ?_)
  have hstart : g4.freeinode + files.length = files.length + 2 := by
    rw [h4, h3, h2, h1]
    exact add_comm _ _
  refine wp_then (wp_forM (I := fun rest g => g.freeinode + rest.length = files.length + 2) (fun f rest g h => ?_)
    files g4 hstart) (fun _ g5 h5 => ?_)
  · refine wp_use (addFile_count f g) (fun _ g' h' => ?_)
    rw [length_cons] at h
    omega
  · refine wp_then (rinode_same _ _) (fun d g6 h6 => ?_)
    refine wp_then (winode_same ..) (fun _ g7 h7 => ?_)
    unfold balloc
    refine wp_ite (fun _ => trivial) (fun _ => ?_)
    exact (h7.trans h6).trans h5

/-! ## The finished image -/

/-- **What `mkfs` has made.** The size of the root directory has been rounded up. -/
structure Image (files : List Input) (g : Img) : Prop where
  super : g.disk 1 = superblock
  bits : g.disk sb.bmapstart = bitmap g.freeblock
  free : nmeta ≤ g.freeblock ∧ g.freeblock ≤ fssize
  root : (inodeAt g rootino).type = .dir ∧ (inodeAt g rootino).nlink = 1
  rootSize : (inodeAt g rootino).size = ((dirBytes (entriesOf files)).length / bsize + 1) * bsize
  rootHolds : Holds g.disk (inodeAt g rootino) (dirBytes (entriesOf files))
  rootBare : Bare (inodeAt g rootino) (dirBytes (entriesOf files)).length
  file : ∀ k f, files[k]? = some f → IsNode g.disk (inodeAt g (k + 2)) (.file, f.contents)
  unused : ∀ i, files.length + 2 ≤ i → i < inodeRoom → (inodeAt g i).type = .none
  named : ∀ f ∈ files, Named f

def started : Img := ⟨update (fun _ _ => 0) 1 superblock, fssize, 1, nmeta⟩

theorem inv_start : Inv started (fun _ => (.none, [])) := by
  have hone : 1 < nmeta := by decide
  have hsuper : started.disk 1 = superblock := by
    simp [started, update_self]
  have hblank : ∀ b, nmeta ≤ b → started.disk b = fun _ => 0 := by
    intro b hb
    have hne : b ≠ 1 := by omega
    simp [started, update_of_ne hne]
  refine ⟨⟨rfl, by decide, hblank⟩, hsuper, by decide, ⟨Multiset.nodup_zero, ?_, fun b _ => ?_⟩,
    fun i hi => ?_, fun i _ hhi => ?_⟩
  · intro b hb
    exact absurd hb (Multiset.notMem_zero b)
  · have h0 : ∀ b, b ∉ ownedAll started := Multiset.notMem_zero
    simp only [h0, or_false]
    exact decide_eq_true_iff
  · have hlt : 1 ≤ i ∧ i < 1 := mem_inums.1 hi
    omega
  have hne : iblock sb i ≠ 1 := by
    have h33 : 33 ≤ iblock sb i := (iblock_lt hhi).1
    omega
  unfold inodeAt started
  rfl

theorem inv_root (h : Inv g (update (fun _ => (.none, [])) rootino (.dir, []))) (hf : g.freeinode = 2)
    (hF : ∀ e, F e) :
    wp (iappend rootino (direntBytes ⟨rootino, dot⟩) >>= fun _ => iappend rootino (direntBytes ⟨rootino, dotdot⟩))
      (fun _ g' => g'.freeinode = 2 ∧ Inv g' (layout [])) F g := by
  have hmem : ∀ g : Img, g.freeinode = 2 → rootino ∈ inums g := fun g hf => mem_inums.2 ⟨by decide, by rw [hf]; decide⟩
  refine wp_then (iappend_spec hF h (hmem g hf)) (fun _ g1 ⟨hf1, h1⟩ => ?_)
  refine wp_use (iappend_spec hF h1 (hmem g1 (hf1.trans hf))) (fun _ g2 ⟨hf2, h2⟩ => ⟨hf2.trans (hf1.trans hf), ?_⟩)
  refine h2.congr (fun j hj => ?_)
  have hj' := mem_inums.1 hj
  obtain rfl : j = rootino := by
    unfold rootino
    omega
  rfl

/-- **What the end of `mkfs` changes**: the size of the root directory, and the bitmap. -/
structure Finished (g g' : Img) : Prop where
  root : inodeAt g' rootino = { inodeAt g rootino with size := ((inodeAt g rootino).size / bsize + 1) * bsize }
  others : ∀ i < inodeRoom, i ≠ rootino → inodeAt g' i = inodeAt g i
  super : g'.disk 1 = g.disk 1
  bits : g'.disk sb.bmapstart = bitmap g.freeblock
  data : ∀ i ∈ inums g, ∀ b ∈ blocksOf g.disk (inodeAt g i), g'.disk b = g.disk b
  freeblock : g'.freeblock = g.freeblock
  freeinode : g'.freeinode = g.freeinode

theorem finish_spec (h : Inv g C) (hroot : rootino ∈ inums g) (hused : g.freeblock < bpb ∨ ∀ e, F e) :
    wp (rinode rootino >>= fun d => winode rootino { d with size := (d.size / bsize + 1) * bsize } >>= fun _ =>
      get >>= fun g => balloc g.freeblock) (fun _ g' => Finished g g') F g := by
  have hr : rootino < inodeRoom := by decide
  have hnode := h.node rootino hroot
  have hst := storable_inodeAt g rootino
  have hmax : maxfile * bsize = 274432 := rfl
  have hb : bsize = 1024 := rfl
  have hle := hnode.holds.le
  have hsize : ((inodeAt g rootino).size / bsize + 1) * bsize < 2 ^ 32 := by
    rw [hnode.size]
    have := Nat.div_mul_le_self (C rootino).2.length bsize
    rw [Nat.add_mul]
    omega
  rw [wp_bind]
  refine rinode_spec h.tidy.nsect hr ?_
  refine wp_then (winode_spec h.tidy.nsect hr (hst.resize hsize)) (fun _ g1 hs => ?_)
  unfold balloc
  refine wp_ite (fun hfull => hused.elim (fun hlt => ?_) (fun hF => hF _)) (fun _ => ?_)
  · rw [hs.freeblock] at hfull
    omega
  have hmap : sb.bmapstart = 46 := rfl
  have hat : ∀ i < inodeRoom, inodeAt { g1 with disk := update g1.disk sb.bmapstart (bitmap g1.freeblock),
                                                nsect := max g1.nsect (sb.bmapstart + 1) } i = inodeAt g1 i := by
    intro i hi
    have := (iblock_lt hi).2
    unfold inodeAt
    dsimp only
    rw [update_of_ne (by omega)]
  refine ⟨(hat _ hr).trans hs.self, fun i hi hne => (hat i hi).trans (hs.others i hi hne), ?_, ?_, fun i hi b hbi => ?_,
    hs.freeblock, hs.freeinode⟩
  · dsimp only
    rw [update_of_ne (by decide), hs.disk 1 (.inl (by decide))]
  · simp only [update_self]
    rw [hs.freeblock]
  have hown : b ∈ ownedAll g := Sum.mem_sum_map.2 ⟨i, hi, hbi⟩
  have hlo := (Marks.below h.marks hown).1
  have h47 : nmeta = 47 := rfl
  dsimp only
  rw [update_of_ne (by omega), hs.data h.marks hown]

theorem image_finish (h : Inv g (layout files)) (hn : g.freeinode = files.length + 2)
    (hnamed : ∀ f ∈ files, Named f) (hf : Finished g g') : Image files g' := by
  have hroot : rootino ∈ inums g := mem_inums.2 ⟨by decide, by rw [hn]; unfold rootino; omega⟩
  have hnode := h.node rootino hroot
  rw [layout_root] at hnode
  refine ⟨hf.super.trans h.super, by rw [hf.bits, hf.freeblock], ?_, ?_, ?_, ?_, ?_, fun k f hk => ?_,
    fun i hlo hhi => ?_, hnamed⟩
  · rw [hf.freeblock]
    exact ⟨Marks.freeblock h.marks, h.tidy.free⟩
  · rw [hf.root]
    exact ⟨hnode.type, hnode.nlink⟩
  · rw [hf.root, hnode.size]
  · rw [hf.root]
    exact (hnode.holds.frame (hf.data _ hroot)).addrs rfl
  · rw [hf.root]
    exact hnode.bare
  · have hlt : k < files.length := by
      by_contra hge
      rw [getElem?_eq_none (by omega)] at hk
      cases hk
    have hmem : k + 2 ∈ inums g := mem_inums.2 ⟨by omega, by omega⟩
    have hroom := h.room
    have hne : k + 2 ≠ rootino := by
      unfold rootino
      omega
    have hk' := h.node _ hmem
    rw [layout_file hk] at hk'
    rw [hf.others _ (by omega) hne]
    exact ⟨hk'.type, hk'.nlink, hk'.size, hk'.holds.frame (hf.data _ hmem), hk'.bare⟩
  · have hne : i ≠ rootino := by
      unfold rootino
      omega
    rw [hf.others i hhi hne]
    exact h.unused i (by omega) hhi

theorem mkfs_use {Q : Unit → Img → Prop} (hF : ∀ e, F e) (hlen : files.length + 2 ≤ inodeRoom)
    (hfinish : ∀ g g', Inv g (layout files) → g.freeinode = files.length + 2 → (∀ f ∈ files, Named f) →
      Finished g g' → Q () g') :
    wp (mkfs files) Q F zeroed := by
  have hsect : max zeroed.nsect (1 + 1) = fssize := by decide
  unfold mkfs wsect
  rw [wp_bind, wp_modify, hsect]
  refine wp_then (ialloc_spec inv_start (by decide) (by decide)) (fun i g1 ⟨hi, hf1, h1⟩ => ?_)
  obtain rfl : i = rootino := hi
  refine wp_ite (fun _ => hF _) (fun _ => ?_)
  rw [← bind_assoc]
  refine wp_then (inv_root h1 hf1 hF) (fun _ g2 ⟨hf2, h2⟩ => ?_)
  refine wp_then (wp_forM (I := fun rest g => ∃ done, files = done ++ rest ∧ g.freeinode = done.length + 2 ∧
    Inv g (layout done) ∧ ∀ f ∈ done, Named f) (fun f rest g ⟨done, hd, hf, h, hn⟩ => ?_) files g2
    ⟨[], rfl, hf2, h2, fun f hf => absurd hf not_mem_nil⟩) (fun _ g3 ⟨done, hd, hf3, h3, hn⟩ => ?_)
  · have hlt : done.length + 2 < inodeRoom := by
      rw [hd, length_append, length_cons] at hlen
      omega
    refine wp_use (addFile_spec hF h hf hlt) (fun _ g' ⟨hf', h', hnf⟩ => ⟨done ++ [f], ?_, ?_, h', fun e he => ?_⟩)
    · rw [hd, append_assoc]
      rfl
    · rw [length_append]
      exact hf'
    · rcases mem_append.1 he with he | he
      · exact hn e he
      · rw [mem_singleton.1 he]
        exact hnf
  · rw [append_nil] at hd
    subst hd
    have hroot : rootino ∈ inums g3 := mem_inums.2 ⟨by decide, by rw [hf3]; unfold rootino; omega⟩
    exact wp_use (finish_spec h3 hroot (.inr hF)) (fun _ g4 => hfinish g3 g4 h3 hf3 hn)

theorem mkfs_spec (hF : ∀ e, F e) (hlen : files.length + 2 ≤ ninodes) :
    wp (mkfs files) (fun _ g' => Image files g') F zeroed := by
  have hroom : ninodes < inodeRoom := by decide
  exact mkfs_use hF (by omega) (fun g g' h hn hnamed => image_finish h hn hnamed)

end Xv6.Mkfs
