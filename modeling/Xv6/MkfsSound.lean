import Xv6.MkfsBoot
/-!
# MkfsSound — which images `mkfs` emits

Every image that `mkfs` finishes has its blocks in range, owned once and marked, and no block of a file is missing; the inode
numbers are in range exactly if there are not too many files, and no block of the root directory is missing unless its
entries fill their blocks (`mkfs_unbroken`). `mkfs` checks neither: with 62 files the root directory has a block without an
address
(`filled_root_broken`).
-/
namespace Xv6.Mkfs

open Fs Wp
variable {files : List Input} {g g' : Img} {C : Nat → IType × Bytes}

/-- **An image that is not broken.** -/
structure Unbroken (g : Img) : Prop where
  inode : ∀ i ∈ inums g, i < sb.ninodes
  block : ∀ b ∈ ownedAll g, nmeta ≤ b ∧ b < sb.size
  once : (ownedAll g).Nodup
  bit : ∀ b < bpb, bitAt (g.disk sb.bmapstart) b = true ↔ b < g.freeblock
  full : ∀ i ∈ inums g, Full g.disk (inodeAt g i)

theorem Finished.inums (hf : Finished g g') : inums g' = inums g := by
  unfold Mkfs.inums
  rw [hf.freeinode]

theorem Finished.owned (h : Inv g C) (hf : Finished g g') : ownedAll g' = ownedAll g := by
  have hroom := h.room
  unfold ownedAll
  rw [hf.inums]
  apply Sum.sum_map_congr
  intro i hi
  have hlt := mem_inums.1 hi
  have hdata : blocksOf g'.disk (inodeAt g i) = blocksOf g.disk (inodeAt g i) :=
    blocksOf_congr (fun hne => hf.data i hi _ (indirect_mem hne))
  rw [← hdata]
  by_cases e : i = rootino
  · rw [e, hf.root]
    exact blocksOf_addrs rfl
  · rw [hf.others i (by omega) e]

theorem IsNode.full {disk : Nat → Nat → UInt8} {d : Dinode} {c : IType × Bytes} (h : IsNode disk d c) : Full disk d := by
  intro bn hbn
  rw [h.size] at hbn
  exact ⟨h.holds.lt_maxfile hbn, h.holds.slot bn hbn⟩

theorem length_root : (dirBytes (entriesOf files)).length = 16 * (files.length + 2) := by
  rw [length_dirBytes, length_entriesOf]

theorem full_root (h : Image files g) (hfill : (files.length + 2) % 64 ≠ 0) : Full g.disk (inodeAt g rootino) := by
  intro bn hbn
  have hin : bn * bsize < (dirBytes (entriesOf files)).length := by
    rw [h.rootSize] at hbn
    have hlt := Nat.lt_of_mul_lt_mul_right hbn
    rw [length_root] at hlt ⊢
    unfold bsize at hlt ⊢
    omega
  exact ⟨h.rootHolds.lt_maxfile hin, h.rootHolds.slot bn hin⟩

-- entries that fill their blocks leave the last block of the rounded size without an address
theorem not_full_root (h : Image files g) (hn : files.length + 2 ≤ ninodes) (hfill : (files.length + 2) % 64 = 0) :
    ¬ Full g.disk (inodeAt g rootino) := by
  intro hfull
  obtain ⟨q, hq⟩ := Nat.dvd_of_mod_eq_zero hfill
  have hlen : (dirBytes (entriesOf files)).length = q * bsize := by
    rw [length_root, hq]
    unfold bsize
    omega
  have hq12 : q < ndirect := by
    unfold ninodes at hn
    unfold ndirect
    omega
  have hlt : q * bsize < (inodeAt g rootino).size := by
    rw [h.rootSize, hlen, Nat.mul_div_cancel _ (by decide)]
    unfold bsize
    omega
  refine (hfull q hlt).2 ?_
  unfold slotAddr
  rw [if_pos hq12]
  exact h.rootBare q hq12 (by rw [hlen])

/-- **`mkfs` emits no broken image** exactly of files whose inodes fit, with entries that do not fill their blocks. -/
theorem mkfs_unbroken {files : List Input} {g : Img} (hrun : (mkfs files).run zeroed = .ok ((), g)) :
    Unbroken g ↔ files.length + 2 ≤ ninodes ∧ (files.length + 2) % 64 ≠ 0 := by
  have hroom : ninodes < inodeRoom := by decide
  have hfi := freeinode_of_run hrun
  have hnin : sb.ninodes = ninodes := rfl
  by_cases hn : files.length + 2 ≤ ninodes
  swap
  · refine ⟨fun h => absurd (h.inode (files.length + 1) (mem_inums.2 ⟨by omega, by omega⟩)) ?_, fun h => absurd h.1 hn⟩
    omega
  have hspec : wp (mkfs files) (fun _ g' => Image files g' ∧ (ownedAll g').Nodup ∧
      ∀ b ∈ ownedAll g', nmeta ≤ b ∧ b < g'.freeblock) (fun _ => True) zeroed := by
    apply mkfs_use (fun _ => trivial) (by omega)
    intro g g' h hfi hnamed hf
    rw [hf.owned h, hf.freeblock]
    exact ⟨image_finish h hfi hnamed hf, h.marks.nodup, fun b hb => Marks.below h.marks hb⟩
  obtain ⟨h, honce, hown⟩ := wp_of_ok hspec hrun
  have hsize : sb.size = fssize := rfl
  have hroot : rootino ∈ inums g := mem_inums.2 ⟨by decide, by rw [hfi]; unfold rootino; omega⟩
  refine ⟨fun hu => ⟨hn, fun hfill => not_full_root h hn hfill (hu.full rootino hroot)⟩, fun ⟨_, hfill⟩ => ?_⟩
  refine ⟨fun i hi => ?_, fun b hb => ?_, honce, fun b _ => ?_, fun i hi => ?_⟩
  · have hlt := (mem_inums.1 hi).2
    omega
  · obtain ⟨hlo, hhi⟩ := hown b hb
    have hfree := h.free.2
    exact ⟨hlo, by omega⟩
  · rw [h.bits, bitAt_bitmap, decide_eq_true_eq]
  by_cases e : i = rootino
  · rw [e]
    exact full_root h hfill
  obtain ⟨hlo, hhi⟩ := mem_inums.1 hi
  unfold rootino at e
  obtain ⟨k, rfl⟩ : ∃ k, i = k + 2 := ⟨i - 2, by omega⟩
  have hk : k < files.length := by omega
  exact (h.file k files[k] (List.getElem?_eq_getElem hk)).full

theorem mkfs_unbroken_cat : ∃ g, (mkfs [catFile]).run zeroed = .ok ((), g) ∧ Unbroken g := by
  have hok : ((mkfs [catFile]).run zeroed).isOk = true := by decide +kernel
  obtain ⟨g, hg⟩ := exists_of_isOk hok
  exact ⟨g, hg, (mkfs_unbroken hg).2 (by decide)⟩

def emptyFile : Input where
  arg := [97]
  chunks := []
  arg_string := by decide
  chunk_size := by decide

/-- **The entries of 62 files fill a block**: the size of the root directory is rounded up to 2048 bytes, and its second
block has no address. -/
theorem filled_root_broken : ∃ g, (mkfs (List.replicate 62 emptyFile)).run zeroed = .ok ((), g) ∧
    (inodeAt g rootino).size = 2048 ∧ slotAddr g.disk (inodeAt g rootino) 1 = 0 ∧ ¬ Unbroken g := by
  have hrun : ((mkfs (List.replicate 62 emptyFile)).run zeroed).toOption.map (fun r =>
      (r.2.freeinode, (inodeAt r.2 rootino).size, slotAddr r.2.disk (inodeAt r.2 rootino) 1)) = some (64, 2048, 0) := by
    decide +kernel
  cases hr : (mkfs (List.replicate 62 emptyFile)).run zeroed with
  | error e =>
    rw [hr] at hrun
    cases hrun
  | ok r =>
    rw [hr] at hrun
    obtain ⟨hfi, hrest⟩ := Prod.mk.inj (Option.some.inj hrun)
    obtain ⟨hsize, hslot⟩ := Prod.mk.inj hrest
    refine ⟨r.2, rfl, hsize, hslot, fun h => ?_⟩
    have hroot : rootino ∈ inums r.2 := mem_inums.2 ⟨by decide, by rw [hfi]; decide⟩
    have hbn : 1 * bsize < (inodeAt r.2 rootino).size := by
      rw [hsize]
      decide
    exact (h.full rootino hroot 1 hbn).2 hslot

end Xv6.Mkfs
