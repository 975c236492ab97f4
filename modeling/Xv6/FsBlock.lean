import Xv6.LibSum
import Xv6.FsModel
/-!
# FsBlock — the blocks of an inode

`blocksOf` is the multiset of blocks an inode owns: its direct addresses, its indirect block and what that lists.
`Marks k own` says that the bitmap marks exactly the metadata and the blocks of `own`, each owned once. Every function of
the block layer is given the blocks `E` of the other inodes and hands them on: it keeps `Marks` for `E` and the blocks of
its own inode, and does not write to a block of `E`. What it changes it logs: `LogsIn S` says that it has logged bitmap
blocks and blocks of `S`.

`slotAddr` is the address of a block of an inode, and `byteAt` the byte at an offset.
-/
namespace Xv6.Fs

open Multiset Function Wp
variable {data data' : Nat → Nat → UInt8} {off : Nat}

/-! ## Words -/

theorem word_lt (blk : Nat → UInt8) (j : Nat) : word blk j < 2 ^ 32 := by
  have h0 := (blk (4 * j)).toNat_lt
  have h1 := (blk (4 * j + 1)).toNat_lt
  have h2 := (blk (4 * j + 2)).toNat_lt
  have h3 := (blk (4 * j + 3)).toNat_lt
  unfold word
  omega

theorem word_zero (j : Nat) : word (fun _ => 0) j = 0 := rfl

variable {i j a b bn x j' bn' m : Nat} {blk z : Nat → UInt8} {bs bs' : Bytes} {d d' d'' : Dinode}
  {own E own' : Multiset Nat} {F : Panic → Prop}

theorem blit_in (h : i < bs.length) : blit blk off bs (off + i) = bs.getD i 0 := by
  unfold blit
  rw [if_pos ⟨by omega, by omega⟩, Nat.add_sub_cancel_left]

theorem blit_out (h : i < off ∨ off + bs.length ≤ i) : blit blk off bs i = blk i := by
  unfold blit
  rw [if_neg (by omega)]

theorem word_store (blk : Nat → UInt8) (j : Nat) (hx : x < 2 ^ 32) : word (blit blk (4 * j) (wordBytes x)) j = x := by
  have h0 : blit blk (4 * j) (wordBytes x) (4 * j) = UInt8.ofNat x := blit_in (i := 0) (by simp [wordBytes])
  have h1 : blit blk (4 * j) (wordBytes x) (4 * j + 1) = UInt8.ofNat (x / 256) := blit_in (by simp [wordBytes])
  have h2 : blit blk (4 * j) (wordBytes x) (4 * j + 2) = UInt8.ofNat (x / 65536) := blit_in (by simp [wordBytes])
  have h3 : blit blk (4 * j) (wordBytes x) (4 * j + 3) = UInt8.ofNat (x / 16777216) := blit_in (i := 3) (by simp [wordBytes])
  unfold word
  rw [h0, h1, h2, h3]
  simp only [UInt8.toNat_ofNat']
  omega

theorem word_store_ne (blk : Nat → UInt8) (x : Nat) (h : j' ≠ j) :
    word (blit blk (4 * j) (wordBytes x)) j' = word blk j' := by
  have hlen : (wordBytes x).length = 4 := rfl
  unfold word
  rw [blit_out (by omega), blit_out (by omega), blit_out (by omega), blit_out (by omega)]

/-! ## Owned blocks -/

def nz (a : Nat) : Multiset Nat := if a = 0 then 0 else {a}

theorem nz_zero : nz 0 = 0 := rfl

theorem nz_of_ne (h : a ≠ 0) : nz a = {a} := if_neg h

theorem mem_nz : b ∈ nz a ↔ b = a ∧ a ≠ 0 := by
  unfold nz
  split
  · simp [*]
  · simp [*]

@[irreducible] def directBlocks (d : Dinode) : Multiset Nat := ((List.range ndirect).map (fun i => nz (d.addrs i))).sum

@[irreducible] def listed (blk : Nat → UInt8) : Multiset Nat :=
  ((List.range nindirect).map (fun j => nz (word blk j))).sum

def indirectBlocks (data : Nat → Nat → UInt8) (a : Nat) : Multiset Nat := if a = 0 then 0 else a ::ₘ listed (data a)

/-- **The blocks an inode owns**, once for each slot that holds them. -/
def blocksOf (data : Nat → Nat → UInt8) (d : Dinode) : Multiset Nat :=
  directBlocks d + indirectBlocks data (d.addrs ndirect)

def slotAddr (data : Nat → Nat → UInt8) (d : Dinode) (bn : Nat) : Nat :=
  if bn < ndirect then d.addrs bn
  else if d.addrs ndirect = 0 then 0
  else word (data (d.addrs ndirect)) (bn - ndirect)

theorem indirect_lt (hbn : bn < maxfile) (h : ¬ bn < ndirect) : bn - ndirect < nindirect := by
  unfold maxfile at hbn
  omega

theorem slotAddr_direct (h : bn < ndirect) : slotAddr data d bn = d.addrs bn := if_pos h

theorem slotAddr_indirect (h : ¬ bn < ndirect) :
    slotAddr data d bn = if d.addrs ndirect = 0 then 0 else word (data (d.addrs ndirect)) (bn - ndirect) := if_neg h

theorem listed_zero : listed (fun _ => 0) = 0 := by
  unfold listed
  exact Sum.sum_map_zero (fun j _ => by rw [word_zero, nz_zero])

theorem mem_directBlocks (h : bn < ndirect) (hne : d.addrs bn ≠ 0) : d.addrs bn ∈ directBlocks d := by
  unfold directBlocks
  exact Sum.mem_sum_map.2 ⟨bn, List.mem_range.2 h, mem_nz.2 ⟨rfl, hne⟩⟩

theorem mem_listed (h : j < nindirect) (hne : word blk j ≠ 0) : word blk j ∈ listed blk := by
  unfold listed
  exact Sum.mem_sum_map.2 ⟨j, List.mem_range.2 h, mem_nz.2 ⟨rfl, hne⟩⟩

theorem blocksOf_congr
    (h : d.addrs ndirect ≠ 0 → data' (d.addrs ndirect) = data (d.addrs ndirect)) : blocksOf data' d = blocksOf data d := by
  unfold blocksOf indirectBlocks
  split
  · rfl
  · rw [h ‹_›]

theorem blocksOf_addrs (h : d'.addrs = d.addrs) : blocksOf data d' = blocksOf data d := by
  unfold blocksOf directBlocks
  rw [h]

theorem slotAddr_congr (h : d.addrs ndirect ≠ 0 → data' (d.addrs ndirect) = data (d.addrs ndirect)) (bn : Nat) :
    slotAddr data' d bn = slotAddr data d bn := by
  unfold slotAddr
  split
  · rfl
  · split
    · rfl
    · rw [h ‹_›]

theorem indirect_mem (h : d.addrs ndirect ≠ 0) : d.addrs ndirect ∈ blocksOf data d := by
  unfold blocksOf indirectBlocks
  rw [if_neg h]
  exact Multiset.mem_add.2 (.inr (mem_cons_self _ _))

theorem slotAddr_mem (hbn : bn < maxfile) (hne : slotAddr data d bn ≠ 0) : slotAddr data d bn ∈ blocksOf data d := by
  unfold blocksOf
  by_cases h : bn < ndirect
  · rw [slotAddr_direct h] at hne ⊢
    exact Multiset.mem_add.2 (.inl (mem_directBlocks h hne))
  rw [slotAddr_indirect h] at hne ⊢
  unfold indirectBlocks
  split at hne
  · exact absurd rfl hne
  rename_i hind
  rw [if_neg hind, if_neg hind]
  have hj := indirect_lt hbn h
  exact Multiset.mem_add.2 (.inr (mem_cons_of_mem (mem_listed hj hne)))

theorem slotAddr_inj (hn : (blocksOf data d).Nodup)
    (hbn : bn < maxfile) (hbn' : bn' < maxfile) (hne : slotAddr data d bn ≠ 0)
    (he : slotAddr data d bn' = slotAddr data d bn) : bn' = bn := by
  obtain ⟨hdir, hind, hdisj⟩ := Multiset.nodup_add.1 hn
  have hlist : ∀ n, n < maxfile → ¬ n < ndirect → slotAddr data d n ≠ 0 → d.addrs ndirect ≠ 0 ∧
      n - ndirect < nindirect ∧ slotAddr data d n = word (data (d.addrs ndirect)) (n - ndirect) ∧
      slotAddr data d n ∈ indirectBlocks data (d.addrs ndirect) := by
    intro n hn hlt hn0
    rw [slotAddr_indirect hlt] at hn0 ⊢
    split at hn0
    · exact absurd rfl hn0
    rename_i hi
    have hj : n - ndirect < nindirect := by
      unfold maxfile at hn
      omega
    rw [if_neg hi]
    refine ⟨hi, hj, rfl, ?_⟩
    unfold indirectBlocks
    rw [if_neg hi]
    exact mem_cons_of_mem (mem_listed hj hn0)
  by_cases h : bn < ndirect <;> by_cases h' : bn' < ndirect
  · rw [slotAddr_direct h, slotAddr_direct h'] at he
    rw [slotAddr_direct h] at hne
    unfold directBlocks at hdir
    exact Sum.eq_of_nodup_sum hdir (List.mem_range.2 h') (List.mem_range.2 h)
      (mem_nz.2 ⟨he.symm, he ▸ hne⟩) (mem_nz.2 ⟨rfl, hne⟩)
  · obtain ⟨-, -, -, hm⟩ := hlist bn' hbn' h' (he ▸ hne)
    rw [he, slotAddr_direct h] at hm
    rw [slotAddr_direct h] at hne
    exact absurd hm (Multiset.disjoint_left.1 hdisj (mem_directBlocks h hne))
  · obtain ⟨-, -, -, hm⟩ := hlist bn hbn h hne
    rw [← he, slotAddr_direct h'] at hm
    rw [← he, slotAddr_direct h'] at hne
    exact absurd hm (Multiset.disjoint_left.1 hdisj (mem_directBlocks h' hne))
  obtain ⟨hi, hj, hw, -⟩ := hlist bn hbn h hne
  obtain ⟨-, hj', hw', -⟩ := hlist bn' hbn' h' (he ▸ hne)
  unfold indirectBlocks at hind
  rw [if_neg hi] at hind
  have hl := (Multiset.nodup_cons.1 hind).2
  unfold listed at hl
  rw [hw, hw'] at he
  rw [hw] at hne
  have := Sum.eq_of_nodup_sum hl (List.mem_range.2 hj') (List.mem_range.2 hj)
    (mem_nz.2 ⟨he.symm, he ▸ hne⟩) (mem_nz.2 ⟨rfl, hne⟩)
  omega

theorem slotAddr_ne_indirect (hn : (blocksOf data d).Nodup)
    (hbn : bn < maxfile) (hne : slotAddr data d bn ≠ 0) (hi : d.addrs ndirect ≠ 0) :
    slotAddr data d bn ≠ d.addrs ndirect := by
  unfold blocksOf indirectBlocks at hn
  rw [if_neg hi] at hn
  obtain ⟨-, hind, hdisj⟩ := Multiset.nodup_add.1 hn
  by_cases h : bn < ndirect
  · rw [slotAddr_direct h] at hne ⊢
    intro he
    exact Multiset.disjoint_left.1 hdisj (mem_directBlocks h hne) (he ▸ mem_cons_self _ _)
  rw [slotAddr_indirect h, if_neg hi] at hne ⊢
  have hj := indirect_lt hbn h
  have hm := mem_listed hj hne
  intro he
  rw [he] at hm
  exact (Multiset.nodup_cons.1 hind).1 hm

theorem directBlocks_insert (hi : i < ndirect) (h0 : d.addrs i = 0) (ha : a ≠ 0) :
    directBlocks { d with addrs := update d.addrs i a } = a ::ₘ directBlocks d := by
  unfold directBlocks
  have := Sum.sum_map_change (f := fun j => nz (d.addrs j)) (g := fun j => nz (update d.addrs i a j))
    List.nodup_range (List.mem_range.2 hi) (fun j _ hj => by simp [update_of_ne hj])
  simp only [h0, nz_zero, add_zero, update_self, nz_of_ne ha] at this
  rw [this, add_comm, singleton_add]

theorem listed_insert (hj : j < nindirect) (h0 : word blk j = 0) (ha : a ≠ 0)
    (hlt : a < 2 ^ 32) : listed (blit blk (4 * j) (wordBytes a)) = a ::ₘ listed blk := by
  unfold listed
  have := Sum.sum_map_change (f := fun i => nz (word blk i))
    (g := fun i => nz (word (blit blk (4 * j) (wordBytes a)) i))
    List.nodup_range (List.mem_range.2 hj) (fun i _ hi => by simp [word_store_ne blk a hi])
  simp only [h0, nz_zero, add_zero, word_store blk j hlt, nz_of_ne ha] at this
  rw [this, add_comm, singleton_add]

/-! ## The bitmap -/

/-- **The bitmap marks the metadata and the blocks of `own`**, each owned once. -/
structure Marks (k : Blocks) (own : Multiset Nat) : Prop where
  nodup : own.Nodup
  range : ∀ b ∈ own, k.sb.nmeta ≤ b ∧ b < k.sb.size
  bit : ∀ b < k.sb.size, k.bit b = true ↔ b < k.sb.nmeta ∨ b ∈ own

/-- **`log_write` panics only in the end**: inside a transaction whose log is not full then, it has not. -/
structure Calm (k k' : Blocks) : Prop where
  outstanding : k'.outstanding = k.outstanding
  logged : ∀ b ∈ k.logged, b ∈ k'.logged
  halted : 1 ≤ k.outstanding → k'.logged.dedup.length < logBlocks → k'.halted = k.halted

theorem Calm.refl (k : Blocks) : Calm k k := ⟨rfl, fun _ => id, fun _ _ => rfl⟩

theorem dedup_le {l l' : List Nat} (h : ∀ b ∈ l, b ∈ l') : l.dedup.length ≤ l'.dedup.length :=
  ((List.nodup_dedup l).subperm (fun b hb => List.mem_dedup.2 (h b (List.mem_dedup.1 hb)))).length_le

theorem Calm.trans {k k' k'' : Blocks} (h : Calm k k') (h' : Calm k' k'') : Calm k k'' := by
  refine ⟨h'.outstanding.trans h.outstanding, fun b hb => h'.logged b (h.logged b hb), fun ho hl => ?_⟩
  have := dedup_le h'.logged
  rw [h'.halted (by rw [h.outstanding]; exact ho) hl, h.halted ho (by omega)]

-- a write to the log after which `k'` differs from `k` at most in its bits and bytes
theorem Calm.write {k k' : Blocks} (b : Nat) (ho : k'.outstanding = k.outstanding) (hl : k'.logged = b :: k.logged)
    (hh : k'.halted = (k.halted <|> logPanic k)) : Calm k k' := by
  have hmem : ∀ c ∈ k.logged, c ∈ k'.logged := fun c hc => by
    rw [hl]
    exact List.mem_cons_of_mem _ hc
  refine ⟨ho, hmem, fun h1 hlt => ?_⟩
  have := dedup_le hmem
  rw [hh, logPanic, if_neg (by omega), if_neg (by omega), Option.orElse_eq_orElse]
  cases k.halted <;> rfl

/-- The blocks of `own` have not been written to, `readi` has not allocated, and a bit that has changed is in a block that
has been logged. -/
structure Frame (own : Multiset Nat) (k k' : Blocks) : Prop where
  sb : k'.sb = k.sb
  reads : k'.readAllocs = k.readAllocs
  data : ∀ b ∈ own, k'.data b = k.data b
  calm : Calm k k'
  bits : ∀ b, bblock k.sb b ∉ k'.logged → k'.bit b = k.bit b

theorem Frame.refl (own : Multiset Nat) (k : Blocks) : Frame own k k :=
  ⟨rfl, rfl, fun _ _ => rfl, Calm.refl k, fun _ _ => rfl⟩

variable {k k' k'' : Blocks}

theorem Frame.logged (h : Frame own k k') : ∀ b ∈ k.logged, b ∈ k'.logged := h.calm.logged

theorem Frame.trans (h : Frame own k k') (h' : Frame own k' k'') : Frame own k k'' := by
  refine ⟨h'.sb.trans h.sb, h'.reads.trans h.reads, fun b hb => (h'.data b hb).trans (h.data b hb),
    h.calm.trans h'.calm, fun b hb => ?_⟩
  have hb' : bblock k.sb b ∉ k'.logged := fun hm => hb (h'.logged _ hm)
  rw [h'.bits b (by rw [h.sb]; exact hb), h.bits b hb']

theorem Frame.mono (h : Frame own k k') (hle : own' ≤ own) : Frame own' k k' :=
  ⟨h.sb, h.reads, fun b hb => h.data b (Multiset.mem_of_le hle hb), h.calm, h.bits⟩

/-- **Only blocks of the bitmap and of `S` have been logged.** -/
def LogsIn (S : Finset Nat) (k k' : Blocks) : Prop :=
  ∀ b ∈ k'.logged, b ∈ k.logged ∨ (∃ c < k.sb.size, b = bblock k.sb c) ∨ b ∈ S

theorem LogsIn.refl (S : Finset Nat) (k : Blocks) : LogsIn S k k := fun _ => Or.inl

theorem LogsIn.mono {S S' : Finset Nat} (h : LogsIn S k k') (hle : S ⊆ S') : LogsIn S' k k' := fun b hb =>
  (h b hb).imp_right (Or.imp_right (fun hs => hle hs))

theorem LogsIn.trans {S S' : Finset Nat} (h : LogsIn S k k') (h' : LogsIn S' k' k'')
    (hsb : k'.sb = k.sb) : LogsIn (S ∪ S') k k'' := by
  intro b hb
  rcases h' b hb with hb | hb | hb
  · exact h.mono Finset.subset_union_left b hb
  · rw [hsb] at hb
    exact .inr (.inl hb)
  · exact .inr (.inr (Finset.mem_union_right _ hb))

theorem nmeta_pos (sb : Sb) : 0 < sb.nmeta := by
  have := sb.nblocks_lt
  unfold Sb.nmeta
  omega

section
variable (h : Marks k own)
include h

theorem Marks.ne_zero (hb : b ∈ own) : b ≠ 0 := by
  have := (h.range b hb).1
  have := nmeta_pos k.sb
  omega

theorem Marks.lt (hb : b ∈ own) : b < 2 ^ 32 := lt_trans (h.range b hb).2 k.sb.size_lt

theorem Marks.congr (hsb : k'.sb = k.sb) (hbit : k'.bit = k.bit) : Marks k' own :=
  ⟨h.nodup, fun b hb => hsb ▸ h.range b hb, fun b hb => by rw [hbit, hsb]; exact h.bit b (hsb ▸ hb)⟩

theorem balloc_spec :
    wp balloc (fun b k' => Frame own k k' ∧ LogsIn {b} k k' ∧ ((b = 0 ∧ Marks k' own ∧ k'.data = k.data ∧
      k'.logged = k.logged) ∨ (b ∉ own ∧ Marks k' (b ::ₘ own) ∧ k'.data = update k.data b (fun _ => 0) ∧
        b ∈ k'.logged))) F k := by
  unfold balloc
  simp only [wp_bind, wp_modify, wp_get]
  split
  · exact ⟨⟨rfl, rfl, fun _ _ => rfl, ⟨rfl, fun _ => id, fun _ _ => rfl⟩, fun _ _ => rfl⟩, fun _ => .inl,
      .inl ⟨rfl, h.congr rfl rfl, rfl, rfl⟩⟩
  rename_i b hb
  have hbit : k.bit b = false := by simpa using List.find?_some hb
  have hlt : b < k.sb.size := List.mem_range.1 (List.mem_of_find?_eq_some hb)
  have hfree : ¬ (b < k.sb.nmeta ∨ b ∈ own) := fun hm => by
    rw [(h.bit b hlt).2 hm] at hbit
    cases hbit
  rw [not_or, not_lt] at hfree
  obtain ⟨hmeta, hown⟩ := hfree
  simp only [wp_bind, setBit, logWrite, bzero, setData, wp_modify, wp_pure]
  refine ⟨⟨rfl, rfl, fun c hc => ?_, ?_, fun c hc => ?_⟩, fun c hc => ?_, .inr ⟨hown,
    ⟨Multiset.nodup_cons.2 ⟨hown, h.nodup⟩, fun c hc => ?_, fun c hc => ?_⟩, trivial, List.mem_cons_self⟩⟩
  · have hne : c ≠ b := fun e => hown (e ▸ hc)
    exact update_of_ne hne _ _
  · have hbit : Calm k (k.log (bblock k.sb b)) := Calm.write _ rfl rfl rfl
    refine hbit.trans ?_
    exact Calm.write b rfl rfl rfl
  · have hne : c ≠ b := by
      rintro rfl
      exact hc (List.mem_cons_of_mem _ List.mem_cons_self)
    exact update_of_ne hne _ _
  · rcases List.mem_cons.1 hc with rfl | hc
    · exact .inr (.inr (Finset.mem_singleton_self _))
    · rcases List.mem_cons.1 hc with rfl | hc
      · exact .inr (.inl ⟨b, hlt, rfl⟩)
      · exact .inl hc
  · rcases Multiset.mem_cons.1 hc with rfl | hc
    · exact ⟨hmeta, hlt⟩
    · exact h.range c hc
  · rw [mem_cons]
    by_cases e : c = b
    · subst e
      simp
    · simp only [update_of_ne e, e, false_or]
      exact h.bit c hc

end

theorem bfree_spec (h : Marks k (b ::ₘ own)) :
    wp (bfree b) (fun _ k' => Marks k' own ∧ Frame own k k' ∧ LogsIn ∅ k k' ∧ k'.data = k.data) F k := by
  obtain ⟨hown, hnd⟩ := Multiset.nodup_cons.1 h.nodup
  obtain ⟨hmeta, hlt⟩ := h.range b (mem_cons_self _ _)
  have hbit : k.bit b = true := (h.bit b hlt).2 (.inr (mem_cons_self _ _))
  unfold bfree
  simp only [wp_bind, wp_get, hbit, Bool.true_eq_false, if_false, setBit, logWrite, wp_modify]
  refine ⟨⟨hnd, fun c hc => h.range c (mem_cons_of_mem hc), fun c hc => ?_⟩,
    ⟨rfl, rfl, fun _ _ => rfl, Calm.write _ rfl rfl rfl, fun c hc => ?_⟩, fun c hc => ?_, trivial⟩
  · by_cases e : c = b
    · subst e
      simp only [update_self, Bool.false_eq_true, false_iff, not_or]
      exact ⟨by simpa using hmeta, hown⟩
    · have := h.bit c hc
      rw [mem_cons] at this
      simpa [update_of_ne e, e, false_or] using this
  · have hne : c ≠ b := by
      rintro rfl
      exact hc List.mem_cons_self
    exact update_of_ne hne _ _
  · rcases List.mem_cons.1 hc with rfl | hc
    · exact .inr (.inl ⟨b, hlt, rfl⟩)
    · exact .inl hc

/-! ## `bmap` -/

/-- The indirect block has been logged, or is as before. -/
def IndLogged (k : Blocks) (d : Dinode) (k' : Blocks) (d' : Dinode) : Prop :=
  d'.addrs ndirect ≠ 0 → d'.addrs ndirect ∈ k'.logged ∨
    d'.addrs ndirect = d.addrs ndirect ∧ k'.data (d.addrs ndirect) = k.data (d.addrs ndirect)

theorem IndLogged.trans (h : IndLogged k d k' d') (h' : IndLogged k' d' k'' d'')
    (hl : ∀ b ∈ k'.logged, b ∈ k''.logged) : IndLogged k d k'' d'' := by
  intro hne
  rcases h' hne with hlog | ⟨ha, hd⟩
  · exact .inl hlog
  · rcases h (ha ▸ hne) with hlog | ⟨ha', hd'⟩
    · exact .inl (ha ▸ hl _ hlog)
    · exact .inr ⟨ha.trans ha', by rw [← ha', hd, ha', hd']⟩

/-- The inode may have got more blocks; those it had, and their bytes, are as before. -/
structure Grows (k : Blocks) (d : Dinode) (k' : Blocks) (d' : Dinode) : Prop where
  same : d' = { d with addrs := d'.addrs }
  slot : ∀ bn < maxfile, slotAddr k.data d bn ≠ 0 → slotAddr k'.data d' bn = slotAddr k.data d bn ∧
    k'.data (slotAddr k.data d bn) = k.data (slotAddr k.data d bn)
  ind : IndLogged k d k' d'

theorem Grows.refl (k : Blocks) (d : Dinode) : Grows k d k d :=
  ⟨rfl, fun _ _ _ => ⟨rfl, rfl⟩, fun _ => .inr ⟨rfl, rfl⟩⟩

theorem Grows.of_data (hd : k'.data = k.data) : Grows k d k' d :=
  ⟨rfl, fun _ _ _ => by rw [hd]; exact ⟨rfl, rfl⟩, fun _ => .inr ⟨rfl, by rw [hd]⟩⟩

theorem Grows.trans (h : Grows k d k' d') (h' : Grows k' d' k'' d'')
    (hl : ∀ b ∈ k'.logged, b ∈ k''.logged) : Grows k d k'' d'' := by
  refine ⟨?_, fun bn hbn hne => ?_, h.ind.trans h'.ind hl⟩
  · rw [h'.same, h.same]
  · obtain ⟨hs, hd⟩ := h.slot bn hbn hne
    obtain ⟨hs', hd'⟩ := h'.slot bn hbn (by rw [hs]; exact hne)
    rw [hs] at hs' hd'
    exact ⟨hs', hd'.trans hd⟩

theorem slot_ne_of_notMem
    (hb : b ∉ E + blocksOf data d) (hbn : bn < maxfile) (hne : slotAddr data d bn ≠ 0) : slotAddr data d bn ≠ b :=
  fun e => hb (Multiset.mem_add.2 (.inr (e ▸ slotAddr_mem hbn hne)))

theorem indirect_ne_of_notMem (hb : b ∉ E + blocksOf data d) (hne : d.addrs ndirect ≠ 0) : d.addrs ndirect ≠ b :=
  fun e => hb (Multiset.mem_add.2 (.inr (e ▸ indirect_mem hne)))

theorem Grows.fresh (hb : b ∉ E + blocksOf k.data d) (hd : k'.data = update k.data b z) : Grows k d k' d := by
  have hind : d.addrs ndirect ≠ 0 → k'.data (d.addrs ndirect) = k.data (d.addrs ndirect) := fun hne => by
    rw [hd, update_of_ne (indirect_ne_of_notMem hb hne)]
  refine ⟨rfl, fun bn hbn hne => ⟨slotAddr_congr hind bn, ?_⟩, fun hne => .inr ⟨rfl, hind hne⟩⟩
  rw [hd, update_of_ne (slot_ne_of_notMem hb hbn hne)]

theorem blocksOf_fresh (hb : b ∉ E + blocksOf k.data d) (hd : k'.data = update k.data b z) :
    blocksOf k'.data d = blocksOf k.data d :=
  blocksOf_congr (fun hne => by rw [hd, update_of_ne (indirect_ne_of_notMem hb hne)])

theorem addr_insert (hi : i ≤ ndirect) (h0 : d.addrs i = 0) (hb : b ≠ 0)
    (hz : k.data b = fun _ => 0) (hl : b ∈ k.logged) :
    blocksOf k.data { d with addrs := update d.addrs i b } = b ::ₘ blocksOf k.data d ∧
      Grows k d k { d with addrs := update d.addrs i b } := by
  rcases lt_or_eq_of_le hi with hlt | rfl
  · have hne : ndirect ≠ i := by omega
    refine ⟨?_, rfl, fun bn hbn h => ⟨?_, rfl⟩, fun _ => .inr ⟨update_of_ne hne _ _, rfl⟩⟩
    · unfold blocksOf
      rw [directBlocks_insert hlt h0 hb]
      simp [update_of_ne hne, cons_add]
    · have hbn' : bn ≠ i := by
        rintro rfl
        rw [slotAddr_direct hlt] at h
        exact h h0
      unfold slotAddr
      simp [update_of_ne hne, update_of_ne hbn']
  · have hdir : directBlocks { d with addrs := update d.addrs ndirect b } = directBlocks d := by
      unfold directBlocks
      exact Sum.sum_map_congr (fun j hj => by
        simp only [update_of_ne (ne_of_lt (List.mem_range.1 hj))])
    refine ⟨?_, rfl, fun bn hbn h => ⟨?_, rfl⟩, fun _ => .inl (by simp only [update_self]; exact hl)⟩
    · unfold blocksOf indirectBlocks
      rw [hdir]
      simp only [update_self, hb, h0, if_false, if_true, hz, listed_zero, add_cons]
    · by_cases hlt : bn < ndirect
      · rw [slotAddr_direct hlt, slotAddr_direct hlt]
        simp [update_of_ne (ne_of_lt hlt)]
      · rw [slotAddr_indirect hlt, if_pos h0] at h
        exact absurd rfl h

theorem ballocAt_spec (h : Marks k (E + blocksOf k.data d)) (hi : i ≤ ndirect) :
    wp (ballocAt d i) (fun r k' => Marks k' (E + blocksOf k'.data r.2) ∧ Frame E k k' ∧ LogsIn {r.1} k k' ∧
      Grows k d k' r.2 ∧ (r.1 ≠ 0 → r.2.addrs i = r.1)) F k := by
  refine wp_ite (fun hne => ⟨h, Frame.refl _ _, LogsIn.refl _ _, Grows.refl _ _, fun _ => rfl⟩) (fun h0 => ?_)
  rw [ne_eq, not_not] at h0
  refine wp_then (balloc_spec h) (fun b k' ⟨hf, hlog, hb⟩ => ?_)
  have hfE : Frame E k k' := hf.mono (Multiset.le_add_right _ _)
  rcases hb with ⟨rfl, hm, hd, -⟩ | ⟨hown, hm, hd, hl⟩
  · exact ⟨by rw [hd]; exact hm, hfE, hlog, Grows.of_data hd, fun hne => absurd rfl hne⟩
  have hb0 : b ≠ 0 := hm.ne_zero (mem_cons_self _ _)
  rw [if_neg hb0]
  have hz : k'.data b = fun _ => 0 := by rw [hd, update_self]
  obtain ⟨hblk, hg⟩ := addr_insert hi h0 hb0 hz hl
  refine ⟨?_, hfE, hlog, (Grows.fresh hown hd).trans hg (fun _ => id), fun _ => update_self ..⟩
  rw [hblk, blocksOf_fresh hown hd, add_cons]
  exact hm

theorem word_insert (k' : Blocks) (h : Marks k (b ::ₘ (E + blocksOf k.data d))) (hj : j < nindirect) (hi : d.addrs ndirect ≠ 0)
    (h0 : word (k.data (d.addrs ndirect)) j = 0)
    (hd : k'.data = update k.data (d.addrs ndirect) (blit (k.data (d.addrs ndirect)) (4 * j) (wordBytes b)))
    (hsb : k'.sb = k.sb) (hbit : k'.bit = k.bit) (hl : d.addrs ndirect ∈ k'.logged) :
    Marks k' (E + blocksOf k'.data d) ∧ (∀ c ∈ E, k'.data c = k.data c) ∧ Grows k d k' d ∧
      slotAddr k'.data d (ndirect + j) = b := by
  have hb0 : b ≠ 0 := h.ne_zero (mem_cons_self _ _)
  have hnd := (Multiset.nodup_cons.1 h.nodup).2
  have hnd' := (Multiset.nodup_add.1 hnd).2.1
  have hlt := h.lt (mem_cons_self _ _)
  have hself : k'.data (d.addrs ndirect) = blit (k.data (d.addrs ndirect)) (4 * j) (wordBytes b) := by rw [hd, update_self]
  refine ⟨?_, fun c hc => ?_, ⟨rfl, fun bn hbn hne => ⟨?_, ?_⟩, fun _ => .inl hl⟩, ?_⟩
  · have hblk : blocksOf k'.data d = b ::ₘ blocksOf k.data d := by
      unfold blocksOf indirectBlocks
      rw [if_neg hi, if_neg hi, hself, listed_insert hj h0 hb0 hlt, Multiset.cons_swap, add_cons]
    rw [hblk, add_cons]
    exact h.congr hsb hbit
  · have hne : c ≠ d.addrs ndirect := by
      rintro rfl
      exact Multiset.disjoint_left.1 (Multiset.nodup_add.1 hnd).2.2 hc (indirect_mem hi)
    rw [hd, update_of_ne hne]
  · by_cases hdir : bn < ndirect
    · rw [slotAddr_direct hdir, slotAddr_direct hdir]
    rw [slotAddr_indirect hdir, if_neg hi] at hne
    have hj' : bn - ndirect ≠ j := by
      rintro rfl
      exact hne h0
    rw [slotAddr_indirect hdir, slotAddr_indirect hdir, if_neg hi, if_neg hi, hself, word_store_ne _ _ hj']
  · rw [hd, update_of_ne (slotAddr_ne_indirect hnd' hbn hne hi)]
  · rw [slotAddr_indirect (by omega), if_neg hi, hself, Nat.add_sub_cancel_left, word_store _ _ hlt]

theorem storeWord_spec (h : Marks k (b ::ₘ (E + blocksOf k.data d))) (hj : j < nindirect) (hi : d.addrs ndirect ≠ 0)
    (h0 : word (k.data (d.addrs ndirect)) j = 0) :
    wp (storeWord (d.addrs ndirect) j b) (fun _ k' => Marks k' (E + blocksOf k'.data d) ∧ Frame E k k' ∧
      LogsIn {d.addrs ndirect} k k' ∧ Grows k d k' d ∧ slotAddr k'.data d (ndirect + j) = b) F k := by
  have hb0 : b ≠ 0 := h.ne_zero (mem_cons_self _ _)
  unfold storeWord
  rw [if_neg hb0]
  simp only [wp_bind, wp_get, setData, logWrite, wp_modify]
  obtain ⟨hm, hdata, hg, hs⟩ := word_insert (Blocks.log { k with data := _ } (d.addrs ndirect)) h hj hi h0 rfl rfl rfl
    List.mem_cons_self
  refine ⟨hm, ⟨rfl, rfl, hdata, Calm.write _ rfl rfl rfl, fun _ _ => rfl⟩, fun c hc => ?_, hg, hs⟩
  rcases List.mem_cons.1 hc with rfl | hc
  · exact .inr (.inr (Finset.mem_singleton_self _))
  · exact .inl hc

theorem bmap_present {Q : Nat × Dinode → Blocks → Prop}
    (hbn : bn < maxfile) (hne : slotAddr k.data d bn ≠ 0) (hQ : Q (slotAddr k.data d bn, d) k) : wp (bmap d bn) Q F k := by
  unfold bmap ballocAt
  by_cases hdir : bn < ndirect
  · rw [slotAddr_direct hdir] at hne hQ
    rw [if_pos hdir, if_pos hne]
    exact hQ
  rw [slotAddr_indirect hdir] at hne hQ
  have hj := indirect_lt hbn hdir
  split at hne
  · exact absurd rfl hne
  rename_i hi
  rw [if_neg hi] at hQ
  rw [if_neg hdir, if_pos hj, if_pos hi, wp_bind, wp_pure]
  dsimp only
  rw [if_neg hi, wp_bind, wp_get, if_pos hne]
  exact hQ

/-- **`bmap`** finds the block, or gives the inode a new one, or finds the disk full. It logs that block and one more, the
indirect block. -/
theorem bmap_spec (h : Marks k (E + blocksOf k.data d)) (hbn : bn < maxfile) :
    wp (bmap d bn) (fun r k' => Marks k' (E + blocksOf k'.data r.2) ∧ Frame E k k' ∧ (∃ c, LogsIn {r.1, c} k k') ∧
      Grows k d k' r.2 ∧ (r.1 ≠ 0 → slotAddr k'.data r.2 bn = r.1) ∧ (r.1 = 0 → slotAddr k.data d bn = 0)) F k := by
  by_cases hz : slotAddr k.data d bn = 0
  rotate_left
  · exact bmap_present hbn hz ⟨h, Frame.refl _ _, ⟨0, LogsIn.refl _ _⟩, Grows.refl _ _, fun _ => rfl, id⟩
  unfold bmap
  refine wp_ite (fun hdir => ?_) (fun hdir => ?_)
  · refine wp_use (ballocAt_spec h (le_of_lt hdir)) (fun r k' ⟨hm, hf, hlog, hg, ha⟩ =>
      ⟨hm, hf, ⟨0, hlog.mono (by simp)⟩, hg, fun hne => ?_, fun _ => hz⟩)
    rw [slotAddr_direct hdir, ha hne]
  have hj := indirect_lt hbn hdir
  rw [if_pos hj]
  refine wp_then (ballocAt_spec h le_rfl) (fun r k1 ⟨hm1, hf1, hlog1, hg1, ha1⟩ => ?_)
  obtain ⟨ind, d1⟩ := r
  refine wp_ite (fun h0 => ⟨hm1, hf1, ⟨ind, hlog1.mono (by simp)⟩, hg1, fun hne => absurd rfl hne, fun _ => hz⟩)
    (fun hind => ?_)
  have hi : d1.addrs ndirect = ind := ha1 hind
  subst hi
  refine wp_ite (fun hw => ⟨hm1, hf1, ⟨d1.addrs ndirect, hlog1.mono (by simp)⟩, hg1, fun _ => ?_, fun _ => hz⟩) (fun hw => ?_)
  · rw [slotAddr_indirect hdir, if_neg hind]
  rw [ne_eq, not_not] at hw
  refine wp_then (balloc_spec hm1) (fun b k2 ⟨hf2, hlog2, hb⟩ => ?_)
  have hf2' : Frame E k1 k2 := hf2.mono (Multiset.le_add_right _ _)
  have hlog12 : LogsIn {b, d1.addrs ndirect} k k2 := (hlog1.trans hlog2 hf1.sb).mono (by simp [Finset.pair_comm])
  rw [wp_bind]
  rcases hb with ⟨rfl, hm2, hd2, -⟩ | ⟨hown, hm2, hd2, hl2⟩
  · exact ⟨by rw [hd2]; exact hm2, hf1.trans hf2', ⟨_, hlog12⟩, hg1.trans (Grows.of_data hd2) hf2.logged,
      fun hne => absurd rfl hne, fun _ => hz⟩
  have hw2 : word (k2.data (d1.addrs ndirect)) (bn - ndirect) = 0 := by
    rw [hd2, update_of_ne (indirect_ne_of_notMem hown hind), hw]
  rw [← blocksOf_fresh hown hd2] at hm2
  refine wp_use (storeWord_spec hm2 hj hind hw2) (fun _ k3 ⟨hm3, hf3, hlog3, hg3, hs3⟩ =>
    ⟨hm3, (hf1.trans hf2').trans hf3, ⟨d1.addrs ndirect, (hlog12.trans hlog3 (hf1.trans hf2').sb).mono (by simp)⟩,
      (hg1.trans (Grows.fresh hown hd2) hf2.logged).trans hg3 hf3.logged, fun _ => ?_, fun _ => hz⟩)
  rw [← hs3]
  congr 1
  omega

/-! ## `itrunc` -/

theorem freeAddr_spec (h : Marks k (nz a + own)) :
    wp (freeAddr a) (fun _ k' => Marks k' own ∧ Frame own k k' ∧ LogsIn ∅ k k' ∧ k'.data = k.data) F k := by
  refine wp_ite (fun h0 => ⟨?_, Frame.refl _ _, LogsIn.refl _ _, rfl⟩) (fun hne => ?_)
  · rwa [h0, nz_zero, zero_add] at h
  · rw [nz_of_ne hne, singleton_add] at h
    exact bfree_spec h

theorem freeAddrs_spec {f : Nat → Nat} {l : List Nat} (h : Marks k ((l.map (fun i => nz (f i))).sum + own)) :
    wp (l.forM (fun i => freeAddr (f i))) (fun _ k' => Marks k' own ∧ Frame own k k' ∧ LogsIn ∅ k k' ∧ k'.data = k.data)
      F k := by
  have hloop := wp_forM (F := F)
    (I := fun rest k' => Marks k' ((rest.map (fun i => nz (f i))).sum + own) ∧ Frame own k k' ∧ LogsIn ∅ k k' ∧
      k'.data = k.data)
    (fun i rest s ⟨hm, hf, hlog, hd⟩ => by
      rw [List.map_cons, List.sum_cons, add_assoc] at hm
      exact wp_use (freeAddr_spec hm) (fun _ s' ⟨hm', hf', hlog', hd'⟩ =>
        ⟨hm', hf.trans (hf'.mono (Multiset.le_add_left _ _)), hlog.trans hlog' hf.sb, hd'.trans hd⟩))
    l k ⟨h, Frame.refl _ _, LogsIn.refl _ _, rfl⟩
  refine wp_use hloop (fun _ k' ⟨hm, hf, hlog, hd⟩ => ⟨?_, hf, hlog, hd⟩)
  rwa [List.map_nil, List.sum_nil, zero_add] at hm

theorem freeIndirect_spec (h : Marks k (indirectBlocks k.data a + own)) :
    wp (freeIndirect a) (fun _ k' => Marks k' own ∧ Frame own k k' ∧ LogsIn ∅ k k' ∧ k'.data = k.data) F k := by
  unfold indirectBlocks at h
  refine wp_ite (fun h0 => ⟨?_, Frame.refl _ _, LogsIn.refl _ _, rfl⟩) (fun hne => ?_)
  · rwa [if_pos h0, zero_add] at h
  rw [if_neg hne, cons_add, ← add_cons] at h
  unfold listed at h
  simp only [wp_bind, wp_get]
  refine wp_use (freeAddrs_spec h) ?_
  rintro _ k1 ⟨hm1, hf1, hlog1, hd1⟩
  refine wp_use (bfree_spec hm1) ?_
  rintro _ k2 ⟨hm2, hf2, hlog2, hd2⟩
  refine ⟨hm2, ?_, hlog1.trans hlog2 hf1.sb, hd2.trans hd1⟩
  exact (hf1.mono (Multiset.le_cons_self _ _)).trans hf2

theorem truncBlocks_spec (h : Marks k (E + blocksOf k.data d)) :
    wp (truncBlocks d) (fun d' k' => d' = { d with size := 0, addrs := fun _ => 0 } ∧ Marks k' E ∧ Frame E k k' ∧
      LogsIn ∅ k k') F k := by
  unfold blocksOf directBlocks at h
  rw [← add_assoc, add_comm E, add_assoc] at h
  refine wp_then (freeAddrs_spec h) (fun _ k1 ⟨hm1, hf1, hlog1, hd1⟩ => ?_)
  rw [add_comm E, ← hd1] at hm1
  refine wp_then (freeIndirect_spec hm1) (fun _ k2 ⟨hm2, hf2, hlog2, _⟩ => ⟨rfl, hm2, ?_, hlog1.trans hlog2 hf1.sb⟩)
  exact (hf1.mono (Multiset.le_add_right _ _)).trans hf2

theorem blocksOf_none (h : d.addrs = fun _ => 0) : blocksOf data d = 0 := by
  unfold blocksOf directBlocks indirectBlocks
  rw [h, if_pos rfl, add_zero]
  exact Sum.sum_map_zero (fun _ _ => nz_zero)

/-! ## Contents -/

def byteAt (data : Nat → Nat → UInt8) (d : Dinode) (x : Nat) : UInt8 := data (slotAddr data d (x / bsize)) (x % bsize)

def bytesAt (data : Nat → Nat → UInt8) (d : Dinode) (off n : Nat) : Bytes :=
  (List.range n).map (fun i => byteAt data d (off + i))

/-- **No block below the size is missing.** -/
def Full (data : Nat → Nat → UInt8) (d : Dinode) : Prop :=
  ∀ bn, bn * bsize < d.size → bn < maxfile ∧ slotAddr data d bn ≠ 0

theorem Full.at (h : Full data d) (hx : x < d.size) : x / bsize < maxfile ∧ slotAddr data d (x / bsize) ≠ 0 :=
  h _ (lt_of_le_of_lt (Nat.div_mul_le_self x bsize) hx)

theorem Full.size_le (h : Full data d) : d.size ≤ maxfile * bsize := by
  by_contra hlt
  have := (h maxfile (by omega)).1
  omega

theorem length_bytesAt (data : Nat → Nat → UInt8) (d : Dinode) (off n : Nat) : (bytesAt data d off n).length = n := by
  simp [bytesAt]

theorem bytesAt_append (data : Nat → Nat → UInt8) (d : Dinode) (off m n : Nat) :
    bytesAt data d off m ++ bytesAt data d (off + m) n = bytesAt data d off (m + n) := by
  unfold bytesAt
  rw [List.range_add, List.map_append, List.map_map]
  simp [Function.comp_def, add_assoc]

theorem take_bytesAt (data : Nat → Nat → UInt8) (d : Dinode) (off m n : Nat) (h : m ≤ n) :
    (bytesAt data d off n).take m = bytesAt data d off m := by
  obtain ⟨l, rfl⟩ := Nat.exists_eq_add_of_le h
  rw [← bytesAt_append, List.take_left' (length_bytesAt ..)]

theorem slice_slot (hm : off % bsize + m ≤ bsize) :
    slice (data (slotAddr data d (off / bsize))) (off % bsize) m = bytesAt data d off m := by
  unfold bytesAt byteAt
  refine List.map_congr_left (fun i hi => ?_)
  have hlt := List.mem_range.1 hi
  unfold bsize at hm ⊢
  have hdiv : (off + i) / 1024 = off / 1024 := by omega
  have hmod : (off + i) % 1024 = off % 1024 + i := by omega
  rw [hdiv, hmod]

/-! ## Pieces -/

theorem pieces_zero (off : Nat) : ∀ fuel, pieces fuel off 0 = []
  | 0 => rfl
  | _ + 1 => rfl

theorem length_pieces_le : ∀ (fuel off n q : Nat), off % bsize + n ≤ q * bsize → (pieces fuel off n).length ≤ q
  | 0, _, _, _, _ => Nat.zero_le _
  | fuel + 1, off, n, q, h => by
    unfold pieces
    by_cases h0 : n = 0
    · rw [if_pos h0]
      exact Nat.zero_le _
    rw [if_neg h0]
    cases q with
    | zero => omega
    | succ q =>
      refine Nat.succ_le_succ ?_
      by_cases hn : n ≤ bsize - off % bsize
      · rw [min_eq_left hn, Nat.sub_self, pieces_zero]
        exact Nat.zero_le _
      · refine length_pieces_le fuel _ _ q ?_
        unfold bsize at h hn ⊢
        omega

/-! ## `readi` -/

def readResult (room : Nat) (out bytes : Bytes) : Int × Bytes :=
  if (out ++ bytes).length ≤ room then (((out ++ bytes).length : Int), out ++ bytes) else (-1, (out ++ bytes).take room)

theorem readLoop_spec {room : Nat} : ∀ (fuel off n : Nat) (out : Bytes),
    n ≤ fuel → out.length ≤ room → (∀ x, off ≤ x → x < off + n → x / bsize < maxfile ∧ slotAddr k.data d (x / bsize) ≠ 0) →
    wp (readLoop room d out (pieces fuel off n)) (fun r k' => k' = k ∧ r.2.2 = d ∧
      (r.1, r.2.1) = readResult room out (bytesAt k.data d off n)) F k
  | 0, off, n, out, hn, hr, _ => by
    obtain rfl : n = 0 := by omega
    refine ⟨rfl, rfl, ?_⟩
    have hnil : bytesAt k.data d off 0 = [] := rfl
    rw [readResult, hnil, List.append_nil, if_pos hr]
  | fuel + 1, off, n, out, hn, hr, hslot => by
    unfold pieces
    by_cases h0 : n = 0
    · subst h0
      refine ⟨rfl, rfl, ?_⟩
      have hnil : bytesAt k.data d off 0 = [] := rfl
      rw [readResult, hnil, List.append_nil, if_pos hr]
    rw [if_neg h0]
    have hb : off % bsize < bsize := Nat.mod_lt _ (by decide)
    obtain ⟨m, hm⟩ : ∃ m, m = min n (bsize - off % bsize) := ⟨_, rfl⟩
    rw [← hm]
    have hmn : m ≤ n := by omega
    have hm0 : 0 < m := by omega
    obtain ⟨hlt, hne⟩ := hslot off le_rfl (by omega)
    have hsplit : bytesAt k.data d off n = bytesAt k.data d off m ++ bytesAt k.data d (off + m) (n - m) := by
      rw [bytesAt_append]
      congr 1
      omega
    simp only [readLoop, bmapRead, wp_bind, wp_get]
    refine bmap_present hlt hne ?_
    simp only [wp_bind, wp_modify, wp_pure, Nat.sub_self, add_zero]
    rw [if_neg hne, wp_bind, wp_get, slice_slot (by omega)]
    refine wp_ite (fun hroom => ⟨rfl, rfl, ?_⟩) (fun hroom => ?_)
    · have hbig : ¬ (out ++ bytesAt k.data d off n).length ≤ room := by
        rw [List.length_append, length_bytesAt]
        omega
      have htake : (out ++ bytesAt k.data d off n).take room = out ++ (bytesAt k.data d off m).take (room - out.length) := by
        rw [List.take_append, List.take_of_length_le hr, take_bytesAt _ _ _ _ _ (by omega),
          take_bytesAt _ _ _ _ _ (by omega)]
      rw [readResult, if_neg hbig, htake]
    · have hroom' : (out ++ bytesAt k.data d off m).length ≤ room := by
        rw [List.length_append, length_bytesAt]
        omega
      refine wp_use (readLoop_spec fuel (off + m) (n - m) _ (by omega) hroom' (fun x h h' => hslot x (by omega) (by omega))) ?_
      rintro r k' ⟨hk, hd, hr⟩
      refine ⟨hk, hd, ?_⟩
      rw [hr, readResult, readResult, List.append_assoc, ← hsplit]

/-! ## `writei` -/

/-- **`bs` has been written at `off`**: the blocks for it are there, and what the inode had elsewhere is as before. -/
structure Wrote (E : Multiset Nat) (k : Blocks) (d : Dinode) (k' : Blocks) (d' : Dinode) (off : Nat) (bs : Bytes) : Prop where
  marks : Marks k' (E + blocksOf k'.data d')
  frame : Frame E k k'
  same : d' = { d with addrs := d'.addrs }
  new : ∀ i < bs.length, slotAddr k'.data d' ((off + i) / bsize) ≠ 0 ∧ byteAt k'.data d' (off + i) = bs.getD i 0
  old : ∀ x, x / bsize < maxfile → slotAddr k.data d (x / bsize) ≠ 0 → x < off ∨ off + bs.length ≤ x →
    slotAddr k'.data d' (x / bsize) ≠ 0 ∧ byteAt k'.data d' x = byteAt k.data d x
  ind : IndLogged k d k' d'

theorem Wrote.trans (hle : off + bs.length ≤ maxfile * bsize)
    (h : Wrote E k d k' d' off bs) (h' : Wrote E k' d' k'' d'' (off + bs.length) bs') :
    Wrote E k d k'' d'' off (bs ++ bs') := by
  have hmax : ∀ i < bs.length, (off + i) / bsize < maxfile := fun i hi => by
    rw [Nat.div_lt_iff_lt_mul (by decide)]
    omega
  refine ⟨h'.marks, h.frame.trans h'.frame, by rw [h'.same, h.same], fun i hi => ?_, fun x hx hne hout => ?_,
    h.ind.trans h'.ind h'.frame.logged⟩
  · rw [List.length_append] at hi
    rcases lt_or_ge i bs.length with hlt | hge
    · obtain ⟨hs, hb⟩ := h.new i hlt
      obtain ⟨hs', hb'⟩ := h'.old (off + i) (hmax i hlt) hs (.inl (by omega))
      exact ⟨hs', by rw [hb', hb, List.getD_append _ _ _ _ hlt]⟩
    · obtain ⟨hs, hb⟩ := h'.new (i - bs.length) (by omega)
      have e : off + bs.length + (i - bs.length) = off + i := by omega
      rw [e] at hs hb
      exact ⟨hs, by rw [hb, List.getD_append_right _ _ _ _ hge]⟩
  · rw [List.length_append] at hout
    obtain ⟨hs, hb⟩ := h.old x hx hne (by omega)
    obtain ⟨hs', hb'⟩ := h'.old x hx hs (by omega)
    exact ⟨hs', hb'.trans hb⟩

theorem Grows.wrote (h : Grows k d k' d')
    (hm : Marks k' (E + blocksOf k'.data d')) (hf : Frame E k k') : Wrote E k d k' d' off [] := by
  refine ⟨hm, hf, h.same, fun i hi => absurd hi (Nat.not_lt_zero _), fun x hx hne _ => ?_, h.ind⟩
  obtain ⟨hs, hd⟩ := h.slot _ hx hne
  unfold byteAt
  rw [hs, hd]
  exact ⟨hne, rfl⟩

theorem wrote_slot
    (hm : Marks k (E + blocksOf k.data d)) (hoff : off / bsize < maxfile) (hne : slotAddr k.data d (off / bsize) ≠ 0)
    (hlen : off % bsize + bs.length ≤ bsize) (hsb : k'.sb = k.sb) (hbit : k'.bit = k.bit)
    (hreads : k'.readAllocs = k.readAllocs) (hl : Calm k k') (hd : k'.data = update k.data (slotAddr k.data d (off / bsize))
      (blit (k.data (slotAddr k.data d (off / bsize))) (off % bsize) bs)) : Wrote E k d k' d off bs := by
  obtain ⟨-, hnd, hdisj⟩ := Multiset.nodup_add.1 hm.nodup
  have hind : d.addrs ndirect ≠ 0 → k'.data (d.addrs ndirect) = k.data (d.addrs ndirect) := fun hi => by
    rw [hd, update_of_ne (slotAddr_ne_indirect hnd hoff hne hi).symm]
  refine ⟨?_, ⟨hsb, hreads, fun b hb => ?_, hl, fun _ _ => by rw [hbit]⟩, rfl, fun i hi => ?_, fun x hx hxne hout => ?_,
    fun hi => .inr ⟨rfl, hind hi⟩⟩
  · rw [blocksOf_congr hind]
    exact hm.congr hsb hbit
  · have hbne : b ≠ slotAddr k.data d (off / bsize) := by
      rintro rfl
      exact Multiset.disjoint_left.1 hdisj hb (slotAddr_mem hoff hne)
    rw [hd, update_of_ne hbne]
  · have hdiv : (off + i) / bsize = off / bsize := by
      unfold bsize at *
      omega
    have hmod : (off + i) % bsize = off % bsize + i := by
      unfold bsize at *
      omega
    unfold byteAt
    rw [slotAddr_congr hind, hdiv, hmod, hd, update_self, blit_in hi]
    exact ⟨hne, rfl⟩
  · unfold byteAt
    rw [slotAddr_congr hind, hd]
    refine ⟨hxne, ?_⟩
    by_cases e : x / bsize = off / bsize
    · rw [e, update_self, blit_out]
      unfold bsize at *
      omega
    · rw [update_of_ne (fun he => e (slotAddr_inj hnd hoff hx hne he))]

/-- **The loop of `writei`**: some prefix of the source has been written. It stops early for want of blocks, at a block
boundary, or of source bytes; where no block is wanting it writes all. It logs at most two blocks for each piece. -/
theorem writeLoop_spec : ∀ (fuel off n : Nat) (k : Blocks) (d : Dinode) (src : Bytes)
    (tot : Nat), n ≤ fuel → off + n ≤ maxfile * bsize → Marks k (E + blocksOf k.data d) →
    wp (writeLoop d src tot (pieces fuel off n)) (fun r k' => ∃ t done, r.1 = tot + done ∧ done ≤ t ∧ t ≤ src.length ∧
      t ≤ n ∧ (n ≤ src.length → t = done ∧ (done < n → (done = 0 ∨ (off + done) % bsize = 0) ∧
        slotAddr k.data d ((off + done) / bsize) = 0)) ∧
      (∃ S : Finset Nat, S.card ≤ 2 * (pieces fuel off n).length ∧ LogsIn S k k') ∧
      Wrote E k d k' r.2 off (src.take t)) F k
  | 0, off, n, k, d, src, tot, hn, _, hm => by
    obtain rfl : n = 0 := by omega
    exact ⟨0, 0, rfl, Nat.le_refl _, Nat.zero_le _, Nat.zero_le _, fun _ => ⟨rfl, fun h => absurd h (Nat.lt_irrefl _)⟩,
      ⟨∅, Nat.zero_le _, LogsIn.refl _ _⟩, (Grows.refl k d).wrote hm (Frame.refl _ _)⟩
  | fuel + 1, off, n, k, d, src, tot, hn, hmax, hm => by
    unfold pieces
    by_cases h0 : n = 0
    · subst h0
      rw [if_pos rfl]
      exact ⟨0, 0, rfl, Nat.le_refl _, Nat.zero_le _, Nat.zero_le _, fun _ => ⟨rfl, fun h => absurd h (Nat.lt_irrefl _)⟩,
        ⟨∅, Nat.zero_le _, LogsIn.refl _ _⟩, (Grows.refl k d).wrote hm (Frame.refl _ _)⟩
    rw [if_neg h0]
    have hb : off % bsize < bsize := Nat.mod_lt _ (by decide)
    obtain ⟨m, hmdef⟩ : ∃ m, m = min n (bsize - off % bsize) := ⟨_, rfl⟩
    have hmn : m ≤ n := by omega
    have hm0 : 0 < m := by omega
    have hbn : off / bsize < maxfile := by
      rw [Nat.div_lt_iff_lt_mul (by decide)]
      omega
    rw [← hmdef]
    rw [List.length_cons]
    unfold writeLoop
    refine wp_then (bmap_spec hm hbn) ?_
    rintro r k1 ⟨hm1, hf1, ⟨c, hlog1⟩, hg1, ha1, hnone⟩
    obtain ⟨addr, d1⟩ := r
    dsimp only at hm1 hlog1 hg1 ha1 hnone ⊢
    have hcard : ({addr, c} : Finset Nat).card ≤ 2 := Finset.card_le_two
    have hw1 : Wrote E k d k1 d1 off [] := hg1.wrote hm1 hf1
    refine wp_ite (fun ha => ⟨0, 0, rfl, Nat.le_refl _, Nat.zero_le _, Nat.zero_le _,
      fun _ => ⟨rfl, fun _ => ⟨.inl rfl, hnone ha⟩⟩, ⟨_, (by omega : _ ≤ 2 * _), hlog1⟩, hw1⟩) (fun ha => ?_)
    have hs : slotAddr k1.data d1 (off / bsize) = addr := ha1 ha
    subst hs
    simp only [wp_bind, wp_get, setData, wp_modify]
    have hlen : (src.take m).length ≤ m := by
      rw [List.length_take]
      omega
    obtain ⟨data, hdata⟩ : ∃ data, data = update k1.data (slotAddr k1.data d1 (off / bsize))
      (blit (k1.data (slotAddr k1.data d1 (off / bsize))) (off % bsize) (src.take m)) := ⟨_, rfl⟩
    rw [← hdata]
    have hw2 : ∀ halted logged, Calm k1 { k1 with data := data, halted := halted, logged := logged } →
        Wrote E k d { k1 with data := data, halted := halted, logged := logged } d1 off (src.take m) := fun _ _ hl =>
      hw1.trans (show off + 0 ≤ _ by omega)
        (show Wrote E k1 d1 _ d1 off (src.take m) from wrote_slot hm1 hbn ha (by omega) rfl rfl rfl hl hdata)
    refine wp_ite (fun hshort => ?_) (fun hlong => ?_)
    · refine ⟨src.length, 0, rfl, Nat.zero_le _, Nat.le_refl _, by omega, fun h => by omega,
        ⟨_, (by omega : _ ≤ 2 * _), hlog1⟩, ?_⟩
      rw [List.take_length]
      have := hw2 k1.halted k1.logged ⟨rfl, fun _ => id, fun _ _ => rfl⟩
      rwa [List.take_of_length_le (by omega)] at this
    simp only [wp_bind, logWrite, wp_modify]
    have hlen' : (src.take m).length = m := by
      rw [List.length_take]
      omega
    have hw := hw2 _ (slotAddr k1.data d1 (off / bsize) :: k1.logged) (Calm.write _ rfl rfl rfl)
    have hlog2 : LogsIn {slotAddr k1.data d1 (off / bsize), c} k
        (Blocks.log { k1 with data := data } (slotAddr k1.data d1 (off / bsize))) := fun b hb => by
      rcases List.mem_cons.1 hb with rfl | hb
      · exact .inr (.inr (Finset.mem_insert_self _ _))
      · exact hlog1 b hb
    refine wp_use (writeLoop_spec fuel (off + m) (n - m) _ d1 (src.drop m) (tot + m) (by omega) (by omega) hw.marks) ?_
    rintro r k' ⟨t, done, hr, hle, hts, htn, hfull, ⟨S, hS, hlogS⟩, hw'⟩
    refine ⟨m + t, m + done, by omega, by omega, ?_, by omega, ?_, ⟨_, ?_, hlog2.trans hlogS hw.frame.sb⟩, ?_⟩
    · rw [List.length_drop] at hts
      omega
    · intro h
      rw [List.length_drop] at hfull
      obtain ⟨he, hstop⟩ := hfull (by omega)
      refine ⟨by omega, fun hlt => ?_⟩
      obtain ⟨hmod, hzero⟩ := hstop (by omega)
      rw [Nat.add_assoc] at hzero
      refine ⟨.inr ?_, ?_⟩
      · rcases hmod with h00 | hmod
        · subst h00
          unfold bsize at *
          omega
        · rw [← Nat.add_assoc]
          exact hmod
      · by_contra hne
        have hlt' : (off + (m + done)) / bsize < maxfile := by
          rw [Nat.div_lt_iff_lt_mul (by decide)]
          omega
        have hk1 := (hw.old (off + (m + done)) hlt' hne (.inr (by rw [hlen']; omega))).1
        exact hk1 hzero
    · have := Finset.card_union_le {slotAddr k1.data d1 (off / bsize), c} S
      omega
    · rw [List.take_add]
      exact hw.trans (by omega) (by rw [hlen']; exact hw')

end Xv6.Fs
