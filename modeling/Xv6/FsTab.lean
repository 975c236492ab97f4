import Xv6.FsBlock
/-!
# FsTab — the inode table: what the functions on inodes keep

`tree` is what the inodes mean: for every inode number that is in use, its type, link count and contents. `Mid v R L` is
what holds of a volume in the middle of a call: the references `R` are counted, the inodes `L` are locked, the copies in the
table agree with the inodes, the bitmap marks the blocks of the inodes, and what differs from the home locations is logged.
Each function on inodes says what it makes of `R`, `L` and the tree, and what it logs.

`Good v R` is what holds between calls of the references `R` that last: an inode without links is referenced. A reference
that was taken on top of `R` can then be given up without freeing an inode.
-/
namespace Xv6.Fs

open Multiset Function Wp

@[irreducible] def inums : List Nat := List.range 65536

variable {i n n' j p x : Nat} {d : Dinode} {own : Multiset Nat} {v' v'' v : Vol} {R' R : Multiset Ip}
  {a ip : Ip}

theorem mem_inums : i ∈ inums ↔ i < 65536 := by
  unfold inums
  exact List.mem_range

theorem nodup_inums : inums.Nodup := by
  unfold inums
  exact List.nodup_range

/-! ## Blocks and contents of the inodes -/

structure Node where
  type : IType
  major : Int
  minor : Int
  nlink : Int
  bytes : Bytes

abbrev Tree := Nat → Option Node

def bytesOf (data : Nat → Nat → UInt8) (d : Dinode) : Bytes := bytesAt data d 0 d.size

def nodeOf (data : Nat → Nat → UInt8) (d : Dinode) : Option Node :=
  if d.type = .none then none else some ⟨d.type, d.major, d.minor, d.nlink, bytesOf data d⟩

/-- **What the inodes on disk mean.** -/
def tree (v : Vol) : Tree := fun i => if i < 65536 then nodeOf v.blk.data (v.dinode i) else none

def blocksAt (data : Nat → Nat → UInt8) (d : Dinode) : Multiset Nat := if d.type = .none then 0 else blocksOf data d

/-- **The blocks owned by inodes.** -/
def owned (v : Vol) : Multiset Nat := (inums.map (fun i => blocksAt v.blk.data (v.dinode i))).sum

def others (v : Vol) (i : Nat) : Multiset Nat :=
  (inums.map (fun j => if j = i then 0 else blocksAt v.blk.data (v.dinode j))).sum

theorem owned_split (hi : i < 65536) : owned v = others v i + blocksAt v.blk.data (v.dinode i) := by
  have := Sum.sum_map_change (f := fun j => if j = i then 0 else blocksAt v.blk.data (v.dinode j))
    (g := fun j => blocksAt v.blk.data (v.dinode j)) nodup_inums (mem_inums.2 hi) (fun j _ hj => by simp [hj])
  simp only [if_true, add_zero] at this
  exact this

theorem blocksAt_le_others (hj : j < 65536) (hne : j ≠ i) : blocksAt v.blk.data (v.dinode j) ≤ others v i := by
  have := Sum.le_sum_map (f := fun j => if j = i then 0 else blocksAt v.blk.data (v.dinode j)) (mem_inums.2 hj)
  simp only [hne] at this
  exact this

variable {k k' : Blocks} {L : List Ip}

section
variable (hf : Frame own k k')
include hf

section
variable (hle : blocksOf k.data d ≤ own)
include hle

theorem byteAt_frame (hfull : Full k.data d) (hx : x < d.size) : byteAt k'.data d x = byteAt k.data d x := by
  obtain ⟨hbn, hne⟩ := hfull.at hx
  unfold byteAt
  rw [slotAddr_congr (fun hi => hf.data _ (mem_of_le hle (indirect_mem hi))),
    hf.data _ (mem_of_le hle (slotAddr_mem hbn hne))]

theorem full_frame (hfull : Full k.data d) : Full k'.data d := by
  intro bn hbn
  rw [slotAddr_congr (fun hi => hf.data _ (mem_of_le hle (indirect_mem hi)))]
  exact hfull bn hbn

theorem bytesOf_frame (hfull : Full k.data d) : bytesOf k'.data d = bytesOf k.data d := by
  refine List.map_congr_left (fun i hi => ?_)
  rw [zero_add]
  exact byteAt_frame hf hle hfull (List.mem_range.1 hi)

end

theorem nodeOf_frame
    (hle : blocksAt k.data d ≤ own) (hfull : d.type ≠ .none → Full k.data d) : nodeOf k'.data d = nodeOf k.data d := by
  unfold nodeOf
  split
  · rfl
  · rename_i ht
    rw [blocksAt, if_neg ht] at hle
    rw [bytesOf_frame hf hle (hfull ht)]

theorem blocksAt_frame (hle : blocksAt k.data d ≤ own) : blocksAt k'.data d = blocksAt k.data d := by
  unfold blocksAt at hle ⊢
  split
  · rfl
  · rename_i ht
    rw [if_neg ht] at hle
    exact blocksOf_congr (fun hi => hf.data _ (mem_of_le hle (indirect_mem hi)))

end

/-! ## The invariant inside a call -/

/-- **What differs from the home locations is logged.**  Of the data blocks, the indirect blocks: a write that finds its
source unreadable leaves what it has copied in a buffer that it does not log. -/
structure Synced (v : Vol) : Prop where
  dinode : ∀ i, iblock v.blk.sb i ∉ v.blk.logged → (v.disk (iblock v.blk.sb i)).dinode (i % 16) = v.dinode i
  bit : ∀ b, bblock v.blk.sb b ∉ v.blk.logged → (v.disk (bblock v.blk.sb b)).bit (b % (bsize * 8)) = v.blk.bit b
  ind : ∀ i < 65536, (v.dinode i).type ≠ .none → (v.dinode i).addrs ndirect ≠ 0 →
    (v.dinode i).addrs ndirect ∉ v.blk.logged →
      (v.disk ((v.dinode i).addrs ndirect)).bytes = v.blk.data ((v.dinode i).addrs ndirect)

structure Mid (v : Vol) (R : Multiset Ip) (L : List Ip) : Prop where
  refs : ∀ a, (v.inode a).ref = R.count a
  locks : v.locks = L
  nodup : L.Nodup
  locked : ∀ a ∈ L, a ∈ R ∧ (v.inode a).valid = true
  uniq : ∀ a ∈ R, ∀ b ∈ R, (v.inode a).inum = (v.inode b).inum → a = b
  coherent : ∀ a ∈ R, (v.inode a).valid = true →
    (v.inode a).din = v.dinode (v.inode a).inum ∧ (v.inode a).din.type ≠ .none
  inum : ∀ a ∈ R, (v.inode a).inum < 65536
  marks : Marks v.blk (owned v)
  full : ∀ i < 65536, (v.dinode i).type ≠ .none → Full v.blk.data (v.dinode i)
  reads : v.blk.readAllocs = 0
  synced : Synced v
  nlink : ∀ i, short (v.dinode i).nlink = (v.dinode i).nlink
  outside : ∀ i, i = 0 ∨ v.blk.sb.ninodes ≤ i → (v.dinode i).type = .none

/-- The references `R` stay with their inodes, which keep their type, at most `n` inodes have been locked at once, and no
transaction has begun or ended. -/
structure Stays (R : Multiset Ip) (n : Nat) (v v' : Vol) : Prop where
  inum : ∀ a ∈ R, (v'.inode a).inum = (v.inode a).inum
  valid : ∀ a ∈ R, (v.inode a).valid = true →
    (v'.inode a).valid = true ∧ (v'.inode a).din.type = (v.inode a).din.type
  peak : v'.peak ≤ max v.peak n
  calm : Calm v.blk v'.blk
  log : v'.blk.sb = v.blk.sb ∧ v'.outstanding = v.outstanding ∧ v'.disk = v.disk ∧ v'.trans = v.trans

theorem Stays.refl (R : Multiset Ip) (n : Nat) (v : Vol) : Stays R n v v :=
  ⟨fun _ _ => rfl, fun _ _ h => ⟨h, rfl⟩, le_max_left _ _, Calm.refl _, rfl, rfl, rfl, rfl⟩

theorem Stays.trans (h : Stays R n v v') (h' : Stays R n v' v'') : Stays R n v v'' := by
  refine ⟨fun a ha => (h'.inum a ha).trans (h.inum a ha), fun a ha hv => ?_, ?_, h.calm.trans h'.calm, h'.log.1.trans h.log.1,
    h'.log.2.1.trans h.log.2.1, h'.log.2.2.1.trans h.log.2.2.1, h'.log.2.2.2.trans h.log.2.2.2⟩
  · obtain ⟨hv', ht⟩ := h.valid a ha hv
    obtain ⟨hv'', ht'⟩ := h'.valid a ha hv'
    exact ⟨hv'', ht'.trans ht⟩
  · have := h.peak
    have := h'.peak
    omega

theorem Stays.mono (h : Stays R n v v') (hle : R' ≤ R) (hn : n ≤ n') : Stays R' n' v v' :=
  ⟨fun a ha => h.inum a (mem_of_le hle ha), fun a ha => h.valid a (mem_of_le hle ha), by
    have := h.peak
    omega, h.calm, h.log⟩

/-- The inodes and the blocks are as before. -/
def Quiet (v v' : Vol) : Prop := v'.blk = v.blk ∧ v'.dinode = v.dinode

theorem Quiet.refl (v : Vol) : Quiet v v := ⟨rfl, rfl⟩

theorem Quiet.trans (h : Quiet v v') (h' : Quiet v' v'') : Quiet v v'' := ⟨h'.1.trans h.1, h'.2.trans h.2⟩

theorem Quiet.tree (h : Quiet v v') : tree v' = tree v := by
  unfold Fs.tree
  rw [h.1, h.2]

theorem Quiet.owned (h : Quiet v v') : owned v' = owned v := by
  unfold Fs.owned
  rw [h.1, h.2]

/-- **What has been logged**: bitmap blocks, the inodes `I`, and at most `n` other blocks. -/
def Logs (I : Finset Nat) (n : Nat) (v v' : Vol) : Prop :=
  ∃ S : Finset Nat, S.card ≤ n ∧ LogsIn (S ∪ I.image (iblock v.blk.sb)) v.blk v'.blk

theorem Logs.mono {I I' : Finset Nat} (h : Logs I n v v') (hI : I ⊆ I') (hn : n ≤ n') : Logs I' n' v v' := by
  obtain ⟨S, hS, hlog⟩ := h
  exact ⟨S, by omega, hlog.mono (Finset.union_subset_union_right (Finset.image_subset_image hI))⟩

theorem Logs.trans {I I' : Finset Nat} (h : Logs I n v v') (h' : Logs I' n' v' v'')
    (hsb : v'.blk.sb = v.blk.sb) : Logs (I ∪ I') (n + n') v v'' := by
  obtain ⟨S, hS, hlog⟩ := h
  obtain ⟨S', hS', hlog'⟩ := h'
  rw [hsb] at hlog'
  have hcard := Finset.card_union_le S S'
  refine ⟨S ∪ S', by omega, (hlog.trans hlog' hsb).mono ?_⟩
  rw [Finset.image_union]
  intro x hx
  simp only [Finset.mem_union] at hx ⊢
  tauto

theorem Quiet.logs (h : Quiet v v') : Logs ∅ 0 v v' := ⟨∅, le_refl _, by rw [h.1]; exact LogsIn.refl _ _⟩

def nodeAt (v : Vol) (a : Ip) : Node :=
  let d := (v.inode a).din
  ⟨d.type, d.major, d.minor, d.nlink, bytesOf v.blk.data d⟩

section
variable (h : Mid v R L)
include h

section
variable (ha : a ∈ R)
include ha

theorem Mid.node (hv : (v.inode a).valid = true) : tree v (v.inode a).inum = some (nodeAt v a) := by
  obtain ⟨hd, ht⟩ := h.coherent a ha hv
  rw [hd] at ht
  unfold tree nodeOf nodeAt
  rw [if_pos (h.inum a ha), if_neg ht, hd]

theorem Mid.fullAt (hv : (v.inode a).valid = true) : Full v.blk.data (v.inode a).din := by
  obtain ⟨hd, ht⟩ := h.coherent a ha hv
  rw [hd] at ht ⊢
  exact h.full _ (h.inum a ha) ht

theorem Mid.nlinkAt (hv : (v.inode a).valid = true) : short (v.inode a).din.nlink = (v.inode a).din.nlink := by
  rw [(h.coherent a ha hv).1]
  exact h.nlink _

theorem Mid.inside (hv : (v.inode a).valid = true) : 0 < (v.inode a).inum ∧ (v.inode a).inum < v.blk.sb.ninodes := by
  obtain ⟨hd, ht⟩ := h.coherent a ha hv
  rw [hd] at ht
  by_contra hn
  exact ht (h.outside _ (by omega))

theorem Mid.marksAt (hv : (v.inode a).valid = true) :
    Marks v.blk (others v (v.inode a).inum + blocksOf v.blk.data (v.inode a).din) := by
  obtain ⟨hd, ht⟩ := h.coherent a ha hv
  have hm := h.marks
  rw [owned_split (h.inum a ha), blocksAt, if_neg (hd ▸ ht), ← hd] at hm
  exact hm

theorem Mid.ref_pos : 1 ≤ (v.inode a).ref := by
  have := h.refs a
  have := Multiset.count_pos.2 ha
  omega

end

theorem Mid.node_locked (ha : a ∈ L) : tree v (v.inode a).inum = some (nodeAt v a) :=
  h.node (h.locked a ha).1 (h.locked a ha).2

theorem Mid.nodeAt_eq {n : Node} (ha : a ∈ L) (hn : tree v (v.inode a).inum = some n) : nodeAt v a = n :=
  Option.some.inj ((h.node_locked ha).symm.trans hn)

theorem Mid.mem_of_ref (ha : 0 < (v.inode a).ref) : a ∈ R := by
  rw [h.refs a] at ha
  exact Multiset.count_pos.1 (by omega)

theorem Mid.change (hi : i < 65536) (hd : v'.dinode = update v.dinode i d)
    (hm : Marks v'.blk (others v i + blocksAt v'.blk.data d)) (hf : Frame (others v i) v.blk v'.blk)
    (hfull : d.type ≠ .none → Full v'.blk.data d) (hnlink : short d.nlink = d.nlink)
    (hout : d.type ≠ .none → 0 < i ∧ i < v.blk.sb.ninodes) (hdisk : v'.disk = v.disk)
    (hlog : iblock v.blk.sb i ∈ v'.blk.logged) (hind : d.type ≠ .none → d.addrs ndirect ≠ 0 → d.addrs ndirect ∉ v'.blk.logged →
      (v.disk (d.addrs ndirect)).bytes = v'.blk.data (d.addrs ndirect)) (hlocks : v'.locks = v.locks)
    (hslot : ∀ a, (v'.inode a).ref = (v.inode a).ref ∧ (v'.inode a).inum = (v.inode a).inum)
    (hlocked : ∀ a ∈ L, (v'.inode a).valid = true)
    (hco : ∀ a ∈ R, (v'.inode a).valid = true → (v.inode a).inum = i → (v'.inode a).din = d ∧ d.type ≠ .none)
    (hkeep : ∀ a ∈ R, (v.inode a).inum ≠ i → v'.inode a = v.inode a) :
    Mid v' R L ∧ tree v' = update (tree v) i (nodeOf v'.blk.data d) := by
  have hother : ∀ j < 65536, j ≠ i → blocksAt v'.blk.data (v.dinode j) = blocksAt v.blk.data (v.dinode j) :=
    fun j hj hne => blocksAt_frame hf (blocksAt_le_others hj hne)
  have hothers : others v' i = others v i := by
    refine Sum.sum_map_congr (fun j hj => ?_)
    rw [hd]
    by_cases e : j = i
    · rw [if_pos e, if_pos e]
    · rw [if_neg e, if_neg e, update_of_ne e]
      exact hother j (mem_inums.1 hj) e
  refine ⟨⟨fun a => ?_, ?_, h.nodup, fun a ha => ⟨(h.locked a ha).1, hlocked a ha⟩, fun a ha b hb e => ?_, fun a ha hv => ?_,
    fun a ha => ?_, ?_, fun j hj ht => ?_, ?_, ⟨fun j hj => ?_, fun b hb => ?_, fun j hj ht hne hnl => ?_⟩, fun j => ?_,
    fun j hj => ?_⟩, ?_⟩
  · rw [(hslot a).1]
    exact h.refs a
  · rw [hlocks]
    exact h.locks
  · rw [(hslot a).2, (hslot b).2] at e
    exact h.uniq a ha b hb e
  · rw [(hslot a).2]
    by_cases e : (v.inode a).inum = i
    · obtain ⟨h1, h2⟩ := hco a ha hv e
      rw [h1, hd, e, update_self]
      exact ⟨rfl, h2⟩
    · rw [hkeep a ha e] at hv ⊢
      rw [hd, update_of_ne e]
      exact h.coherent a ha hv
  · rw [(hslot a).2]
    exact h.inum a ha
  · rw [owned_split hi, hothers, hd, update_self]
    exact hm
  · rw [hd] at ht ⊢
    by_cases e : j = i
    · subst e
      rw [update_self] at ht ⊢
      exact hfull ht
    · rw [update_of_ne e] at ht ⊢
      have hle := blocksAt_le_others (v := v) hj e
      rw [blocksAt, if_neg ht] at hle
      exact full_frame hf hle (h.full j hj ht)
  · rw [hf.reads]
    exact h.reads
  · rw [hf.sb] at hj
    have hne : j ≠ i := fun e => hj (e ▸ hlog)
    rw [hf.sb, hdisk, hd, update_of_ne hne]
    exact h.synced.dinode j (fun hm => hj (hf.logged _ hm))
  · rw [hf.sb] at hb
    rw [hf.sb, hdisk, hf.bits b hb]
    exact h.synced.bit b (fun hm => hb (hf.logged _ hm))
  · rw [hd] at ht hne hnl ⊢
    rw [hdisk]
    by_cases e : j = i
    · subst e
      rw [update_self] at ht hne hnl ⊢
      exact hind ht hne hnl
    · rw [update_of_ne e] at ht hne hnl ⊢
      have hle := blocksAt_le_others (v := v) hj e
      rw [blocksAt, if_neg ht] at hle
      rw [hf.data _ (mem_of_le hle (indirect_mem hne))]
      exact h.synced.ind j hj ht hne (fun hm => hnl (hf.logged _ hm))
  · rw [hd]
    by_cases e : j = i
    · subst e
      rw [update_self]
      exact hnlink
    · rw [update_of_ne e]
      exact h.nlink j
  · rw [hf.sb] at hj
    rw [hd]
    by_cases e : j = i
    · subst e
      rw [update_self]
      by_contra ht
      have := hout ht
      omega
    · rw [update_of_ne e]
      exact h.outside j hj
  · funext j
    unfold tree
    rw [hd]
    by_cases e : j = i
    · subst e
      rw [update_self, update_self, if_pos hi]
    rw [update_of_ne e, update_of_ne e]
    split
    · rename_i hj
      exact nodeOf_frame hf (blocksAt_le_others hj e) (h.full j hj)
    · rfl

end

/-! ## Slots -/

variable {v : Vol} {R : Multiset Ip} {L L' : List Ip} {F : Panic → Prop} {x : Inode}

theorem Synced.quiet (h : Synced v) (hq : Quiet v v') (hdisk : v'.disk = v.disk) : Synced v' := by
  refine ⟨fun i => ?_, fun b => ?_, fun i => ?_⟩
  · rw [hq.1, hq.2, hdisk]
    exact h.dinode i
  · rw [hq.1, hdisk]
    exact h.bit b
  · rw [hq.1, hq.2, hdisk]
    exact h.ind i

theorem Mid.recount (h : Mid v R L) (hq : Quiet v v')
    (hdisk : v'.disk = v.disk) (hslot : ∀ a, (v'.inode a).inum = (v.inode a).inum ∧ (v'.inode a).valid = (v.inode a).valid ∧
      (v'.inode a).din = (v.inode a).din)
    (hrefs : ∀ a, (v'.inode a).ref = R'.count a) (hR : ∀ a ∈ R', a ∈ R) (hlocks : v'.locks = L') (hnodup : L'.Nodup)
    (hL : ∀ a ∈ L', a ∈ R' ∧ (v.inode a).valid = true) : Mid v' R' L' := by
  refine ⟨hrefs, hlocks, hnodup, fun a ha => ?_, fun a ha b hb => ?_, fun a ha => ?_, fun a ha => ?_, ?_, ?_, ?_,
    h.synced.quiet hq hdisk, by rw [hq.2]; exact h.nlink, by rw [hq.1, hq.2]; exact h.outside⟩
  · rw [(hslot a).2.1]
    exact hL a ha
  · rw [(hslot a).1, (hslot b).1]
    exact h.uniq a (hR a ha) b (hR b hb)
  · rw [(hslot a).1, (hslot a).2.1, (hslot a).2.2, hq.2]
    exact h.coherent a (hR a ha)
  · rw [(hslot a).1]
    exact h.inum a (hR a ha)
  · rw [hq.owned, hq.1]
    exact h.marks
  · rw [hq.1, hq.2]
    exact h.full
  · rw [hq.1]
    exact h.reads

theorem Mid.refill (h : Mid v R L) (hq : Quiet v v')
    (hdisk : v'.disk = v.disk) (hslot : ∀ b, b ≠ a → v'.inode b = v.inode b)
    (hrefs : ∀ b, (v'.inode b).ref = R'.count b) (hR : ∀ b ∈ R', b ≠ a → b ∈ R)
    (hinum : (v'.inode a).inum < 65536) (hnew : ∀ b ∈ R, b ≠ a → (v.inode b).inum ≠ (v'.inode a).inum)
    (hdin : (v'.inode a).valid = true →
      (v'.inode a).din = v.dinode (v'.inode a).inum ∧ (v.dinode (v'.inode a).inum).type ≠ .none)
    (hlocks : v'.locks = L') (hnodup : L'.Nodup) (hL : ∀ b ∈ L', b ∈ R' ∧ (v'.inode b).valid = true) : Mid v' R' L' := by
  refine ⟨hrefs, hlocks, hnodup, hL, fun b hb c hc e => ?_, fun b hb hv => ?_, fun b hb => ?_, ?_, ?_, ?_,
    h.synced.quiet hq hdisk, by rw [hq.2]; exact h.nlink, by rw [hq.1, hq.2]; exact h.outside⟩
  · by_cases eb : b = a <;> by_cases ec : c = a
    · rw [eb, ec]
    · rw [eb, hslot c ec] at e
      exact absurd e.symm (hnew c (hR c hc ec) ec)
    · rw [ec, hslot b eb] at e
      exact absurd e (hnew b (hR b hb eb) eb)
    · rw [hslot b eb, hslot c ec] at e
      exact h.uniq b (hR b hb eb) c (hR c hc ec) e
  · by_cases eb : b = a
    · subst eb
      obtain ⟨h1, h2⟩ := hdin hv
      rw [hq.2, h1]
      exact ⟨rfl, h2⟩
    · rw [hslot b eb] at hv ⊢
      rw [hq.2]
      exact h.coherent b (hR b hb eb) hv
  · by_cases eb : b = a
    · rw [eb]
      exact hinum
    · rw [hslot b eb]
      exact h.inum b (hR b hb eb)
  · rw [hq.owned, hq.1]
    exact h.marks
  · rw [hq.1, hq.2]
    exact h.full
  · rw [hq.1]
    exact h.reads

theorem wp_onBlocks {α : Type} {m : BM α} {Q : α → Vol → Prop} :
    wp (onBlocks m) Q F v ↔ wp m (fun a k => Q a { v with blk := k }) F v.blk := by
  unfold wp onBlocks
  simp only [StateT.run]
  cases m v.blk with
  | ok r => rfl
  | error e => rfl

@[simp] theorem wp_din {Q : Dinode → Vol → Prop} : wp (din ip) Q F v ↔ Q (v.inode ip).din v := Iff.rfl

@[simp] theorem wp_inumOf {Q : Nat → Vol → Prop} : wp (inumOf ip) Q F v ↔ Q (v.inode ip).inum v := Iff.rfl

@[simp] theorem wp_setInode {Q : PUnit → Vol → Prop} :
    wp (setInode ip x) Q F v ↔ Q ⟨⟩ { v with inode := update v.inode ip x } := Iff.rfl

theorem mem_slots (a : Ip) : a ∈ slots := List.mem_finRange a

theorem count_cons_update {f : Ip → Inode} (hf : ∀ b, (f b).ref = R.count b) (hx : x.ref = R.count a + 1)
    (b : Ip) : (update f a x b).ref = (a ::ₘ R).count b := by
  by_cases e : b = a
  · subst e
    rw [update_self, count_cons_self, hx]
    push_cast
    rfl
  · rw [update_of_ne e, count_cons_of_ne e, hf b]

theorem Mid.dup (h : Mid v R L) (ha : a ∈ R) :
    Mid { v with inode := update v.inode a { v.inode a with ref := (v.inode a).ref + 1 } } (a ::ₘ R) L := by
  refine h.recount ⟨rfl, rfl⟩ rfl (fun b => ?_) (count_cons_update h.refs (by rw [h.refs a])) (fun b hb => ?_) h.locks h.nodup
    (fun b hb => ⟨mem_cons_of_mem (h.locked b hb).1, (h.locked b hb).2⟩)
  · by_cases e : b = a
    · subst e
      simp
    · simp [update_of_ne e]
  · rcases Multiset.mem_cons.1 hb with rfl | hb
    · exact ha
    · exact hb

theorem stays_ref {r : Int} : Stays R n v { v with inode := update v.inode a { v.inode a with ref := r } } := by
  refine ⟨fun b _ => ?_, fun b _ hv => ?_, le_max_left _ _, Calm.refl _, rfl, rfl, rfl, rfl⟩
  · by_cases e : b = a
    · subst e
      simp
    · simp [update_of_ne e]
  · by_cases e : b = a
    · subst e
      simpa using hv
    · simpa [update_of_ne e] using hv

section
variable (h : Mid v R L)
include h

theorem idup_spec (ha : a ∈ R) :
    wp (idup a) (fun r v' => r = a ∧ Mid v' (a ::ₘ R) L ∧ Quiet v v' ∧ Stays R 0 v v') F v := by
  unfold idup
  simp only [wp_bind, wp_get, wp_setInode, wp_pure]
  exact ⟨trivial, h.dup ha, ⟨rfl, rfl⟩, stays_ref⟩

def Held (v : Vol) (R : Multiset Ip) (i : Nat) : Prop := ∃ a ∈ R, (v.inode a).inum = i

theorem iget_spec (hi : i < 65536) :
    wp (iget i) (fun a v' => Mid v' (a ::ₘ R) L ∧ Quiet v v' ∧ Stays R 0 v v' ∧ (v'.inode a).inum = i ∧
      (a ∉ R → (v'.inode a).valid = false) ∧ (a ∈ R ∨ ¬ Held v R i))
      (fun e => e = .igetNoInodes ∧ ¬ Held v R i ∧ ∀ a, a ∈ R) v := by
  unfold iget
  rw [wp_bind, wp_get]
  split
  · rename_i a ha
    have hp := List.find?_some ha
    simp only [decide_eq_true_eq] at hp
    simp only [wp_bind, wp_setInode, wp_pure]
    have hmem := h.mem_of_ref hp.1
    exact ⟨h.dup hmem, ⟨rfl, rfl⟩, stays_ref, by rw [update_self]; exact hp.2, fun hn => absurd hmem hn, .inl hmem⟩
  rename_i hnone
  have hnew : ∀ b ∈ R, (v.inode b).inum ≠ i := fun b hb e => by
    have := List.find?_eq_none.1 hnone b (mem_slots b)
    simp only [decide_eq_true_eq, not_and] at this
    exact this (by have := h.ref_pos hb; omega) e
  have hheld : ¬ Held v R i := by
    rintro ⟨b, hb, e⟩
    exact hnew b hb e
  split
  · rename_i hfull
    refine ⟨rfl, hheld, fun b => h.mem_of_ref ?_⟩
    have := List.find?_eq_none.1 hfull b (mem_slots b)
    simp only [decide_eq_true_eq] at this
    have := h.refs b
    omega
  rename_i a ha
  have hp := List.find?_some ha
  simp only [decide_eq_true_eq] at hp
  have hnot : a ∉ R := fun hm => by
    have := h.ref_pos hm
    omega
  simp only [wp_bind, wp_setInode, wp_pure]
  have hne : ∀ b ∈ R, b ≠ a := fun b hb e => hnot (e ▸ hb)
  obtain ⟨x, hx⟩ : ∃ x : Inode, x = { v.inode a with inum := i, ref := 1, valid := false } := ⟨_, rfl⟩
  rw [← hx]
  obtain ⟨v', hv'⟩ : ∃ v', v' = { v with inode := update v.inode a x } := ⟨_, rfl⟩
  have hslot : ∀ b, b ≠ a → v'.inode b = v.inode b := fun b hb => by rw [hv']; exact update_of_ne hb _ _
  have hself : v'.inode a = { v.inode a with inum := i, ref := 1, valid := false } := by
    rw [hv', ← hx]
    exact update_self ..
  rw [← hv']
  have hq : Quiet v v' := by rw [hv']; exact ⟨rfl, rfl⟩
  have hmid : Mid v' (a ::ₘ R) L := h.refill hq (by rw [hv']) hslot
    (by rw [hv']; exact count_cons_update h.refs (by rw [Multiset.count_eq_zero_of_notMem hnot, hx]; rfl))
    (fun b hb => (Multiset.mem_cons.1 hb).resolve_left) (by rw [hself]; exact hi)
    (fun b hb _ => by rw [hself]; exact hnew b hb) (by rw [hself]; exact fun e => by cases e)
    (by rw [hv']; exact h.locks) h.nodup (fun b hb => ⟨mem_cons_of_mem (h.locked b hb).1, by
      rw [hslot b (hne b (h.locked b hb).1)]; exact (h.locked b hb).2⟩)
  refine ⟨hmid, hq, ⟨fun b hb => ?_, fun b hb hv => ?_, ?_, ?_, ?_⟩, by rw [update_self, hx],
    fun _ => by rw [update_self, hx], .inr hheld⟩
  · rw [hslot b (hne b hb)]
  · rw [hslot b (hne b hb)]
    exact ⟨hv, rfl⟩
  · rw [hv']
    exact le_max_left _ _
  · rw [hq.1]
    exact Calm.refl _
  · rw [hv']
    exact ⟨rfl, rfl, rfl, rfl⟩

/-! ## Locks -/

theorem Mid.lock (ha : a ∈ R) (hv : (v.inode a).valid = true) (hL : a ∉ L) :
    Mid { v with locks := a :: L, peak := p } R (a :: L) :=
  h.recount ⟨rfl, rfl⟩ rfl (fun _ => ⟨rfl, rfl, rfl⟩) h.refs (fun _ hb => hb) rfl (List.nodup_cons.2 ⟨hL, h.nodup⟩)
    (fun b hb => by
      rcases List.mem_cons.1 hb with rfl | hb
      · exact ⟨ha, hv⟩
      · exact h.locked b hb)

theorem Mid.unlock (a : Ip) : Mid { v with locks := v.locks.erase a } R (L.erase a) := by
  refine h.recount ⟨rfl, rfl⟩ rfl (fun _ => ⟨rfl, rfl, rfl⟩) h.refs (fun _ hb => hb) ?_ (h.nodup.erase a)
    (fun b hb => h.locked b (List.mem_of_mem_erase hb))
  rw [h.locks]

theorem ilock_spec (ha : a ∈ R) (hL : a ∉ L ∨ F .deadlock) (ht : F .ilockNoType ∨ tree v (v.inode a).inum ≠ none) :
    wp (ilock a) (fun _ v' => a ∉ L ∧ Mid v' R (a :: L) ∧ Quiet v v' ∧ Stays R (L.length + 1) v v') F v := by
  unfold ilock acquiresleep
  have href : ¬ (v.inode a).ref < 1 := by
    have := h.ref_pos ha
    omega
  simp only [wp_bind, wp_get, href, if_false, h.locks]
  refine wp_ite (fun hmem => hL.resolve_left (fun hn => hn hmem)) (fun hn => ?_)
  have hpeak : max v.peak (L.length + 1) ≤ max v.peak (L.length + 1) := le_refl _
  refine wp_ite (fun hv => ?_) (fun hv => ?_)
  · exact ⟨hn, h.lock ha hv hn, ⟨rfl, rfl⟩, fun _ _ => rfl, fun _ _ h => ⟨h, rfl⟩, hpeak, Calm.refl _, rfl, rfl, rfl, rfl⟩
  simp only [wp_setInode, wp_bind]
  refine wp_ite (fun hty => ?_) (fun hty => ?_)
  · refine ht.resolve_right (fun hne => hne ?_)
    unfold tree nodeOf
    rw [if_pos (h.inum a ha), if_pos hty]
  obtain ⟨x, hx⟩ : ∃ x : Inode, x = { v.inode a with din := v.dinode (v.inode a).inum, valid := true } := ⟨_, rfl⟩
  rw [← hx]
  obtain ⟨v', hv'⟩ : ∃ v' : Vol, v' = { v with locks := a :: L, peak := max v.peak (L.length + 1),
                                               inode := update v.inode a x } := ⟨_, rfl⟩
  rw [← hv']
  have hslot : ∀ b, b ≠ a → v'.inode b = v.inode b := fun b hb => by rw [hv']; exact update_of_ne hb _ _
  have hself : v'.inode a = { v.inode a with din := v.dinode (v.inode a).inum, valid := true } := by
    rw [hv', ← hx]
    exact update_self ..
  have hq : Quiet v v' := by rw [hv']; exact ⟨rfl, rfl⟩
  have hmid : Mid v' R (a :: L) := by
    refine h.refill hq (by rw [hv']) hslot (fun b => ?_) (fun b hb _ => hb)
      (by rw [hself]; exact h.inum a ha) (fun b hb e => ?_) (fun _ => by rw [hself]; exact ⟨rfl, hty⟩) (by rw [hv'])
      (List.nodup_cons.2 ⟨hn, h.nodup⟩) (fun b hb => ?_)
    · by_cases e : b = a
      · rw [e, hself]
        exact h.refs a
      · rw [hslot b e]
        exact h.refs b
    · rw [hself]
      exact fun he => e (h.uniq b hb a ha he)
    by_cases e : b = a
    · rw [e, hself]
      exact ⟨ha, rfl⟩
    · rw [hslot b e]
      exact h.locked b ((List.mem_cons.1 hb).resolve_left e)
  refine ⟨hn, hmid, hq, fun b hb => ?_, fun b hb hv' => ?_, by rw [hv'], by rw [hq.1]; exact Calm.refl _,
    by rw [hv']; exact ⟨rfl, rfl, rfl, rfl⟩⟩
  · by_cases e : b = a
    · rw [e, hself]
    · rw [hslot b e]
  · have e : b ≠ a := fun e => hv (e ▸ hv')
    rw [hslot b e]
    exact ⟨hv', rfl⟩

end

theorem iunlock_spec (h : Mid v R (a :: L)) :
    wp (iunlock a) (fun _ v' => Mid v' R L ∧ Quiet v v' ∧ Stays R 0 v v') F v := by
  unfold iunlock releasesleep
  have ha : a ∈ a :: L := List.mem_cons_self
  have href := h.ref_pos (h.locked a ha).1
  rw [wp_bind, wp_get]
  rw [if_neg (by rw [h.locks]; simp only [not_or, not_not]; exact ⟨ha, by omega⟩), wp_modify]
  have h' := h.unlock a
  rw [List.erase_cons_head] at h'
  exact ⟨h', ⟨rfl, rfl⟩, fun _ _ => rfl, fun _ _ h => ⟨h, rfl⟩, le_max_left _ _, Calm.refl _, rfl, rfl, rfl, rfl⟩

/-! ## Changing an inode -/

section
variable (h : Mid v R L)
include h

theorem Mid.indHome (ha : a ∈ L)
    (hind : IndLogged v.blk (v.inode a).din k d) (hl : ∀ b ∈ v.blk.logged, b ∈ k.logged) (hne : d.addrs ndirect ≠ 0)
    (hn : d.addrs ndirect ∉ k.logged) : (v.disk (d.addrs ndirect)).bytes = k.data (d.addrs ndirect) := by
  obtain ⟨haR, hav⟩ := h.locked a ha
  obtain ⟨hd, ht⟩ := h.coherent a haR hav
  obtain ⟨he, hdata⟩ := (hind hne).resolve_left hn
  rw [he] at hne hn ⊢
  rw [hdata]
  rw [hd] at ht hne hn ⊢
  exact h.synced.ind _ (h.inum a haR) ht hne (fun hm => hn (hl _ hm))

theorem iassign_spec {S : Finset Nat} (ha : a ∈ L)
    (hm : Marks k (others v (v.inode a).inum + blocksOf k.data d)) (hf : Frame (others v (v.inode a).inum) v.blk k)
    (hfull : Full k.data d) (ht : d.type = (v.inode a).din.type) (hnlink : short d.nlink = d.nlink)
    (hind : IndLogged v.blk (v.inode a).din k d) (hlog : LogsIn S v.blk k) :
    wp (iassign a d) (fun _ v' => Mid v' R L ∧ tree v' = update (tree v) (v.inode a).inum (nodeOf k.data d) ∧
      Stays R 0 v v' ∧ Logs {(v.inode a).inum} S.card v v' ∧ (v'.inode a).din = d) F { v with blk := k } := by
  obtain ⟨haR, hav⟩ := h.locked a ha
  have htn : d.type ≠ .none := by
    rw [ht]
    exact (h.coherent a haR hav).2
  unfold iassign setDin iupdate
  simp only [wp_bind, wp_get, wp_setInode, wp_set, wp_onBlocks, update_self]
  obtain ⟨x, hx⟩ : ∃ x : Inode, x = { v.inode a with din := d } := ⟨_, rfl⟩
  rw [← hx]
  have hcalm : Calm v.blk (k.log (iblock k.sb (v.inode a).inum)) := hf.calm.trans (Calm.write _ rfl rfl rfl)
  obtain ⟨v', hv'⟩ : ∃ v' : Vol, v' = { v with blk := k.log (iblock k.sb (v.inode a).inum),
                                               dinode := update v.dinode (v.inode a).inum d,
                                               inode := update v.inode a x } := ⟨_, rfl⟩
  have hslot : ∀ b, b ≠ a → v'.inode b = v.inode b := fun b hb => by rw [hv']; exact update_of_ne hb _ _
  have hself : v'.inode a = x := by
    rw [hv']
    exact update_self ..
  have hlogged : v'.blk.logged = iblock v.blk.sb (v.inode a).inum :: k.logged := by rw [hv', ← hf.sb]
  have hkeep : ∀ b, (v'.inode b).ref = (v.inode b).ref ∧ (v'.inode b).inum = (v.inode b).inum ∧
      (v'.inode b).valid = (v.inode b).valid ∧ (v'.inode b).din.type = (v.inode b).din.type := fun b => by
    by_cases e : b = a
    · rw [e, hself, hx]
      exact ⟨rfl, rfl, rfl, ht⟩
    · rw [hslot b e]
      exact ⟨rfl, rfl, rfl, rfl⟩
  have hmid : Mid v' R L ∧ tree v' = update (tree v) (v.inode a).inum (nodeOf v'.blk.data d) := by
    refine h.change (h.inum a haR) (by rw [hv']) ?_ ?_ (fun _ => by rw [hv']; exact hfull) hnlink
      (fun _ => h.inside haR hav) (by rw [hv']) (by rw [hlogged]; exact List.mem_cons_self) (fun _ hne hn => ?_) (by rw [hv'])
      (fun b => ⟨(hkeep b).1, (hkeep b).2.1⟩) (fun b hb => by rw [(hkeep b).2.2.1]; exact (h.locked b hb).2)
      (fun b hb _ e => ?_) (fun b hb e => hslot b (fun e' => e (by rw [e'])))
    · rw [hv', blocksAt, if_neg htn]
      exact hm.congr rfl rfl
    · rw [hv']
      exact ⟨hf.sb, hf.reads, hf.data, hcalm,
        fun b hb => hf.bits b (fun hm => hb (List.mem_cons_of_mem _ hm))⟩
    · rw [hlogged] at hn
      rw [hv']
      exact h.indHome (k := k) ha hind hf.logged hne (fun hm => hn (List.mem_cons_of_mem _ hm))
    · rw [h.uniq b hb a haR e, hself, hx]
      exact ⟨rfl, htn⟩
  rw [hv'] at hmid
  refine ⟨hmid.1, hmid.2, ⟨fun b _ => ?_, fun b _ hb => ?_, le_max_left _ _, hcalm, hf.sb, hf.calm.outstanding, rfl, rfl⟩,
    ⟨S, le_refl _, fun b hb => ?_⟩, trivial⟩
  · have := (hkeep b).2.1
    rwa [hv'] at this
  · have := (hkeep b).2.2
    rw [hv'] at this
    exact ⟨this.1.trans hb, this.2⟩
  · rcases List.mem_cons.1 hb with rfl | hb
    · refine .inr (.inr (Finset.mem_union_right _ (Finset.mem_image.2 ⟨_, Finset.mem_singleton_self _, ?_⟩)))
      rw [hf.sb]
    · exact (hlog.mono Finset.subset_union_left) b hb

theorem itrunc_spec (ha : a ∈ L) :
    wp (itrunc a) (fun _ v' => Mid v' R L ∧ tree v' = update (tree v) (v.inode a).inum
      (some { nodeAt v a with bytes := [] }) ∧ Stays R 0 v v' ∧ Logs {(v.inode a).inum} 0 v v' ∧
      (v'.inode a).din = { (v.inode a).din with size := 0, addrs := fun _ => 0 }) F v := by
  obtain ⟨haR, hav⟩ := h.locked a ha
  have ht := (h.coherent a haR hav).2
  unfold itrunc
  rw [wp_bind, wp_din, wp_bind, wp_onBlocks]
  refine wp_use (truncBlocks_spec (h.marksAt haR hav)) (fun d k ⟨hd, hm, hf, hlog⟩ => ?_)
  have hadd : d.addrs = fun _ => 0 := by rw [hd]
  have hsize : d.size = 0 := by rw [hd]
  have hty : d.type = (v.inode a).din.type := by rw [hd]
  refine wp_use (iassign_spec h ha (by rw [blocksOf_none hadd, add_zero]; exact hm) hf
    (fun bn hbn => absurd hbn (by rw [hsize]; exact Nat.not_lt_zero _)) hty (by rw [hd]; exact h.nlinkAt haR hav)
    (fun hne => absurd (by rw [hadd]) hne) hlog) (fun _ v' ⟨hmid, htree, hst, hlogs, hdin⟩ => ?_)
  refine ⟨hmid, ?_, hst, hlogs, hdin.trans hd⟩
  rw [htree]
  congr 1
  unfold nodeOf bytesOf
  rw [if_neg (by rw [hty]; exact ht), hsize, hd]
  rfl

theorem iassign_fields (ha : a ∈ L) (hd : d = { (v.inode a).din with
      major := d.major, minor := d.minor, nlink := d.nlink }) (hnlink : short d.nlink = d.nlink) :
    wp (iassign a d) (fun _ v' => Mid v' R L ∧ tree v' = update (tree v) (v.inode a).inum
      (some { nodeAt v a with major := d.major, minor := d.minor, nlink := d.nlink }) ∧ Stays R 0 v v' ∧
      Logs {(v.inode a).inum} 0 v v' ∧ (v'.inode a).din = d) F v := by
  obtain ⟨haR, hav⟩ := h.locked a ha
  have ht := (h.coherent a haR hav).2
  have hty : d.type = (v.inode a).din.type := by rw [hd]
  have hadd : d.addrs = (v.inode a).din.addrs := by rw [hd]
  have hsize : d.size = (v.inode a).din.size := by rw [hd]
  have hslot : ∀ bn, slotAddr v.blk.data d bn = slotAddr v.blk.data (v.inode a).din bn := fun bn => by
    unfold slotAddr
    rw [hadd]
  refine wp_use (iassign_spec h ha (by rw [blocksOf_addrs hadd]; exact h.marksAt haR hav) (Frame.refl _ _) (fun bn hbn => ?_)
    hty hnlink (fun _ => .inr ⟨by rw [hadd], rfl⟩) (LogsIn.refl ∅ _))
    (fun _ v' ⟨hmid, htree, hst, hlogs, hdin⟩ => ⟨hmid, ?_, hst, hlogs, hdin⟩)
  · rw [hslot]
    exact h.fullAt haR hav bn (by rw [← hsize]; exact hbn)
  rw [htree]
  congr 1
  unfold nodeOf nodeAt bytesOf bytesAt byteAt
  rw [if_neg (by rw [hty]; exact ht), hsize]
  simp [hslot, hty]

end

/-! ## `iput` -/

section
variable (h : Mid v (a ::ₘ R) L)
include h

theorem dropRef_spec (hL : a ∈ L → a ∈ R) :
    wp (dropRef a) (fun _ v' => Mid v' R L ∧ Quiet v v' ∧ Stays R 0 v v') F v := by
  unfold dropRef
  have hmid : Mid { v with inode := update v.inode a { v.inode a with ref := (v.inode a).ref - 1 } } R L := by
    refine h.recount ⟨rfl, rfl⟩ rfl (fun b => ?_) (fun b => ?_) (fun b => mem_cons_of_mem) h.locks h.nodup
      (fun b hb => ⟨?_, (h.locked b hb).2⟩)
    · by_cases e : b = a
      · subst e
        simp
      · simp [update_of_ne e]
    · have hr := h.refs b
      by_cases e : b = a
      · subst e
        rw [count_cons_self] at hr
        simp only [update_self]
        omega
      · rw [count_cons_of_ne e] at hr
        simpa [update_of_ne e] using hr
    · rcases Multiset.mem_cons.1 (h.locked b hb).1 with rfl | hm
      · exact hL hb
      · exact hm
  exact ⟨hmid, ⟨rfl, rfl⟩, stays_ref⟩

/-- Giving up the reference `a` frees the inode: it was the last one, and the inode has no links. -/
def Frees (v : Vol) (R : Multiset Ip) (a : Ip) : Prop :=
  a ∉ R ∧ (v.inode a).valid = true ∧ (v.inode a).din.nlink = 0

theorem ifree_spec (hR : a ∉ R) (hav : (v.inode a).valid = true) (hL : a ∉ L) :
    wp (ifree a) (fun _ v' => Mid v' (a ::ₘ R) L ∧ Stays R (L.length + 1) v v' ∧ Logs {(v.inode a).inum} 0 v v' ∧
      tree v' = update (tree v) (v.inode a).inum none) F v := by
  have haR : a ∈ a ::ₘ R := mem_cons_self _ _
  unfold ifree acquiresleep
  simp only [wp_bind, wp_get, h.locks]
  rw [if_neg hL, wp_set]
  have h1 := h.lock (p := max v.peak (L.length + 1)) haR hav hL
  refine wp_then (itrunc_spec h1 List.mem_cons_self) ?_
  rintro _ v2 ⟨h2, ht2, hst2, hlog2, hd2⟩
  obtain ⟨-, hav2⟩ := h2.locked a List.mem_cons_self
  have hinum2 : (v2.inode a).inum = (v.inode a).inum := hst2.inum a haR
  have hm2 := h2.marksAt haR hav2
  have hadd : (v2.inode a).din.addrs = fun _ => 0 := by rw [hd2]
  rw [blocksOf_none hadd, add_zero] at hm2
  have h2' := h2.unlock a
  rw [List.erase_cons_head] at h2'
  unfold iassign setDin iupdate logWrite releasesleep
  simp only [wp_bind, wp_get, wp_din, wp_setInode, wp_set, wp_onBlocks, wp_modify, update_self, update_idem]
  obtain ⟨d, hd⟩ : ∃ d : Dinode, d = { (v2.inode a).din with type := .none } := ⟨_, rfl⟩
  rw [← hd]
  have hdt : d.type = .none := by rw [hd]
  obtain ⟨x, hx⟩ : ∃ x : Inode, x = ⟨(v2.inode a).inum, (v2.inode a).ref, false, d⟩ := ⟨_, rfl⟩
  rw [← hx]
  obtain ⟨v3, hv3⟩ : ∃ v3 : Vol, v3 = { v2 with
    blk := v2.blk.log (iblock v2.blk.sb (v2.inode a).inum),
    dinode := update v2.dinode (v2.inode a).inum d, inode := update v2.inode a x,
    locks := v2.locks.erase a } := ⟨_, rfl⟩
  rw [← hv3]
  have hslot : ∀ b, b ≠ a → v3.inode b = v2.inode b := fun b hb => by rw [hv3]; exact update_of_ne hb _ _
  have hself : v3.inode a = x := by
    rw [hv3]
    exact update_self ..
  have hlogged : v3.blk.logged = iblock v2.blk.sb (v2.inode a).inum :: v2.blk.logged := by rw [hv3]
  have hne : ∀ b ∈ R, b ≠ a := fun b hb e => hR (e ▸ hb)
  have hkeep : ∀ b, (v3.inode b).ref = (v2.inode b).ref ∧ (v3.inode b).inum = (v2.inode b).inum := fun b => by
    by_cases e : b = a
    · rw [e, hself, hx]
      exact ⟨rfl, rfl⟩
    · rw [hslot b e]
      exact ⟨rfl, rfl⟩
  have hLa : ∀ b ∈ L, b ≠ a := fun b hb e => hL (e ▸ hb)
  have hmid : Mid v3 (a ::ₘ R) L ∧ tree v3 = update (tree { v2 with locks := v2.locks.erase a }) (v2.inode a).inum
      (nodeOf v3.blk.data d) := by
    refine h2'.change (h2.inum a haR) (by rw [hv3]) ?_ ?_ (fun hne => absurd hdt hne) (by rw [hd]; exact h2.nlinkAt haR hav2)
      (fun hne => absurd hdt hne) (by rw [hv3]) (by rw [hlogged]; exact List.mem_cons_self) (fun hne => absurd hdt hne)
      (by rw [hv3]) hkeep (fun b hb => ?_) (fun b hb hv e => ?_) (fun b hb e => hslot b (fun e' => e (by rw [e'])))
    · rw [blocksAt, if_pos hdt, add_zero, hv3]
      exact hm2.congr rfl rfl
    · rw [hv3]
      exact ⟨rfl, rfl, fun _ _ => rfl, Calm.write _ rfl rfl rfl, fun _ _ => rfl⟩
    · rw [hslot b (hLa b hb)]
      exact (h2'.locked b hb).2
    · rw [h2.uniq b hb a haR e, hself, hx] at hv
      cases hv
  have hlog3 : Logs {(v.inode a).inum} 0 v2 v3 := by
    refine ⟨∅, le_refl _, fun b hb => ?_⟩
    rw [hlogged] at hb
    rcases List.mem_cons.1 hb with rfl | hb
    · exact .inr (.inr (Finset.mem_union_right _ (Finset.mem_image.2 ⟨_, Finset.mem_singleton_self _, by rw [hinum2]⟩)))
    · exact .inl hb
  refine ⟨hmid.1, ⟨fun b hb => ?_, fun b hb hv => ?_, ?_, ?_, ?_⟩, ?_, ?_⟩
  · rw [hslot b (hne b hb)]
    exact hst2.inum b (mem_cons_of_mem hb)
  · rw [hslot b (hne b hb)]
    exact hst2.valid b (mem_cons_of_mem hb) hv
  · have := hst2.peak
    rw [hv3]
    dsimp only at this ⊢
    omega
  · rw [hv3]
    exact hst2.calm.trans (Calm.write _ rfl rfl rfl)
  · rw [hv3]
    exact hst2.log
  · exact (Logs.trans (v := v) hlog2 hlog3 hst2.log.1).mono (by simp) le_rfl
  · rw [hmid.2, hinum2, show tree { v2 with locks := v2.locks.erase a } = tree v2 from rfl, ht2]
    unfold nodeOf
    rw [if_pos hdt]
    exact update_idem ..

theorem iput_spec (hL : a ∈ L → a ∈ R) :
    wp (iput a) (fun _ v' => Mid v' R L ∧ Stays R (L.length + 1) v v' ∧ (¬ Frees v R a ∧ Quiet v v' ∨
      Frees v R a ∧ Logs {(v.inode a).inum} 0 v v' ∧ tree v' = update (tree v) (v.inode a).inum none)) F v := by
  have hcount : (v.inode a).ref = 1 ↔ a ∉ R := by
    rw [h.refs a, count_cons_self, ← Multiset.count_eq_zero]
    omega
  unfold iput
  refine wp_ite (fun hfree => ?_) (fun hkeep => ?_)
  · obtain ⟨hr, hv, hn⟩ := hfree
    have hR := hcount.1 hr
    have hL' : a ∉ L := fun hl => hR (hL hl)
    refine wp_then (ifree_spec h hR hv hL') (fun _ v1 ⟨h1, hst1, hlog1, ht1⟩ => ?_)
    refine wp_use (dropRef_spec h1 hL) (fun _ v2 ⟨h2, hq2, hst2⟩ => ⟨h2, ?_, .inr ⟨⟨hR, hv, hn⟩, ?_, ?_⟩⟩)
    · exact hst1.trans (hst2.mono le_rfl (Nat.zero_le _))
    · exact (hlog1.trans hq2.logs hst1.log.1).mono (by simp) le_rfl
    · rw [hq2.tree, ht1]
  · exact wp_use (dropRef_spec h hL) (fun _ v2 ⟨h2, hq2, hst2⟩ =>
      ⟨h2, hst2.mono le_rfl (Nat.zero_le _), .inl ⟨fun hf => hkeep ⟨hcount.2 hf.1, hf.2⟩, hq2⟩⟩)

theorem iunlockput_spec (ha : a ∈ L) :
    wp (iunlockput a) (fun _ v' => Mid v' R (L.erase a) ∧ Stays R L.length v v' ∧ (¬ Frees v R a ∧ Quiet v v' ∨
      Frees v R a ∧ Logs {(v.inode a).inum} 0 v v' ∧ tree v' = update (tree v) (v.inode a).inum none)) F v := by
  unfold iunlockput
  rw [wp_bind]
  have hlen := List.length_erase_of_mem ha
  have hpos := List.length_pos_of_mem ha
  unfold iunlock releasesleep
  have href := h.ref_pos (h.locked a ha).1
  rw [wp_bind, wp_get]
  rw [if_neg (by rw [h.locks]; simp only [not_or, not_not]; exact ⟨ha, by omega⟩), wp_modify]
  refine wp_use (iput_spec (h.unlock a) (fun hm => absurd hm (h.nodup.not_mem_erase)))
    (fun _ v2 ⟨h2, hst2, ht2⟩ => ⟨h2, ?_, ?_⟩)
  · exact ⟨hst2.inum, hst2.valid, by have := hst2.peak; dsimp only at this; omega, hst2.calm, hst2.log⟩
  · exact ht2

end

/-! ## Inodes without links -/

/-- **An inode without links is referenced by `R`**, and its copy is valid. -/
def Good (v : Vol) (R : Multiset Ip) : Prop :=
  ∀ i n, tree v i = some n → n.nlink = 0 → ∃ a ∈ R, (v.inode a).inum = i ∧ (v.inode a).valid = true

theorem Good.quiet (h : Good v R) (hq : Quiet v v') (hst : Stays R n v v') : Good v' R := by
  intro i m hm h0
  rw [hq.tree] at hm
  obtain ⟨a, ha, hi, hv⟩ := h i m hm h0
  exact ⟨a, ha, (hst.inum a ha).trans hi, (hst.valid a ha hv).1⟩

theorem Good.mono (h : Good v R) (hle : R ≤ R') : Good v R' := fun i n hn h0 =>
  let ⟨a, ha, hi⟩ := h i n hn h0
  ⟨a, mem_of_le hle ha, hi⟩

theorem Good.not_frees (hg : Good v R) (h : Mid v (a ::ₘ R) L) : ¬ Frees v R a := by
  rintro ⟨haR, hav, h0⟩
  obtain ⟨b, hb, hi, -⟩ := hg _ _ (h.node (mem_cons_self _ _) hav) h0
  exact haR (h.uniq b (mem_cons_of_mem hb) a (mem_cons_self _ _) hi ▸ hb)

theorem Good.iput (hg : Good v (a ::ₘ R)) (h : Mid v (a ::ₘ R) L) (hst : Stays R n v v')
    (ht : ¬ Frees v R a ∧ Quiet v v' ∨ Frees v R a ∧ Logs {(v.inode a).inum} 0 v v' ∧
      tree v' = update (tree v) (v.inode a).inum none) : Good v' R := by
  intro i m hm h0
  have hnode : ∀ m, tree v i = some m → m.nlink = 0 → (a ∉ R → (v.inode a).inum = i → (v.inode a).valid = true → False) →
      ∃ b ∈ R, (v'.inode b).inum = i ∧ (v'.inode b).valid = true := by
    intro m hm h0 hne
    obtain ⟨b, hb, hi, hbv⟩ := hg i m hm h0
    have hbR : b ∈ R := by
      rcases Multiset.mem_cons.1 hb with rfl | hb
      · by_contra hn
        exact hne hn hi hbv
      · exact hb
    exact ⟨b, hbR, (hst.inum b hbR).trans hi, (hst.valid b hbR hbv).1⟩
  rcases ht with ⟨hnf, hq⟩ | ⟨-, -, ht⟩
  · rw [hq.tree] at hm
    refine hnode m hm h0 (fun haR hi hav => hnf ⟨haR, hav, ?_⟩)
    rw [← hi, h.node (mem_cons_self _ _) hav] at hm
    cases hm
    exact h0
  · have hne : i ≠ (v.inode a).inum := by
      rintro rfl
      rw [ht, update_self] at hm
      cases hm
    rw [ht, update_of_ne hne] at hm
    exact hnode m hm h0 (fun _ hi _ => hne hi.symm)

/-! ## Transactions -/

theorem installTrans_of (f : Nat → Content) : ∀ (l : List Nat) (disk : Nat → Content) (b : Nat),
    installTrans disk (l.map (fun b => (b, f b))) b = if b ∈ l then f b else disk b
  | [], disk, b => by simp [installTrans]
  | c :: l, disk, b => by
    have ih := installTrans_of f l (update disk c (f c)) b
    unfold installTrans at ih ⊢
    rw [List.map_cons, List.foldl_cons, ih]
    by_cases hl : b ∈ l
    · rw [if_pos hl, if_pos (List.mem_cons_of_mem _ hl)]
    rw [if_neg hl]
    by_cases e : b = c
    · subst e
      rw [update_self, if_pos List.mem_cons_self]
    · rw [update_of_ne e, if_neg (by simp [e, hl])]

theorem installTrans_transOf (v : Vol) (b : Nat) :
    installTrans v.disk (transOf v) b = if b ∈ v.blk.logged then content v b else v.disk b := by
  unfold transOf
  rw [installTrans_of]
  simp [List.mem_dedup]

theorem content_dinode (v : Vol) (i : Nat) : (content v (iblock v.blk.sb i)).dinode (i % 16) = v.dinode i := by
  unfold content blockContent iblock
  dsimp only
  congr 1
  omega

theorem content_bit (v : Vol) (b : Nat) : (content v (bblock v.blk.sb b)).bit (b % (bsize * 8)) = v.blk.bit b := by
  unfold content blockContent bblock
  dsimp only
  congr 1
  have := Nat.div_add_mod b (bsize * 8)
  rwa [Nat.add_sub_cancel]

def committed (v : Vol) : Vol :=
  { v with
    blk := { v.blk with outstanding := v.outstanding - 1, logged := [] }
    disk := installTrans v.disk (transOf v)
    trans := v.trans ++ [transOf v] }

theorem Synced.commit (h : Synced v) : Synced (committed v) := by
  refine ⟨fun i _ => ?_, fun b _ => ?_, fun i hi ht hne _ => ?_⟩
  · change (installTrans v.disk (transOf v) (iblock v.blk.sb i)).dinode (i % 16) = v.dinode i
    rw [installTrans_transOf]
    split
    · exact content_dinode v i
    · exact h.dinode i ‹_›
  · change (installTrans v.disk (transOf v) (bblock v.blk.sb b)).bit (b % (bsize * 8)) = v.blk.bit b
    rw [installTrans_transOf]
    split
    · exact content_bit v b
    · exact h.bit b ‹_›
  · change (installTrans v.disk (transOf v) ((v.dinode i).addrs ndirect)).bytes = v.blk.data ((v.dinode i).addrs ndirect)
    rw [installTrans_transOf]
    split
    · rfl
    · exact h.ind i hi ht hne ‹_›

theorem beginOp_spec (h : Mid v R L) :
    wp beginOp (fun _ v' => Mid v' R L ∧ v' = { v with blk := { v.blk with outstanding := v.outstanding + 1 } }) F v :=
  ⟨⟨h.refs, h.locks, h.nodup, h.locked, h.uniq, h.coherent, h.inum, h.marks.congr rfl rfl, h.full, h.reads,
    ⟨h.synced.dinode, h.synced.bit, h.synced.ind⟩, h.nlink, h.outside⟩, rfl⟩

theorem endOp_spec (h : Mid v R L) : wp endOp (fun _ v' => Mid v' R L ∧ v' = committed v) F v :=
  ⟨⟨h.refs, h.locks, h.nodup, h.locked, h.uniq, h.coherent, h.inum, h.marks.congr rfl rfl, h.full, h.reads, h.synced.commit,
    h.nlink, h.outside⟩, rfl⟩

end Xv6.Fs
