import Xv6.MkfsImage
/-!
# MkfsBoot — the kernel reads what `mkfs` has written

The kernel mounts the image: `ireclaim` finds nothing to free. The root directory is read entry by entry, first those of
the files and then, up to the size that `mkfs` has rounded up, zeros. Where the entries fill their blocks the last of these
blocks is missing, and `readi` allocates it.
-/
namespace Xv6.Mkfs

open Function List Fs Wp
variable {files : List Input} {g : Img} {v : Vol} {a : Ip} {name bytes : Bytes} {F : Panic → Prop}

/-! ## The volume -/

theorem mount_image (h : Image files g) : mount g = some (volume sb g.disk) := by
  unfold mount
  rw [h.super, readsb_superblock]
  rfl

theorem volume_dinode (g : Img) (i : Nat) : (volume sb g.disk).dinode i = inodeAt g i := by
  unfold inodeAt
  rfl

theorem volume_bit (h : Image files g) {b : Nat} (hb : b < fssize) :
    (volume sb g.disk).blk.bit b = decide (b < g.freeblock) := by
  have hblock : bblock sb b = sb.bmapstart := by
    have : b / (bsize * 8) = 0 := Nat.div_eq_of_lt (lt_trans hb (by decide))
    unfold bblock
    rw [this, zero_add]
  have hmod : b % bpb = b := Nat.mod_eq_of_lt (lt_trans hb (by decide))
  change bitAt (g.disk (bblock sb b)) (b % bpb) = _
  rw [hblock, h.bits, hmod, bitAt_bitmap]

variable {i k off n : Nat} {b cwd : Ip} {d : Dinode} {e : Dirent} {Q : Option (Ip × Nat) → Vol → Prop}
  {f : Input}

theorem linked (h : Image files g) (h1 : 1 ≤ i) (hi : i < inodeRoom) :
    (inodeAt g i).type = .none ∨ (inodeAt g i).nlink = 1 := by
  rcases lt_or_ge i (files.length + 2) with hlt | hge
  · by_cases e : i = rootino
    · rw [e]
      exact .inr h.root.2
    have hk : i - 2 < files.length := by
      unfold rootino at e
      omega
    have hnode := h.file (i - 2) files[i - 2] (getElem?_eq_getElem hk)
    have e2 : i - 2 + 2 = i := by
      unfold rootino at e
      omega
    rw [e2] at hnode
    exact .inr hnode.nlink
  · exact .inl (h.unused i hge hi)

theorem ireclaim_spec (h : Image files g) : wp ireclaim (fun _ v => v = volume sb g.disk) F (volume sb g.disk) := by
  unfold ireclaim
  have hroom : ninodes < inodeRoom := by decide
  have hloop : ∀ l : List Nat, (∀ i ∈ l, 1 ≤ i ∧ i < ninodes) →
      wp (l.forM reclaim) (fun _ v => v = volume sb g.disk) F (volume sb g.disk) := by
    intro l hl
    refine wp_forM (I := fun rest v => v = volume sb g.disk ∧ ∀ i ∈ rest, 1 ≤ i ∧ i < ninodes) (fun i rest v ⟨hv, hr⟩ => ?_)
      l _ ⟨rfl, hl⟩ |> (fun hw => wp_use hw (fun _ _ h => h.1))
    obtain ⟨h1, hi⟩ := hr i mem_cons_self
    subst hv
    unfold reclaim
    rw [wp_bind, wp_get, volume_dinode]
    rw [if_neg]
    · exact ⟨rfl, fun j hj => hr j (mem_cons_of_mem _ hj)⟩
    rintro ⟨ht, h0⟩
    rcases linked h h1 (by omega) with hn | hl
    · exact ht hn
    · rw [h0] at hl
      cases hl
  refine hloop _ (fun i hi => ?_)
  rw [mem_range'_1] at hi
  have hn : (volume sb g.disk).blk.sb.ninodes = ninodes := rfl
  omega

/-! ## The inode table -/

theorem iget_fresh (hnot : ∀ ip, 0 < (v.inode ip).ref → (v.inode ip).inum ≠ i) (hb : (v.inode b).ref = 0) :
    wp (iget i) (fun ip v' => (v.inode ip).ref = 0 ∧
      v' = { v with inode := update v.inode ip { v.inode ip with inum := i, ref := 1, valid := false } }) F v := by
  have hnone : slots.find? (fun ip => decide (0 < (v.inode ip).ref ∧ (v.inode ip).inum = i)) = none := by
    rw [find?_eq_none]
    intro ip _ hip
    obtain ⟨hpos, he⟩ := of_decide_eq_true hip
    exact hnot ip hpos he
  obtain ⟨c, hc⟩ : ∃ c, slots.find? (fun ip => decide ((v.inode ip).ref = 0)) = some c := by
    rw [← Option.isSome_iff_exists, find?_isSome]
    exact ⟨b, mem_finRange b, decide_eq_true hb⟩
  unfold iget
  rw [wp_bind, wp_get]
  simp only [hnone, hc, wp_bind, wp_setInode, wp_pure]
  have hp := find?_some hc
  simp only [decide_eq_true_eq] at hp
  exact ⟨hp, trivial⟩

theorem iget_returns (hb : (v.inode b).ref = 0) : wp (iget i) (fun _ _ => True) F v := by
  unfold iget
  rw [wp_bind, wp_get]
  split
  · trivial
  split
  · rename_i hnone
    have := find?_eq_none.1 hnone b (mem_finRange b)
    rw [decide_eq_true hb] at this
    exact absurd rfl this
  · trivial

theorem ilock_fresh (hv : (v.inode a).ref = 1 ∧ (v.inode a).valid = false ∧ (v.inode a).inum = i)
    (hl : v.locks = []) (ht : (v.dinode i).type ≠ .none) :
    wp (ilock a) (fun _ v' => v'.blk = v.blk ∧ v'.dinode = v.dinode ∧ v'.locks = [a] ∧
      v'.inode = update v.inode a ⟨i, 1, true, v.dinode i⟩) F v := by
  obtain ⟨hr, hval, hi⟩ := hv
  unfold ilock acquiresleep ifill
  rw [wp_bind, wp_get, if_neg (by rw [hr]; decide), wp_bind, wp_bind, wp_get, hl, if_neg not_mem_nil, wp_set, wp_bind,
    wp_get]
  dsimp only
  rw [hval, if_neg (by decide), wp_bind, wp_setInode, hi, if_neg ht, wp_pure]
  refine ⟨rfl, rfl, rfl, ?_⟩
  rw [← hi, ← hr]

/-- The root directory is in slot `a`, the only one in use. -/
structure InRoot (g : Img) (a : Ip) (valid : Bool) (d : Dinode) (locks : List Ip) (v : Vol) : Prop where
  blk : v.blk = (volume sb g.disk).blk
  dinode : v.dinode = (volume sb g.disk).dinode
  slot : v.inode a = ⟨rootino, 1, valid, d⟩
  others : ∀ b, b ≠ a → (v.inode b).ref = 0
  locks : v.locks = locks

theorem iget_root (g : Img) :
    wp (iget rootino) (fun a v => InRoot g a false (freshDinode .none) [] v) F (volume sb g.disk) := by
  have hzero : ∀ ip, ((volume sb g.disk).inode ip).ref = 0 := fun _ => rfl
  refine wp_use (iget_fresh (fun ip hpos => by rw [hzero] at hpos; exact absurd hpos (by decide)) (hzero 0))
    (fun a v ⟨_, hv⟩ => ⟨by rw [hv], by rw [hv], ?_, fun b hb => ?_, by rw [hv]; rfl⟩)
  · rw [hv]
    exact update_self ..
  · rw [hv]
    dsimp only
    rw [update_of_ne hb, hzero]

theorem ilock_root (h : Image files g) (hr : InRoot g a false d [] v) :
    wp (ilock a) (fun _ v' => InRoot g a true (inodeAt g rootino) [a] v') F v := by
  have ht : (v.dinode rootino).type ≠ .none := by
    rw [hr.dinode, volume_dinode, h.root.1]
    decide
  refine wp_use (ilock_fresh (by rw [hr.slot]; exact ⟨rfl, rfl, rfl⟩) hr.locks ht)
    (fun _ v' ⟨hblk, hdin, hlocks, hin⟩ => ⟨hblk.trans hr.blk, hdin.trans hr.dinode, ?_, fun b hb => ?_, hlocks⟩)
  · rw [hin, update_self, hr.dinode, volume_dinode]
  · rw [hin, update_of_ne hb]
    exact hr.others b hb

/-! ## Entries -/

structure Entry (e : Dirent) : Prop where
  pos : 0 < e.inum
  lt : e.inum < 65536
  len : e.name.length ≤ dirsiz
  string : 0 ∉ e.name

theorem name_subset (f : Input) : f.name ⊆ withoutDir f.arg := by
  unfold Input.name shortname
  split
  · exact tail_subset _
  · exact List.Subset.refl _

theorem withoutDir_subset (arg : Bytes) : withoutDir arg ⊆ arg := by
  unfold withoutDir
  split
  · exact drop_subset _ _
  · exact List.Subset.refl _

theorem zero_notMem_name (f : Input) : 0 ∉ f.name := fun h0 =>
  f.arg_string (withoutDir_subset _ (name_subset f h0))

theorem mem_entriesOf : e ∈ entriesOf files ↔ e = ⟨rootino, dot⟩ ∨ e = ⟨rootino, dotdot⟩ ∨
    ∃ k f, files[k]? = some f ∧ e = ⟨k + 2, f.name⟩ := by
  unfold entriesOf
  rw [List.mem_cons, List.mem_cons, List.mem_mapIdx]
  constructor
  · rintro (h | h | ⟨k, hk, he⟩)
    · exact .inl h
    · exact .inr (.inl h)
    · exact .inr (.inr ⟨k, files[k], List.getElem?_eq_getElem hk, he.symm⟩)
  · rintro (h | h | ⟨k, f, hk, he⟩)
    · exact .inl h
    · exact .inr (.inl h)
    · obtain ⟨hlt, hf⟩ := List.getElem?_eq_some_iff.1 hk
      exact .inr (.inr ⟨k, hlt, by rw [hf]; exact he.symm⟩)

theorem length_entriesOf (files : List Input) : (entriesOf files).length = files.length + 2 := by
  unfold entriesOf
  simp

theorem entry_of_mem (h : Image files g) (hn : files.length + 2 ≤ ninodes) (he : e ∈ entriesOf files) : Entry e := by
  have hnin : ninodes = 200 := rfl
  rcases mem_entriesOf.1 he with rfl | rfl | ⟨k, f, hk, rfl⟩
  · exact ⟨by decide, by decide, by decide, by decide⟩
  · exact ⟨by decide, by decide, by decide, by decide⟩
  · obtain ⟨hlt, hf⟩ := List.getElem?_eq_some_iff.1 hk
    exact ⟨Nat.succ_pos _, show k + 2 < 65536 by omega, (h.named f (List.mem_of_getElem? hk)).2, zero_notMem_name f⟩

theorem length_dirBytes (es : List Dirent) : (dirBytes es).length = 16 * es.length :=
  length_records length_direntBytes es

theorem bytesAt_entry {disk : Nat → Nat → UInt8} {es : List Dirent}
    (hd : Holds disk d (dirBytes es)) (hk : es[k]? = some e) : bytesAt disk d (16 * k) 16 = direntBytes e := by
  obtain ⟨hlt, -⟩ := List.getElem?_eq_some_iff.1 hk
  have hlen := length_dirBytes es
  apply bytes_ext
  · rw [length_bytesAt, length_direntBytes]
  intro i hi
  rw [length_bytesAt] at hi
  have hx : (16 * k + i) / bsize * bsize < (dirBytes es).length := by
    have := Nat.div_mul_le_self (16 * k + i) bsize
    omega
  have hget : (bytesAt disk d (16 * k) 16).getD i 0 = byteAt disk d (16 * k + i) := by
    unfold bytesAt
    simp [hi]
  rw [hget, hd.byte _ (hd.lt_maxfile hx) (hd.slot _ hx)]
  exact getD_records length_direntBytes es k i e hk hi

theorem root_size (h : Image files g) : (inodeAt g rootino).size = (16 * (files.length + 2) / 1024 + 1) * 1024 := by
  rw [h.rootSize, length_dirBytes, length_entriesOf]
  rfl

theorem readDirent_slots {e : Panic} (hsize : (v.inode a).din.size < 2 ^ 31) (hend : off + 16 ≤ (v.inode a).din.size)
    (hslot : ∀ x, off ≤ x → x < off + 16 → x / bsize < maxfile ∧ slotAddr v.blk.data (v.inode a).din (x / bsize) ≠ 0) :
    wp (readDirent e a off) (fun de v' => v' = v ∧ de = parseDirent (bytesAt v.blk.data (v.inode a).din off 16)) F v := by
  refine wp_then (readi_slots (by decide) (fun x hx hx' _ => hslot x hx hx')) (fun r v' ⟨hv, hr⟩ => ?_)
  have hmin : min 16 ((v.inode a).din.size - off) = 16 := by omega
  rw [readAns, length_bytesOf, if_neg (by omega), slice_bytesOf, hmin, readResult, nil_append, length_bytesAt,
    if_pos le_rfl] at hr
  subst hr
  exact ⟨hv, rfl⟩

theorem lookup_entries (h : Image files g) (hn : files.length + 2 ≤ ninodes)
    (hr : InRoot g a true (inodeAt g rootino) [a] v) {tail : List Nat} :
    ∀ suf pre : List Dirent, entriesOf files = pre ++ suf →
    (∀ e off, suf.find? (fun e => decide (e.name = cname name)) = some e →
      wp (iget e.inum) (fun b v' => Q (some (b, off)) v') F v) →
    (suf.find? (fun e => decide (e.name = cname name)) = none → wp (lookupLoop a name tail) Q F v) →
    wp (lookupLoop a name ((List.range' pre.length suf.length).map (fun k => 16 * k) ++ tail)) Q F v
  | [], pre, _, _, hnone => hnone rfl
  | e :: suf, pre, he, hsome, hnone => by
    have hk : (entriesOf files)[pre.length]? = some e := by
      rw [he, List.getElem?_append_right le_rfl, Nat.sub_self]
      rfl
    obtain ⟨hlt, -⟩ := List.getElem?_eq_some_iff.1 hk
    have hent := entry_of_mem h hn (List.mem_of_getElem? hk)
    have hlen := length_dirBytes (entriesOf files)
    have hdin : (v.inode a).din = inodeAt g rootino := by rw [hr.slot]
    have hsize := root_size h
    have hcount := length_entriesOf files
    have hnin : ninodes = 200 := rfl
    rw [List.length_cons, List.range'_succ, List.map_cons, List.cons_append]
    refine wp_then (readDirent_slots (by rw [hdin]; omega) (by rw [hdin]; omega) (fun x hx hx' => ?_))
      (fun de v' ⟨hv, hde⟩ => ?_)
    · have hx2 : x / bsize * bsize < (dirBytes (entriesOf files)).length := by
        have := Nat.div_mul_le_self x bsize
        omega
      rw [hr.blk, hdin]
      exact ⟨h.rootHolds.lt_maxfile hx2, h.rootHolds.slot _ hx2⟩
    rw [hv]
    rw [hr.blk, hdin, show bytesAt (volume sb g.disk).blk.data _ _ _ = _ from bytesAt_entry h.rootHolds hk] at hde
    obtain ⟨hinum, hname⟩ := parseDirent_direntBytes hent.lt hent.len hent.string
    rw [← hde] at hinum hname
    refine wp_ite (fun ⟨_, hcmp⟩ => ?_) (fun hcmp => ?_)
    · have heq : e.name = cname name := by
        rw [← hname]
        exact (of_decide_eq_true hcmp).symm
      rw [wp_bind, hinum]
      refine wp_use (hsome e (16 * pre.length) (List.find?_cons_of_pos (decide_eq_true heq))) (fun b v'' hQ => hQ)
    have hne : ¬ e.name = cname name := fun heq => hcmp ⟨by rw [hinum]; exact ne_of_gt hent.pos, by
      unfold namecmp
      rw [hname, heq]
      exact decide_eq_true rfl⟩
    have hfind : (e :: suf).find? (fun e => decide (e.name = cname name)) =
        suf.find? (fun e => decide (e.name = cname name)) := List.find?_cons_of_neg (by simpa using hne)
    rw [hfind] at hsome hnone
    have hpre : (pre ++ [e]).length = pre.length + 1 := by
      rw [List.length_append]
      rfl
    rw [← hpre]
    exact lookup_entries h hn hr suf (pre ++ [e]) (by rw [he, List.append_assoc]; rfl) hsome hnone

/-! ## Behind the entries -/

theorem balloc_cleared {k : Blocks} (hbit : k.bit 0 = true) :
    wp Fs.balloc (fun b k' => (b = 0 ∧ ∀ c < k.sb.size, k.bit c = true) ∨
      (b ≠ 0 ∧ k'.sb = k.sb ∧ k'.data = update k.data b (fun _ => 0))) F k := by
  unfold Fs.balloc
  simp only [wp_bind, wp_modify, wp_get]
  split
  · rename_i hnone
    refine .inl ⟨rfl, fun c hc => ?_⟩
    have := find?_eq_none.1 hnone c (mem_range.2 hc)
    simpa using this
  · rename_i b hb
    have hfree := find?_some hb
    refine .inr ⟨?_, rfl, rfl⟩
    rintro rfl
    rw [hbit] at hfree
    cases hfree

theorem readLoop_missing {k : Blocks} (hbn : off / bsize < ndirect)
    (h0 : d.addrs (off / bsize) = 0) (hbit : k.bit 0 = true) :
    wp (readLoop 16 d [] [(off, 16)]) (fun r k' => (r.1 = 0 ∧ ∀ b < k.sb.size, k.bit b = true) ∨
      ∃ b, b ≠ 0 ∧ r = (16, List.replicate 16 0, { d with addrs := update d.addrs (off / bsize) b }) ∧
        k'.sb = k.sb ∧ k'.data = update k.data b (fun _ => 0)) F k := by
  unfold readLoop bmapRead bmap ballocAt
  rw [wp_bind, wp_bind, wp_get, wp_bind, if_pos hbn, if_neg (not_not.2 h0)]
  refine wp_then (balloc_cleared hbit) (fun b k' hb => ?_)
  rcases hb with ⟨rfl, hfull⟩ | ⟨hb0, hsb, hdata⟩
  · exact .inl ⟨rfl, hfull⟩
  rw [if_neg hb0, wp_pure, wp_bind, wp_modify, wp_pure]
  dsimp only
  rw [if_neg hb0, wp_bind, wp_get]
  have hslice : slice (k'.data b) (off % bsize) 16 = replicate 16 0 := by
    rw [hdata, update_self]
    rfl
  rw [hslice, if_neg (by decide)]
  exact .inr ⟨b, hb0, rfl, hsb, hdata⟩

/-- The last block of the root directory while the entries from `n` on are read: zeros behind the entries, or no block. -/
structure Tail (g : Img) (n : Nat) (a : Ip) (v : Vol) : Prop where
  sb : v.blk.sb = sb
  few : n ≤ ninodes
  size : (v.inode a).din.size = (16 * n / 1024 + 1) * 1024
  free : nmeta ≤ g.freeblock ∧ g.freeblock ≤ fssize
  block : (slotAddr v.blk.data (v.inode a).din (16 * n / 1024) ≠ 0 ∧
      ∀ x, 16 * n ≤ x → x < (v.inode a).din.size → byteAt v.blk.data (v.inode a).din x = 0) ∨
    (n % 64 = 0 ∧ (v.inode a).din.addrs (16 * n / 1024) = 0 ∧ ∀ b < fssize, v.blk.bit b = decide (b < g.freeblock))

theorem tail_root (h : Image files g) (hn : files.length + 2 ≤ ninodes) (hr : InRoot g a true (inodeAt g rootino) [a] v) :
    Tail g (files.length + 2) a v := by
  have hnin : ninodes = 200 := rfl
  have hdin : (v.inode a).din = inodeAt g rootino := by rw [hr.slot]
  have hsize := root_size h
  have hlen := length_dirBytes (entriesOf files)
  rw [length_entriesOf] at hlen
  refine ⟨by rw [hr.blk]; rfl, hn, by rw [hdin, hsize], h.free, ?_⟩
  rw [hdin, hr.blk]
  have hmax : 16 * (files.length + 2) / 1024 < maxfile := by
    have : maxfile = 268 := rfl
    omega
  by_cases h0 : slotAddr g.disk (inodeAt g rootino) (16 * (files.length + 2) / 1024) = 0
  · refine .inr ⟨?_, ?_, fun b hb => volume_bit h hb⟩
    · -- a block that holds a part of an entry is there
      by_contra hne
      refine h.rootHolds.slot (16 * (files.length + 2) / 1024) ?_ h0
      unfold bsize
      omega
    · rwa [slotAddr_direct] at h0
      unfold ndirect
      omega
  · refine .inl ⟨h0, fun x hx hlt => ?_⟩
    have hdiv : x / bsize = 16 * (files.length + 2) / 1024 := by
      unfold bsize
      omega
    have hbyte := h.rootHolds.byte x (by rw [hdiv]; exact hmax) (by rw [hdiv]; exact h0)
    rw [getD_eq_default _ _ (by omega)] at hbyte
    exact hbyte

theorem Tail.allocated {b : Nat} (hsb : v.blk.sb = Mkfs.sb) (few : n ≤ ninodes)
    (free : nmeta ≤ g.freeblock ∧ g.freeblock ≤ fssize) (hsize : d.size = (16 * n / 1024 + 1) * 1024)
    (hdin : (v.inode a).din = { d with addrs := update d.addrs (16 * n / 1024) b }) (hb : b ≠ 0)
    (hz : v.blk.data b = fun _ => 0) : Tail g n a v := by
  have hnin : ninodes = 200 := rfl
  have hslot : slotAddr v.blk.data (v.inode a).din (16 * n / 1024) = b := by
    have hdir : 16 * n / 1024 < ndirect := by
      unfold ndirect
      omega
    rw [slotAddr_direct hdir, hdin]
    exact update_self _ _ _
  have hsz : (v.inode a).din.size = (16 * n / 1024 + 1) * 1024 := by rw [hdin, hsize]
  refine ⟨hsb, few, hsz, free, .inl ⟨by rw [hslot]; exact hb, fun x hx hlt => ?_⟩⟩
  have hdiv : x / bsize = 16 * n / 1024 := by
    unfold bsize
    omega
  unfold byteAt
  rw [hdiv, hslot, hz]

theorem parseDirent_zero (h0 : bytes.getD 0 0 = 0) (h1 : bytes.getD 1 0 = 0) : (parseDirent bytes).inum = 0 := by
  unfold parseDirent
  rw [h0, h1]
  rfl

/-- How a lookup can fail: the root directory has no block for the last entries, and there is none to be had. -/
def NoBlock (g : Img) (n : Nat) (e : Panic) : Prop := e = .dirlookupRead ∧ n % 64 = 0 ∧ g.freeblock = fssize

theorem tail_read (ht : Tail g n a v) (hoff : 16 * n ≤ off ∧ off + 16 ≤ (v.inode a).din.size ∧ off % 16 = 0) :
    wp (readDirent .dirlookupRead a off) (fun de v' => de.inum = 0 ∧ Tail g n a v' ∧
      (v'.inode a).din.size = (v.inode a).din.size) (NoBlock g n) v := by
  have hfew := ht.few
  have hnin : ninodes = 200 := rfl
  have hmax : maxfile = 268 := rfl
  obtain ⟨hlo, hhi, hmul⟩ := hoff
  have hsize := ht.size
  have hdiv : ∀ x, off ≤ x → x < off + 16 → x / bsize = 16 * n / 1024 := by
    intro x hx hx'
    unfold bsize
    omega
  rcases ht.block with ⟨hne, hzero⟩ | ⟨hn64, h0, hbits⟩
  · refine wp_use (readDirent_slots (by omega) hhi (fun x hx hx' => ?_)) (fun de v' ⟨hv, hde⟩ => ?_)
    · rw [hdiv x hx hx']
      exact ⟨by omega, hne⟩
    subst hv hde
    refine ⟨parseDirent_zero ?_ ?_, ht, rfl⟩
    · change byteAt _ _ (off + 0) = 0
      exact hzero _ (by omega) (by omega)
    · change byteAt _ _ (off + 1) = 0
      exact hzero _ (by omega) (by omega)
  · obtain ⟨d, hd⟩ : ∃ d, d = (v.inode a).din := ⟨_, rfl⟩
    rw [← hd] at hhi hsize h0
    have hbn : off / bsize = 16 * n / 1024 := hdiv off le_rfl (by omega)
    have hdir : off / bsize < ndirect := by
      unfold ndirect
      omega
    have hpieces : pieces 16 off 16 = [(off, 16)] := by
      have hmin : min 16 (bsize - off % bsize) = 16 := by
        unfold bsize
        omega
      unfold pieces
      rw [if_neg (by decide)]
      dsimp only
      rw [hmin, Nat.sub_self, pieces_zero]
    have hbit0 : v.blk.bit 0 = true := by
      have h47 : nmeta = 47 := rfl
      have := ht.free.1
      rw [hbits 0 (by decide)]
      exact decide_eq_true (by omega)
    unfold readDirent readi
    rw [wp_bind, wp_bind, wp_din, ← hd, if_neg (by omega)]
    dsimp only
    rw [if_neg (by omega), hpieces, wp_bind, wp_onBlocks]
    refine wp_use (readLoop_missing hdir (by rw [hbn]; exact h0) hbit0) (fun r k hr => ?_)
    unfold setDin
    rcases hr with ⟨hr0, hfull⟩ | ⟨b, hb0, hr, hsb, hdata⟩
    · -- the disk is full
      simp only [wp_bind, wp_get, wp_setInode, wp_pure]
      rw [if_pos (by rw [hr0]; decide), wp_bind, wp_throw]
      have hlast : (fssize - 1) < v.blk.sb.size := by
        rw [ht.sb]
        decide
      have hset := hfull (fssize - 1) hlast
      rw [hbits (fssize - 1) (by decide), decide_eq_true_eq] at hset
      have hle := ht.free.2
      exact ⟨rfl, hn64, by omega⟩
    · subst hr
      simp only [wp_bind]
      rw [hbn]
      refine ⟨rfl, Tail.allocated (hsb.trans ht.sb) hfew ht.free hsize ?_ hb0 ?_, ?_⟩
      · simp [update_self]
      · simp [hdata, update_self]
      · simp [update_self]

theorem lookup_tail : ∀ (offs : List Nat) (v : Vol), Tail g n a v →
    (∀ off ∈ offs, 16 * n ≤ off ∧ off + 16 ≤ (v.inode a).din.size ∧ off % 16 = 0) →
    wp (lookupLoop a name offs) (fun r _ => r = none) (NoBlock g n) v
  | [], _, _, _ => rfl
  | off :: rest, v, ht, hoffs => by
    refine wp_then (tail_read ht (hoffs off mem_cons_self)) (fun de v' ⟨h0, ht', hs⟩ => ?_)
    rw [if_neg (fun hc => hc.1 h0)]
    exact lookup_tail rest v' ht' (fun o ho => by rw [hs]; exact hoffs o (mem_cons_of_mem _ ho))

theorem dirlookup_root (h : Image files g) (hn : files.length + 2 ≤ ninodes)
    (hr : InRoot g a true (inodeAt g rootino) [a] v)
    (hF : ∀ e, NoBlock g (files.length + 2) e → (entriesOf files).find? (fun e => decide (e.name = cname name)) = none → F e)
    (hsome : ∀ e off, (entriesOf files).find? (fun e => decide (e.name = cname name)) = some e →
      wp (iget e.inum) (fun b v' => Q (some (b, off)) v') F v)
    (hnone : (entriesOf files).find? (fun e => decide (e.name = cname name)) = none → ∀ v', Q none v') :
    wp (dirlookup a name) Q F v := by
  have hdin : (v.inode a).din = inodeAt g rootino := by rw [hr.slot]
  have hsize := root_size h
  have hcount := length_entriesOf files
  unfold dirlookup
  rw [wp_bind, wp_din, hdin, if_neg (not_not.2 h.root.1)]
  obtain ⟨m, hm⟩ : ∃ m, (inodeAt g rootino).size = 16 * (files.length + 2) + 16 * m := by
    refine ⟨((inodeAt g rootino).size - 16 * (files.length + 2)) / 16, ?_⟩
    omega
  have hoffs : offsets 0 (inodeAt g rootino).size = (range' 0 (entriesOf files).length).map (fun k => 16 * k) ++
      (range' (files.length + 2) m).map (fun k => 16 * k) := by
    have he : ((inodeAt g rootino).size + 15) / 16 - 0 = (files.length + 2) + m := by omega
    have hsplit := @range'_append_1 0 (files.length + 2) m
    rw [zero_add] at hsplit
    unfold offsets
    rw [he, hcount, ← map_append, hsplit]
  rw [hoffs]
  refine lookup_entries h hn hr (entriesOf files) [] rfl hsome (fun hf => ?_)
  refine wp_mono (lookup_tail _ v (tail_root h hn hr) (fun off hoff => ?_)) (fun r v' hr' => ?_) (fun e he => hF e he hf)
  · obtain ⟨k, hk, rfl⟩ := mem_map.1 hoff
    rw [mem_range'_1] at hk
    rw [hdin]
    omega
  · rw [hr']
    exact hnone hf v'

/-! ## Paths -/

theorem elems_name (h : name ≠ []) (hs : slash ∉ name) (hl : name.length ≤ dirsiz) : elems (slash :: name) = [name] := by
  have hdrop : (slash :: name).dropWhile (fun c => c = slash) = name := by
    rw [dropWhile_cons_of_pos (by decide)]
    cases name with
    | nil => rfl
    | cons c cs =>
      have hc : c ≠ slash := fun e => hs (e ▸ mem_cons_self)
      exact dropWhile_cons_of_neg (by simpa using hc)
  have hall : ∀ c ∈ name, (decide (c ≠ slash)) = true := fun c hc => decide_eq_true (fun e => hs (e ▸ hc))
  have htake : name.takeWhile (fun c => c ≠ slash) = name := by
    have := @takeWhile_append_of_pos _ _ name [] hall
    rwa [append_nil, takeWhile_nil, append_nil] at this
  have hrest : name.dropWhile (fun c => c ≠ slash) = [] := by
    have := takeWhile_append_dropWhile (p := fun c => decide (c ≠ slash)) (l := name)
    rw [htake] at this
    exact append_right_eq_self.1 this
  have hskip : skipelem (slash :: name) = some (name, []) := by
    unfold skipelem
    rw [hdrop, if_neg h, htake, hrest, take_of_length_le hl]
    rfl
  obtain ⟨n, hn⟩ : ∃ n, name.length = n + 1 := ⟨name.length - 1, by have := length_pos_iff.2 h; omega⟩
  unfold elems
  rw [length_cons, hn]
  unfold elemsLoop
  rw [hskip]
  rfl

theorem find_entry (hnd : (files.map Input.name).Nodup) (hdots : ∀ f ∈ files, f.name ≠ dot ∧ f.name ≠ dotdot)
    (hk : files[k]? = some f) :
    (entriesOf files).find? (fun e => decide (e.name = f.name)) = some ⟨k + 2, f.name⟩ := by
  have hmem : (⟨k + 2, f.name⟩ : Dirent) ∈ entriesOf files := mem_entriesOf.2 (.inr (.inr ⟨k, f, hk, rfl⟩))
  obtain ⟨e, he⟩ : ∃ e, (entriesOf files).find? (fun e => decide (e.name = f.name)) = some e := by
    rw [← Option.isSome_iff_exists, List.find?_isSome]
    exact ⟨_, hmem, decide_eq_true rfl⟩
  have hname : e.name = f.name := by simpa using List.find?_some he
  have hf := hdots f (List.mem_of_getElem? hk)
  rw [he]
  rcases mem_entriesOf.1 (List.mem_of_find?_eq_some he) with rfl | rfl | ⟨j, f', hj, rfl⟩
  · exact absurd hname.symm hf.1
  · exact absurd hname.symm hf.2
  obtain ⟨hjl, hj'⟩ := List.getElem?_eq_some_iff.1 hj
  have hjk : j = k := by
    apply (List.getElem?_inj (by rw [List.length_map]; exact hjl) hnd).1
    rw [List.getElem?_map, List.getElem?_map, hj, hk]
    exact congrArg some hname
  subst hjk
  exact congrArg (fun n => some (Dirent.mk (j + 2) n)) hname

/-- The volume after `namei`: the inode of the file is in slot `b`, not yet read. -/
structure Found (g : Img) (i : Nat) (b : Ip) (v : Vol) : Prop where
  blk : v.blk = (volume sb g.disk).blk
  dinode : v.dinode = (volume sb g.disk).dinode
  slot : (v.inode b).ref = 1 ∧ (v.inode b).valid = false ∧ (v.inode b).inum = i
  locks : v.locks = []

section
variable (h : Image files g)
include h

theorem iunlockput_root (hr : InRoot g a true (inodeAt g rootino) [a] v) (hb : b ≠ a) :
    wp (iunlockput a) (fun _ v' => Found g i b v') F
      { v with inode := update v.inode b { v.inode b with inum := i, ref := 1, valid := false } } := by
  have hslot := hr.slot
  unfold iunlockput iunlock releasesleep iput
  simp only [wp_bind, wp_get, update_of_ne hb.symm, hslot, hr.locks]
  rw [if_neg (by simp), wp_modify]
  simp only [wp_bind, wp_get, update_of_ne hb.symm, hslot, h.root.2]
  rw [if_neg (by simp)]
  refine ⟨hr.blk, hr.dinode, ?_, ?_⟩
  · simp only [update_of_ne hb, update_self]
    exact ⟨trivial, trivial, trivial⟩
  · simp only [erase_cons_head]

section
variable (hn : files.length + 2 ≤ ninodes)
include hn

theorem namei_file (hnd : (files.map Input.name).Nodup)
    (hdots : ∀ f ∈ files, f.name ≠ dot ∧ f.name ≠ dotdot) (hk : files[k]? = some f)
    (hne : f.name ≠ []) :
    wp (namei cwd (slash :: f.name)) (fun r v' => ∃ b, r = some b ∧ Found g (k + 2) b v') F (volume sb g.disk) := by
  have hf := mem_of_getElem? hk
  have hnamed := h.named f hf
  have hcname := cname_eq hnamed.2 (zero_notMem_name f)
  have hfind := find_entry hnd hdots hk
  unfold namei namex namexStart
  rw [elems_name hne (fun hs => hnamed.1 (name_subset f hs)) hnamed.2, wp_bind, wp_bind,
    if_pos (show (slash :: f.name).head? = some slash from rfl)]
  refine wp_use (iget_root g) (fun a v1 hr1 => ?_)
  refine wp_then (ilock_root h hr1) (fun _ v2 hr2 => ?_)
  rw [wp_bind, wp_din, hr2.slot]
  rw [if_neg (not_not.2 h.root.1), if_neg (by simp), wp_bind]
  refine dirlookup_root h hn hr2 (fun e _ hnone => ?_) (fun e off he => ?_) (fun hnone => ?_)
  · rw [hcname, hfind] at hnone
    cases hnone
  · rw [hcname, hfind] at he
    cases he
    have hnot : ∀ ip, 0 < (v2.inode ip).ref → (v2.inode ip).inum ≠ k + 2 := by
      intro ip hpos
      by_cases e : ip = a
      · rw [e, hr2.slot]
        unfold rootino
        dsimp only
        omega
      · rw [hr2.others ip e] at hpos
        exact absurd hpos (by decide)
    obtain ⟨c, hc⟩ : ∃ c : Ip, c ≠ a := exists_ne a
    refine wp_use (iget_fresh hnot (hr2.others c hc)) (fun b v3 ⟨hb0, hv3⟩ => ?_)
    have hb : b ≠ a := by
      rintro rfl
      rw [hr2.slot] at hb0
      cases hb0
    subst hv3
    refine wp_then (iunlockput_root h hr2 hb) (fun _ v4 hfound => ?_)
    exact ⟨b, rfl, hfound⟩
  · rw [hcname, hfind] at hnone
    cases hnone

theorem readFile_spec (hnd : (files.map Input.name).Nodup)
    (hdots : ∀ f ∈ files, f.name ≠ dot ∧ f.name ≠ dotdot) (hk : files[k]? = some f)
    (hne : f.name ≠ []) :
    wp (readFile cwd (slash :: f.name)) (fun r _ => r = some (.file, (f.contents.length : Int), f.contents)) F
      (volume sb g.disk) := by
  have hnode := h.file k f hk
  refine wp_then (ireclaim_spec h) (fun _ v hv => ?_)
  subst hv
  refine wp_then (namei_file h hn hnd hdots hk hne) (fun r v1 ⟨b, hr, hb⟩ => ?_)
  subst hr
  have ht : (v1.dinode (k + 2)).type ≠ .none := by
    rw [hb.dinode, volume_dinode, hnode.type]
    exact IType.noConfusion
  refine wp_then (ilock_fresh hb.slot hb.locks ht) (fun _ v2 ⟨hblk, _, _, hin⟩ => ?_)
  have hdin : (v2.inode b).din = inodeAt g (k + 2) := by
    rw [hin, update_self, hb.dinode, volume_dinode]
  have hdata : v2.blk.data = g.disk := by rw [hblk, hb.blk]; rfl
  have hmax : maxfile * bsize < 2 ^ 32 := by decide
  have hsize : (inodeAt g (k + 2)).size < 2 ^ 32 := by
    rw [hnode.size]
    exact lt_of_le_of_lt hnode.holds.le hmax
  rw [wp_bind, wp_din, wp_bind, hdin]
  refine wp_use (readi_slots hsize (fun x _ _ hx => ?_)) (fun r v3 ⟨_, hr⟩ => ?_)
  · rw [hdin, hnode.size] at hx
    have hx2 : x / bsize * bsize < f.contents.length := lt_of_le_of_lt (Nat.div_mul_le_self x bsize) hx
    rw [hdin, hdata]
    exact ⟨hnode.holds.lt_maxfile hx2, hnode.holds.slot _ hx2⟩
  have hbytes : bytesOf g.disk (inodeAt g (k + 2)) = f.contents := by
    apply bytes_ext
    · rw [length_bytesOf, hnode.size]
    intro x hx
    rw [length_bytesOf] at hx
    have hx2 : x / bsize * bsize < f.contents.length :=
      lt_of_le_of_lt (Nat.div_mul_le_self x bsize) (by rw [hnode.size] at hx; exact hx)
    rw [getD_bytesOf hx]
    exact hnode.holds.byte x (hnode.holds.lt_maxfile hx2) (hnode.holds.slot _ hx2)
  rw [hdin, hdata, hbytes, hnode.size] at hr
  have hans : readAns f.contents.length f.contents 0 f.contents.length = ((f.contents.length : Int), f.contents) := by
    have hlt : f.contents.length < 2 ^ 32 := lt_of_le_of_lt hnode.holds.le hmax
    rw [readAns, if_neg (by omega), drop_zero, take_length, readResult, nil_append, if_pos le_rfl]
  rw [hans] at hr
  rw [hr, hnode.type]
  rfl

theorem lookupRoot_spec :
    wp (lookupRoot name) (fun r _ => r ≠ none → cname name = dot ∨ cname name = dotdot ∨ ∃ f ∈ files, cname name = f.name)
      (NoBlock g (files.length + 2)) (volume sb g.disk) := by
  refine wp_then (ireclaim_spec h) (fun _ v hv => ?_)
  subst hv
  refine wp_then (iget_root g) (fun a v1 hr1 => ?_)
  refine wp_then (ilock_root h hr1) (fun _ v2 hr2 => ?_)
  obtain ⟨c, hc⟩ : ∃ c : Ip, c ≠ a := exists_ne a
  refine dirlookup_root h hn hr2 (fun e he _ => he) (fun e off he => ?_) (fun _ _ hne => absurd rfl hne)
  have hname : e.name = cname name := by simpa using find?_some he
  refine wp_use (iget_returns (hr2.others c hc)) (fun b v3 _ _ => ?_)
  rcases mem_entriesOf.1 (mem_of_find?_eq_some he) with rfl | rfl | ⟨k, f, hk, rfl⟩
  · exact .inl hname.symm
  · exact .inr (.inl hname.symm)
  · exact .inr (.inr ⟨f, mem_of_getElem? hk, hname.symm⟩)

end

end

theorem freeinode_of_run (hrun : (mkfs files).run zeroed = .ok ((), g)) : g.freeinode = files.length + 2 := by
  have h := wp_of_ok (mkfs_count files) hrun
  exact h

/-- **The kernel reads what `mkfs` has been given**: in the image of files with distinct names, none of them empty, `.` or
`..`, it has nothing to reclaim, it finds each file and reads its bytes, and it finds no other name in the root directory. A
lookup fails only in a full image whose entries fill their blocks. -/
theorem mkfs_kernel_agree (files : List Input) (g : Img) (hrun : (mkfs files).run zeroed = .ok ((), g))
    (hinodes : g.freeinode ≤ ninodes) (hnd : (files.map Input.name).Nodup)
    (hnames : ∀ f ∈ files, f.name ≠ [] ∧ f.name ≠ dot ∧ f.name ≠ dotdot) :
    ∃ v, mount g = some v ∧ ireclaim.run v = .ok ((), v) ∧
      (∀ f ∈ files, ∀ cwd, wp (readFile cwd (slash :: f.name))
        (fun r _ => r = some (.file, (f.contents.length : Int), f.contents)) (fun _ => False) v) ∧
      ∀ name, wp (lookupRoot name)
        (fun r _ => r ≠ none → cname name = dot ∨ cname name = dotdot ∨ ∃ f ∈ files, cname name = f.name)
        (NoBlock g (files.length + 2)) v := by
  have hn : files.length + 2 ≤ ninodes := freeinode_of_run hrun ▸ hinodes
  have h := wp_of_ok (mkfs_spec (fun _ => trivial) hn) hrun
  obtain ⟨_, v, hrec, rfl⟩ := wp_run (ireclaim_spec (F := fun _ => False) h)
  refine ⟨_, mount_image h, hrec, fun f hf cwd => ?_, fun name => lookupRoot_spec h hn⟩
  obtain ⟨k, hk⟩ := mem_iff_getElem?.1 hf
  exact readFile_spec h hn hnd (fun f hf => (hnames f hf).2) hk (hnames f hf).1

def catFile : Input where
  arg := [117, 115, 101, 114, 47, 95, 99, 97, 116]
  chunks := [[104, 101], [121]]
  arg_string := by decide
  chunk_size := by decide

theorem exists_of_isOk {ε β : Type} {r : Except ε (Unit × β)} (h : r.isOk = true) : ∃ b, r = .ok ((), b) := by
  cases r with
  | ok p => exact ⟨p.2, rfl⟩
  | error e => cases h

theorem mkfs_kernel_agree_cat : ∃ g v, (mkfs [catFile]).run zeroed = .ok ((), g) ∧ mount g = some v ∧
    wp (readFile 0 [47, 99, 97, 116]) (fun r _ => r = some (.file, 3, [104, 101, 121])) (fun _ => False) v := by
  have hok : ((mkfs [catFile]).run zeroed).isOk = true := by decide +kernel
  obtain ⟨g, hg⟩ := exists_of_isOk hok
  have hn : g.freeinode ≤ ninodes := by
    rw [freeinode_of_run hg]
    decide
  have hnd : ([catFile].map Input.name).Nodup := by decide
  have hnames : ∀ f ∈ [catFile], f.name ≠ [] ∧ f.name ≠ dot ∧ f.name ≠ dotdot := by decide
  obtain ⟨v, hv, _, hread, _⟩ := mkfs_kernel_agree [catFile] g hg hn hnd hnames
  exact ⟨g, v, hg, hv, hread catFile mem_cons_self 0⟩

def bareFile : Input where
  arg := [95]
  chunks := [[104]]
  arg_string := by decide
  chunk_size := by decide

section

local instance fifty : NeZero 50 := ⟨by decide⟩

/-- The counters of `mkfs`, and the type of what the kernel finds at a path of the image. -/
def typeAt (files : List Input) (path : Bytes) : Option (Nat × Nat × Option IType) :=
  match (mkfs files).run zeroed with
  | .error _ => none
  | .ok (_, g) =>
    match mount g with
    | none => none
    | some v =>
      match (readFile 0 path).run v with
      | .error _ => none
      | .ok (r, _) => some (g.freeblock, g.freeinode, r.map Prod.fst)

end

/-- **The file `_` cannot be read**: its stored name is empty, and the path `/` is the root directory. -/
theorem bare_name_root : bareFile.name.length ≤ dirsiz ∧ bareFile.contents.length ≤ maxfile * bsize ∧
    ([bareFile].map Input.name).Nodup ∧ 49 ≤ fssize ∧ 3 ≤ ninodes ∧
    typeAt [bareFile] (slash :: bareFile.name) = some (49, 3, some .dir) := by
  decide +kernel

end Xv6.Mkfs
