import Xv6.FsCalls
import Xv6.FsTab
/-!
# FsDir — contents of inodes and entries of directories

`readi` of a locked inode returns a part of its bytes and changes nothing; `writei` writes a prefix of what it is given.
A directory is read entry by entry (`scan`): `dirFind` is the entry that `dirlookup` finds in the bytes of a directory,
`dirHole` the place where `dirlink` writes, `dirEmpty` what `isdirempty` answers.
-/
namespace Xv6.Fs

open Function List Wp
variable {v v' : Vol} {R : Multiset Ip} {L : List Ip} {F : Panic → Prop} {off : Nat} {e e' : Panic}

/-! ## `readi` -/

theorem length_bytesOf (data : Nat → Nat → UInt8) (d : Dinode) : (bytesOf data d).length = d.size := length_bytesAt ..

theorem slice_bytesOf (data : Nat → Nat → UInt8) (d : Dinode) (off n : Nat) :
    ((bytesOf data d).drop off).take n = bytesAt data d off (min n (d.size - off)) := by
  unfold bytesOf bytesAt
  apply ext_getElem
  · simp
  · intro i h1 h2
    simp

/-- What `readi` returns and stores of an inode with contents `bytes`. -/
def readAns (room : Nat) (bytes : Bytes) (off n : Nat) : Int × Bytes :=
  if bytes.length < off ∨ 2 ^ 32 ≤ off + n then (0, []) else readResult room [] ((bytes.drop off).take n)

variable {a : Ip} {n size i x t : Nat} {l bs src l' name : Bytes} {d d' : Dinode} {E : Multiset Nat} {α : Type}
  {f : Nat → Dirent → Option α} {last : α}

theorem readi_slots {room : Nat} (hn : n < 2 ^ 32) (hslot : ∀ x, off ≤ x → x < off + n → x < (v.inode a).din.size →
      x / bsize < maxfile ∧ slotAddr v.blk.data (v.inode a).din (x / bsize) ≠ 0) :
    wp (readi a room off n) (fun r v' => v' = v ∧ r = readAns room (bytesOf v.blk.data (v.inode a).din) off n) F v := by
  obtain ⟨d, hd⟩ : ∃ d, d = (v.inode a).din := ⟨_, rfl⟩
  rw [← hd] at hslot
  unfold readi readAns
  rw [length_bytesOf, wp_bind, wp_din, ← hd]
  have hcond : (off > d.size ∨ (off + n) % 2 ^ 32 < off) ↔ (d.size < off ∨ 2 ^ 32 ≤ off + n) := by omega
  by_cases hc : d.size < off ∨ 2 ^ 32 ≤ off + n
  · rw [if_pos (hcond.2 hc), if_pos hc]
    exact ⟨rfl, rfl⟩
  rw [if_neg (fun h => hc (hcond.1 h)), if_neg hc]
  obtain ⟨m, hm⟩ : ∃ m, m = min n (d.size - off) := ⟨_, rfl⟩
  have hlen : (if (off + n) % 2 ^ 32 > d.size then d.size - off else n) = m := by
    split <;> omega
  rw [wp_bind, wp_onBlocks, slice_bytesOf, ← hm]
  rw [hlen]
  refine wp_use (readLoop_spec m off m [] le_rfl (Nat.zero_le _)
    (fun x hx hx' => hslot x hx (by omega) (by omega))) (fun r k ⟨hk, hrd, hr⟩ => ?_)
  obtain ⟨tot, out, d'⟩ := r
  dsimp only at hrd ⊢
  subst hk hrd
  rw [hr, hd]
  exact ⟨by simp only [update_eq_self], rfl⟩

theorem readi_spec {room : Nat} (h : Mid v R L) (ha : a ∈ L) (hn : n < 2 ^ 32) :
    wp (readi a room off n) (fun r v' => v' = v ∧ r = readAns room (nodeAt v a).bytes off n) F v := by
  obtain ⟨haR, hav⟩ := h.locked a ha
  have hfull := h.fullAt haR hav
  exact readi_slots hn (fun x _ _ => hfull.at)

/-! ## `writei` -/

def patch (l : Bytes) (off : Nat) (bs : Bytes) : Bytes := l.take off ++ (bs ++ l.drop (off + bs.length))

theorem length_patch (h : off ≤ l.length) : (patch l off bs).length = max l.length (off + bs.length) := by
  simp only [patch, length_append, length_take, length_drop]
  omega

theorem patch_nil : patch l off [] = l := by simp [patch]

theorem getD_patch_in (h : off ≤ l.length) (hi : i < bs.length) : (patch l off bs).getD (off + i) 0 = bs.getD i 0 := by
  have hlen : (l.take off).length = off := length_take_of_le (by omega)
  unfold patch
  rw [getD_append_right _ _ _ _ (by omega), hlen, Nat.add_sub_cancel_left, getD_append _ _ _ _ hi]

theorem getD_patch_out (h : off ≤ l.length) (hx : x < off ∨ off + bs.length ≤ x) :
    (patch l off bs).getD x 0 = l.getD x 0 := by
  have hlen : (l.take off).length = off := length_take_of_le (by omega)
  unfold patch
  rcases hx with hx | hx
  · rw [getD_append _ _ _ _ (by omega)]
    simp only [getD_eq_getElem?_getD, getElem?_take_of_lt hx]
  · rw [getD_append_right _ _ _ _ (by omega), getD_append_right _ _ _ _ (by omega), hlen]
    simp only [getD_eq_getElem?_getD, getElem?_drop]
    congr 2
    omega

theorem getD_bytesOf {data : Nat → Nat → UInt8} (hx : x < d.size) : (bytesOf data d).getD x 0 = byteAt data d x := by
  unfold bytesOf bytesAt
  simp [hx]

theorem bytes_ext (hlen : l.length = l'.length) (h : ∀ x < l.length, l.getD x 0 = l'.getD x 0) : l = l' := by
  apply ext_getElem hlen
  intro i h1 h2
  have := h i h1
  rwa [getD_eq_getElem _ _ h1, getD_eq_getElem _ _ h2] at this

theorem Wrote.bytes {k k' : Blocks}
    (h : Wrote E k d k' d' off bs) (hfull : Full k.data d) (hoff : off ≤ d.size) (hs : d.size ≤ size)
    (hs' : size ≤ max d.size (off + bs.length)) :
    bytesOf k'.data { d' with size := size } = (patch (bytesOf k.data d) off bs).take size := by
  have hoff' : off ≤ (bytesOf k.data d).length := by rwa [length_bytesOf]
  have hlen : (patch (bytesOf k.data d) off bs).length = max d.size (off + bs.length) := by
    rw [length_patch hoff', length_bytesOf]
  apply bytes_ext
  · rw [length_bytesOf, length_take, hlen]
    dsimp only
    omega
  intro x hx
  rw [length_bytesOf] at hx
  dsimp only at hx
  rw [getD_bytesOf hx, getD_eq_getElem?_getD, getElem?_take_of_lt hx, ← getD_eq_getElem?_getD]
  by_cases hin : off ≤ x ∧ x < off + bs.length
  · obtain ⟨i, rfl⟩ := Nat.exists_eq_add_of_le hin.1
    rw [getD_patch_in hoff' (by omega)]
    exact (h.new i (by omega)).2
  · have hx' : x < d.size := by omega
    obtain ⟨hbn, hne⟩ := hfull.at hx'
    rw [getD_patch_out hoff' (by omega), getD_bytesOf hx']
    exact (h.old x hbn hne (by omega)).2

theorem Wrote.full {k k' : Blocks} (h : Wrote E k d k' d' off bs) (hfull : Full k.data d) (hoff : off ≤ d.size)
    (hs' : size ≤ max d.size (off + bs.length)) (hmax : size ≤ maxfile * bsize) :
    Full k'.data { d' with size := size } := by
  intro bn hbn
  have hb : 0 < bsize := by decide
  have hlt : bn < maxfile := Nat.lt_of_mul_lt_mul_right (lt_of_lt_of_le hbn hmax)
  have hdiv : bn * bsize / bsize = bn := Nat.mul_div_cancel _ hb
  refine ⟨hlt, ?_⟩
  by_cases hin : off ≤ bn * bsize ∧ bn * bsize < off + bs.length
  · obtain ⟨i, hi⟩ := Nat.exists_eq_add_of_le hin.1
    have := (h.new i (by omega)).1
    rwa [← hi, hdiv] at this
  · have hx : bn * bsize < d.size := by
      dsimp only at hbn
      omega
    have := (h.old (bn * bsize) (by rwa [hdiv]) (by rw [hdiv]; exact (hfull bn hx).2) (by omega)).1
    rwa [hdiv] at this

/-- The node of an inode that `n` bytes of `src` have been written to: `done` counts, `t` have been copied. -/
def written (n : Node) (src : Bytes) (off t done : Nat) : Node :=
  { n with bytes := (patch n.bytes off (src.take t)).take (max n.bytes.length (off + done)) }

theorem written_bytes {n : Node} (hoff : off ≤ n.bytes.length) (ht : t ≤ src.length) :
    (written n src off t t).bytes = patch n.bytes off (src.take t) := by
  unfold written
  have hlen : (src.take t).length = t := length_take_of_le (by omega)
  apply take_of_length_le
  rw [length_patch hoff, hlen]

/-- **`writei` writes a prefix of what it is given.**  It returns how much; what it has copied of a source that ends too
early is written too. It stops before the end of a source only where the inode has no block, behind its last byte. -/
theorem writei_spec (h : Mid v R L) (ha : a ∈ L) (hn : n < 2 ^ 32) :
    wp (writei a src off n) (fun r v' => Mid v' R L ∧ Stays R 0 v v' ∧
      Logs {(v.inode a).inum} (2 * (pieces n off n).length) v v' ∧
      ((r = -1 ∧ v' = v ∧ ((nodeAt v a).bytes.length < off ∨ maxfile * bsize < off + n)) ∨ ∃ t done : Nat, r = done ∧
        done ≤ t ∧ t ≤ n ∧ t ≤ src.length ∧
        (n ≤ src.length → t = done ∧
          (done < n → (done = 0 ∨ (off + done) % bsize = 0) ∧ (nodeAt v a).bytes.length ≤ off + done)) ∧
        off ≤ (nodeAt v a).bytes.length ∧
        tree v' = update (tree v) (v.inode a).inum (some (written (nodeAt v a) src off t done)))) F v := by
  obtain ⟨haR, hav⟩ := h.locked a ha
  have hfull := h.fullAt haR hav
  have hty := (h.coherent a haR hav).2
  obtain ⟨d, hd⟩ : ∃ d, d = (v.inode a).din := ⟨_, rfl⟩
  have hnode : nodeAt v a = ⟨d.type, d.major, d.minor, d.nlink, bytesOf v.blk.data d⟩ := by rw [hd]; rfl
  rw [hnode]
  have hmarks := h.marksAt haR hav
  rw [← hd] at hfull hmarks hty
  have hsize := hfull.size_le
  have hmax : maxfile * bsize = 274432 := rfl
  unfold writei written
  rw [length_bytesOf, wp_bind, wp_din, ← hd]
  have hquiet : Logs {(v.inode a).inum} (2 * (pieces n off n).length) v v :=
    (Quiet.refl v).logs.mono (Finset.empty_subset _) (Nat.zero_le _)
  refine wp_ite (fun hc => ⟨h, Stays.refl .., hquiet, .inl ⟨rfl, rfl, by omega⟩⟩) (fun hc => ?_)
  refine wp_ite (fun hc => ⟨h, Stays.refl _ _ _, hquiet, .inl ⟨rfl, rfl, by omega⟩⟩) (fun hc' => ?_)
  have hoff : off ≤ d.size := by omega
  have hend : off + n ≤ maxfile * bsize := by omega
  rw [wp_bind, wp_onBlocks]
  refine wp_use (writeLoop_spec n off n v.blk d src 0 le_rfl hend hmarks)
    (fun r k ⟨t, done, hr, hle, hts, htn, hstop, ⟨S, hS, hlog⟩, hw⟩ => ?_)
  obtain ⟨tot, d'⟩ := r
  dsimp only at hw ⊢
  obtain rfl : tot = done := by omega
  have hlen : (src.take t).length = t := length_take_of_le (by omega)
  have hsz : d'.size = d.size := by rw [hw.same]
  have hdty : d'.type = d.type := by rw [hw.same]
  have hnl : short d'.nlink = d'.nlink := by
    have := h.nlinkAt haR hav
    rwa [← hd, show d.nlink = d'.nlink by rw [hw.same]] at this
  have hd'' : (if off + tot > d'.size then { d' with size := off + tot } else d') =
      { d' with size := max d.size (off + tot) } := by
    split
    · rw [max_eq_right (by omega)]
    · rw [Nat.max_eq_left (by omega), ← hsz]
  rw [hd'', wp_bind]
  have hblk : blocksOf k.data { d' with size := max d.size (off + tot) } = blocksOf k.data d' := blocksOf_addrs rfl
  have hfull' : Full k.data { d' with size := max d.size (off + tot) } := hw.full hfull hoff (by omega) (by omega)
  refine wp_use (iassign_spec h ha (d := { d' with size := max d.size (off + tot) })
    (by rw [hblk]; exact hw.marks) hw.frame hfull' (by rw [← hd]; exact hdty) hnl (by rw [← hd]; exact hw.ind) hlog)
    (fun _ v' ⟨hmid, htree, hst, hlogs, _⟩ => ⟨hmid, hst, hlogs.mono (Finset.Subset.refl _) hS,
      .inr ⟨t, tot, rfl, hle, htn, hts, fun hns => ?_, hoff, ?_⟩⟩)
  · obtain ⟨he, hstop⟩ := hstop hns
    refine ⟨he, fun hlt => ⟨(hstop hlt).1, ?_⟩⟩
    by_contra hin
    exact (hfull.at (Nat.lt_of_not_le hin)).2 (hstop hlt).2
  · rw [htree]
    congr 1
    unfold nodeOf
    rw [hw.bytes hfull hoff (Nat.le_max_left _ _) (by omega), hw.same]
    exact if_neg hty

/-! ## `ialloc` -/

theorem ialloc_spec {type : IType} (h : Mid v R L) (ht : type ≠ .none) (hF : F .igetNoInodes) :
    wp (ialloc type) (fun r v' => match r with
      | none => v' = v
      | some a => ∃ i, 0 < i ∧ i < v.blk.sb.ninodes ∧ i < 65536 ∧ tree v i = none ∧ (v'.inode a).inum = i ∧
        Mid v' (a ::ₘ R) L ∧ Stays R 0 v v' ∧ Logs {i} 0 v v' ∧
        tree v' = update (tree v) i (some ⟨type, 0, 0, 0, []⟩)) F v := by
  unfold ialloc
  rw [wp_bind, wp_get]
  split
  · exact rfl
  rename_i i hi
  have hp := find?_some hi
  simp only [decide_eq_true_eq] at hp
  have hmem := mem_of_find?_eq_some hi
  rw [mem_range'_1] at hmem
  have hle := v.blk.sb.ninodes_le
  have hlt : i < 65536 := by omega
  have hfree : tree v i = none := by
    unfold tree nodeOf
    rw [if_pos hlt, if_pos hp]
  simp only [wp_bind, wp_set, wp_onBlocks, logWrite, wp_modify]
  obtain ⟨v1, hv1⟩ : ∃ v1 : Vol, v1 = { v with blk := v.blk.log (iblock v.blk.sb i),
                                               dinode := update v.dinode i (freshDinode type) } := ⟨_, rfl⟩
  rw [← hv1]
  have hm := h.marks
  rw [owned_split hlt, blocksAt, if_pos hp, add_zero] at hm
  have hfresh : blocksOf v1.blk.data (freshDinode type) = 0 := blocksOf_none rfl
  have hmid : Mid v1 R L ∧ tree v1 = update (tree v) i (nodeOf v1.blk.data (freshDinode type)) := by
    refine h.change hlt (by rw [hv1]) ?_
      (by rw [hv1]; exact ⟨rfl, rfl, fun _ _ => rfl, Calm.write _ rfl rfl rfl, fun _ _ => rfl⟩)
      (fun _ bn hbn => absurd hbn (Nat.not_lt_zero _)) rfl (fun _ => ⟨by omega, by omega⟩) (by rw [hv1])
      (by rw [hv1]; exact mem_cons_self)
      (fun _ hne => absurd rfl hne) (by rw [hv1]) (fun a => by rw [hv1]; exact ⟨rfl, rfl⟩)
      (fun a ha => by rw [hv1]; exact (h.locked a ha).2) (fun a ha hv e => ?_) (fun a _ _ => by rw [hv1])
    · rw [blocksAt, if_neg (show (freshDinode type).type ≠ .none from ht), hfresh, add_zero, hv1]
      exact hm.congr rfl rfl
    · rw [hv1] at hv
      obtain ⟨hd, hty⟩ := h.coherent a ha hv
      rw [hd, e] at hty
      exact absurd hp hty
  refine wp_mono (iget_spec hmid.1 hlt) ?_ (fun e he => he.1 ▸ hF)
  rintro a v' ⟨h', hq, hst, hin, _⟩
  refine ⟨i, by omega, by omega, hlt, hfree, hin, h', ?_, ⟨∅, le_refl _, fun b hb => ?_⟩, ?_⟩
  · refine ⟨fun b hb => ?_, fun b hb hv => ?_, ?_, ?_, ?_⟩
    · rw [hst.inum b hb, hv1]
    · have := hst.valid b hb (by rw [hv1]; exact hv)
      rw [hv1] at this
      exact this
    · have := hst.peak
      rw [hv1] at this
      exact this
    · have hcalm : Calm v.blk v1.blk := by
        rw [hv1]
        exact Calm.write _ rfl rfl rfl
      exact hcalm.trans hst.calm
    · have := hst.log
      rw [hv1] at this
      exact this
  · rw [hq.1, hv1] at hb
    rcases mem_cons.1 hb with rfl | hb
    · exact .inr (.inr (Finset.mem_union_right _ (Finset.mem_image.2 ⟨i, Finset.mem_singleton_self _, rfl⟩)))
    · exact .inl hb
  · rw [hq.tree, hmid.2]
    congr 1
    unfold nodeOf
    rw [if_neg (show (freshDinode type).type ≠ .none from ht)]
    rfl

/-! ## Entries -/

def entryAt (bytes : Bytes) (off : Nat) : Option Dirent :=
  if off + 16 ≤ bytes.length then some (parseDirent ((bytes.drop off).take 16)) else none

/-- A loop over the entries at the offsets still to come that stops with an answer, or with `e` where there is no entry. -/
def scan {α : Type} (e : Panic) (bytes : Bytes) (f : Nat → Dirent → Option α) (last : α) : List Nat → Except Panic α
  | [] => .ok last
  | off :: rest =>
    match entryAt bytes off with
    | none => .error e
    | some de =>
      match f off de with
      | some r => .ok r
      | none => scan e bytes f last rest

def named (name : Bytes) (off : Nat) (de : Dirent) : Option (Option (Nat × Nat)) :=
  if de.inum ≠ 0 ∧ namecmp name de.name = true then some (some (de.inum, off)) else none

def dirFind (bytes name : Bytes) : Except Panic (Option (Nat × Nat)) :=
  scan .dirlookupRead bytes (named name) none (offsets 0 bytes.length)

def dirHole (bytes : Bytes) : Except Panic Nat :=
  scan .dirlinkRead bytes (fun off de => if de.inum = 0 then some off else none) (16 * ((bytes.length + 15) / 16))
    (offsets 0 bytes.length)

def dirEmpty (bytes : Bytes) : Except Panic Bool :=
  scan .isdiremptyReadi bytes (fun _ de => if de.inum ≠ 0 then some false else none) true (offsets 2 bytes.length)

theorem offsets_lt {start : Nat} (h : off ∈ offsets start size) : off < size := by
  obtain ⟨k, hk, rfl⟩ := mem_map.1 h
  rw [mem_range'_1] at hk
  omega

theorem readDirent_spec (h : Mid v R L) (ha : a ∈ L) (hoff : off < (nodeAt v a).bytes.length) :
    wp (readDirent e a off) (fun de v' => v' = v ∧ entryAt (nodeAt v a).bytes off = some de)
      (fun e' => e' = e ∧ entryAt (nodeAt v a).bytes off = none) v := by
  obtain ⟨haR, hav⟩ := h.locked a ha
  have hsize := (h.fullAt haR hav).size_le
  have hlen : (nodeAt v a).bytes.length = (v.inode a).din.size := length_bytesOf _ _
  have hmax : maxfile * bsize = 274432 := rfl
  refine wp_then (readi_spec h ha (by decide)) (fun r v' ⟨hv, hr⟩ => ?_)
  obtain ⟨n, bytes⟩ := r
  subst hv
  have hres : ((((nodeAt v' a).bytes.drop off).take 16).length : Int) = n ∧
      ((nodeAt v' a).bytes.drop off).take 16 = bytes := by
    have hle : (([] : Bytes) ++ ((nodeAt v' a).bytes.drop off).take 16).length ≤ 16 := by
      rw [nil_append, length_take]
      exact min_le_left _ _
    rw [readAns, if_neg (by omega), readResult, if_pos hle, nil_append, Prod.mk.injEq] at hr
    exact ⟨hr.1.symm, hr.2.symm⟩
  obtain ⟨hn, hbytes⟩ := hres
  rw [length_take, length_drop] at hn
  rw [← hbytes]
  refine wp_ite (fun hne => ⟨rfl, if_neg (by omega)⟩) (fun he => ⟨rfl, if_pos (by omega)⟩)

theorem scanLoop_spec {p : Dirent → Prop} [DecidablePred p] {f : Nat → α}
    {g : List Nat → FM α} (hnil : g [] = pure last) (hcons : ∀ off rest, g (off :: rest) =
      readDirent e a off >>= fun de => if p de then pure (f off) else g rest) (h : Mid v R L) (ha : a ∈ L) : ∀ offs : List Nat,
    (∀ off ∈ offs, off < (nodeAt v a).bytes.length) → wp (g offs) (fun r v' => v' = v ∧
        scan e (nodeAt v a).bytes (fun off de => if p de then some (f off) else none) last offs = .ok r)
      (fun e' => scan e (nodeAt v a).bytes (fun off de => if p de then some (f off) else none) last offs = .error e') v
  | [], _ => by
    rw [hnil]
    exact ⟨rfl, rfl⟩
  | off :: rest, hlt => by
    unfold scan
    rw [hcons, wp_bind]
    refine wp_mono (readDirent_spec h ha (hlt off mem_cons_self)) (fun de v' ⟨hv, hde⟩ => ?_)
      (fun e ⟨he, hnone⟩ => by rw [hnone, he])
    rw [hv, hde]
    dsimp only
    refine wp_ite (fun h0 => ⟨rfl, by rw [if_pos h0]⟩) (fun hne => ?_)
    rw [if_neg hne]
    exact scanLoop_spec hnil hcons h ha rest (fun o ho => hlt o (mem_cons_of_mem _ ho))

theorem size_nodeAt (v : Vol) (a : Ip) : (nodeAt v a).bytes.length = (v.inode a).din.size := length_bytesOf _ _

theorem isdirempty_spec (h : Mid v R L) (ha : a ∈ L) :
    wp (isdirempty a) (fun r v' => v' = v ∧ dirEmpty (nodeAt v a).bytes = .ok r)
      (fun e => dirEmpty (nodeAt v a).bytes = .error e) v := by
  unfold isdirempty dirEmpty
  rw [wp_bind, wp_din, size_nodeAt]
  exact scanLoop_spec (g := emptyLoop a) rfl (fun _ _ => rfl) h ha _
    (fun off hoff => by rw [size_nodeAt]; exact offsets_lt hoff)

theorem parseDirent_inum_lt (bytes : Bytes) : (parseDirent bytes).inum < 65536 := by
  have h0 := (bytes.getD 0 0).toNat_lt
  have h1 := (bytes.getD 1 0).toNat_lt
  unfold parseDirent
  dsimp only
  omega

theorem entryAt_inum_lt {bytes : Bytes} {de : Dirent} (h : entryAt bytes off = some de) : de.inum < 65536 := by
  unfold entryAt at h
  split at h
  · cases h
    exact parseDirent_inum_lt _
  · cases h

theorem lookupLoop_spec (h : Mid v R L) (ha : a ∈ L) : ∀ offs : List Nat,
    (∀ off ∈ offs, off < (nodeAt v a).bytes.length) →
    wp (lookupLoop a name offs) (fun r v' => Quiet v v' ∧ Stays R 0 v v' ∧ match r with
        | none => v' = v ∧ scan .dirlookupRead (nodeAt v a).bytes (named name) none offs = .ok none
        | some (b, off) => Mid v' (b ::ₘ R) L ∧
          scan .dirlookupRead (nodeAt v a).bytes (named name) none offs = .ok (some ((v'.inode b).inum, off)))
      (fun e => scan .dirlookupRead (nodeAt v a).bytes (named name) none offs = .error e ∨ e = .igetNoInodes ∧
        ∃ i off, scan .dirlookupRead (nodeAt v a).bytes (named name) none offs = .ok (some (i, off)) ∧
          ¬ Held v R i ∧ ∀ b, b ∈ R) v
  | [], _ => ⟨Quiet.refl _, Stays.refl .., rfl, rfl⟩
  | off :: rest, hlt => by
    unfold lookupLoop scan
    rw [wp_bind]
    refine wp_mono (readDirent_spec h ha (hlt off mem_cons_self)) (fun de v' ⟨hv, hde⟩ => ?_)
      (fun e ⟨he, hnone⟩ => .inl (by rw [hnone, he]))
    rw [hv, hde]
    dsimp only
    unfold named
    refine wp_ite (fun hc => ?_) (fun hc => ?_)
    · rw [if_pos hc, wp_bind]
      refine wp_mono (iget_spec h (entryAt_inum_lt hde)) (fun b v' ⟨h', hq, hst, hi, _⟩ => ?_) (fun e ⟨he, hh, hf⟩ => ?_)
      · exact ⟨hq, hst, h', by rw [hi]⟩
      · exact .inr ⟨he, _, _, rfl, hh, hf⟩
    · rw [if_neg hc]
      exact lookupLoop_spec h ha rest (fun o ho => hlt o (mem_cons_of_mem _ ho))

theorem dirlookup_spec (h : Mid v R L) (ha : a ∈ L) (hd : (nodeAt v a).type = .dir) :
    wp (dirlookup a name) (fun r v' => Quiet v v' ∧ Stays R 0 v v' ∧ match r with
        | none => v' = v ∧ dirFind (nodeAt v a).bytes name = .ok none
        | some (b, off) => Mid v' (b ::ₘ R) L ∧ dirFind (nodeAt v a).bytes name = .ok (some ((v'.inode b).inum, off)))
      (fun e => dirFind (nodeAt v a).bytes name = .error e ∨ e = .igetNoInodes ∧ ∃ i off,
        dirFind (nodeAt v a).bytes name = .ok (some (i, off)) ∧ ¬ Held v R i ∧ ∀ b, b ∈ R) v := by
  have hty : (v.inode a).din.type = .dir := hd
  unfold dirlookup dirFind
  rw [wp_bind, wp_din, if_neg (fun hne => hne hty), size_nodeAt]
  exact lookupLoop_spec h ha _ (fun off hoff => by rw [size_nodeAt]; exact offsets_lt hoff)

/-! ## `dirlink` -/

theorem length_direntBytes (de : Dirent) : (direntBytes de).length = 16 := by
  unfold direntBytes dirsiz
  simp

theorem scan_ok {bytes : Bytes} {r : α} : ∀ {offs : List Nat},
    scan e bytes f last offs = .ok r → r = last ∨ ∃ off ∈ offs, ∃ de, entryAt bytes off = some de ∧ f off de = some r
  | [], h => by
    cases h
    exact .inl rfl
  | off :: rest, h => by
    unfold scan at h
    cases hde : entryAt bytes off with
    | none =>
      rw [hde] at h
      cases h
    | some de =>
      rw [hde] at h
      dsimp only at h
      cases hf : f off de with
      | some r' =>
        rw [hf] at h
        cases h
        exact .inr ⟨off, mem_cons_self, de, hde, hf⟩
      | none =>
        rw [hf] at h
        rcases scan_ok h with hlast | ⟨o, ho, hr⟩
        · exact .inl hlast
        · exact .inr ⟨o, mem_cons_of_mem _ ho, hr⟩

theorem scan_error {bytes : Bytes} : ∀ {offs : List Nat}, scan e bytes f last offs = .error e' → e' = e
  | [], h => by cases h
  | off :: rest, h => by
    unfold scan at h
    cases hde : entryAt bytes off with
    | none =>
      rw [hde] at h
      cases h
      rfl
    | some de =>
      rw [hde] at h
      dsimp only at h
      cases hf : f off de with
      | some r' =>
        rw [hf] at h
        cases h
      | none =>
        rw [hf] at h
        exact scan_error h

theorem offsets_mod {start : Nat} (h : off ∈ offsets start size) : off % 16 = 0 := by
  obtain ⟨k, -, rfl⟩ := mem_map.1 h
  omega

theorem dirHole_mod {bytes : Bytes} (h : dirHole bytes = .ok off) : off % 16 = 0 := by
  rcases scan_ok h with rfl | ⟨o, ho, de, -, hf⟩
  · omega
  · split at hf
    · cases hf
      exact offsets_mod ho
    · cases hf

def addEntry (n : Node) (off i : Nat) (name : Bytes) : Node := { n with bytes := patch n.bytes off (direntBytes ⟨i, name⟩) }

theorem written_none {n : Node} (h : off ≤ n.bytes.length) : written n src off 0 0 = n := by
  unfold written
  rw [take_zero, patch_nil, add_zero, max_eq_left h, take_length]

theorem written_all {n : Node} (h : off ≤ n.bytes.length) :
    written n src off src.length src.length = { n with bytes := patch n.bytes off src } := by
  unfold written
  rw [take_length, ← length_patch h, take_length]

theorem writeEntry_spec (h : Mid v R L) (ha : a ∈ L) (hsrc : src.length = 16) (hoff : off % 16 = 0) :
    wp (writei a src off 16) (fun r v' => Mid v' R L ∧ Stays R 0 v v' ∧ Logs {(v.inode a).inum} 2 v v' ∧
      (r ≠ 16 ∧ tree v' = tree v ∧ (nodeAt v a).bytes.length < off + 16 ∨ r = 16 ∧ off ≤ (nodeAt v a).bytes.length ∧
        tree v' = update (tree v) (v.inode a).inum
          (some { nodeAt v a with bytes := patch (nodeAt v a).bytes off src }))) F v := by
  obtain ⟨haR, hav⟩ := h.locked a ha
  have hpieces : (pieces 16 off 16).length ≤ 1 := length_pieces_le _ _ _ _ (by
    unfold bsize
    omega)
  have hsize := (h.fullAt haR hav).size_le
  rw [← size_nodeAt] at hsize
  refine wp_use (writei_spec h ha (by decide)) (fun r v' ⟨hmid, hst, hlog, hr⟩ =>
    ⟨hmid, hst, hlog.mono (Finset.Subset.refl _) (by omega), ?_⟩)
  rcases hr with ⟨hr, hv, hout⟩ | ⟨t, done, hr, hle, htn, hts, hall, hin, htree⟩
  · exact .inl ⟨by omega, by rw [hv], by omega⟩
  obtain ⟨rfl, hstop⟩ := hall (by omega)
  by_cases hlt : t < 16
  · obtain ⟨hmod, hend⟩ := hstop hlt
    have h0 : t = 0 := by
      rcases hmod with h0 | hmod
      · exact h0
      · unfold bsize at hmod
        omega
    subst h0
    refine .inl ⟨by omega, ?_, by omega⟩
    rw [htree, written_none hin, ← h.node haR hav, update_eq_self]
  · obtain rfl : t = src.length := by omega
    rw [written_all hin] at htree
    exact .inr ⟨by omega, hin, htree⟩

theorem Good.same (hg : Good v R) (ht : tree v' = tree v) (hst : Stays R n v v') : Good v' R := by
  intro i m hm h0
  rw [ht] at hm
  obtain ⟨a, ha, hi, hv⟩ := hg i m hm h0
  exact ⟨a, ha, (hst.inum a ha).trans hi, (hst.valid a ha hv).1⟩

theorem dirlink_spec (h : Mid v R L) (hg : Good v R) (ha : a ∈ L) (hd : (nodeAt v a).type = .dir) (hno : F .igetNoInodes)
    (hF : ∀ e, dirFind (nodeAt v a).bytes name = .error e ∨ dirHole (nodeAt v a).bytes = .error e → F e) :
    wp (dirlink a name i) (fun r v' => Mid v' R L ∧ Stays R (L.length + 1) v v' ∧ Logs {(v.inode a).inum} 2 v v' ∧
      (r = -1 ∧ tree v' = tree v ∨ r = 0 ∧ dirFind (nodeAt v a).bytes name = .ok none ∧ ∃ off,
        dirHole (nodeAt v a).bytes = .ok off ∧ off ≤ (nodeAt v a).bytes.length ∧
        tree v' = update (tree v) (v.inode a).inum (some (addEntry (nodeAt v a) off i name)))) F v := by
  unfold dirlink
  rw [wp_bind]
  refine wp_mono (dirlookup_spec h ha hd) (fun r v1 ⟨hq1, hst1, hr⟩ => ?_) (fun e he => ?_)
  rotate_left
  · rcases he with he | ⟨rfl, -⟩
    · exact hF e (.inl he)
    · exact hno
  cases r with
  | some r =>
    obtain ⟨b, off⟩ := r
    obtain ⟨h1, -⟩ := hr
    have hg1 := hg.quiet hq1 hst1
    refine wp_then (iput_spec h1 (fun hb => (h.locked b hb).1)) (fun _ v2 ⟨h2, hst2, ht2⟩ => ?_)
    have hq2 : Quiet v1 v2 := by
      rcases ht2 with ⟨-, hq⟩ | ⟨hf, -⟩
      · exact hq
      · exact absurd hf (hg1.not_frees h1)
    exact ⟨h2, (hst1.mono le_rfl (Nat.zero_le _)).trans hst2,
      (hq1.trans hq2).logs.mono (Finset.empty_subset _) (Nat.zero_le _), .inl ⟨rfl, (hq1.trans hq2).tree⟩⟩
  | none =>
    obtain ⟨rfl, hfind⟩ := hr
    rw [wp_bind, wp_din, wp_bind, ← size_nodeAt]
    refine wp_mono (scanLoop_spec (g := holeLoop a _) rfl (fun _ _ => rfl) h ha _
      (fun off => offsets_lt)) (fun off v2 ⟨hv2, hhole⟩ => ?_)
      (fun e he => hF e (.inr he))
    rw [hv2]
    refine wp_then (writeEntry_spec h ha (length_direntBytes _) (dirHole_mod hhole)) (fun r v3 ⟨h3, hst3, hlog3, hr⟩ => ?_)
    rcases hr with ⟨hne, ht3, -⟩ | ⟨rfl, hle, ht3⟩
    · rw [if_pos hne]
      exact ⟨h3, hst3.mono le_rfl (Nat.zero_le _), hlog3, .inl ⟨rfl, ht3⟩⟩
    · exact ⟨h3, hst3.mono le_rfl (Nat.zero_le _), hlog3, .inr ⟨rfl, hfind, off, hhole, hle, ht3⟩⟩

end Xv6.Fs
