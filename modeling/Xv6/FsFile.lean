import Xv6.FsFree
/-!
# FsFile — the contents of a file

`writei` replaces a range of the contents and leaves every other inode alone, and `readi` returns a range of them
(`writei_contents`). A source that cannot be read to its end does no harm where it ends at a block boundary or in a new block
(`failed_copy_keeps`); elsewhere the part that could be read stays in a buffer that is not logged.
-/
namespace Xv6.Fs

open Function List Wp
variable {v v' : Vol} {R : Multiset Ip} {L : List Ip} {a : Ip} {k k' k'' : Blocks} {d : Dinode}
  {F : Panic → Prop}

/-! ## Writing and reading -/

variable {src : Bytes} {n c : Nat} {E own : Multiset Nat} {off b i bn m : Nat} {data : Nat → Nat → UInt8}

theorem readi_slice {room : Nat} (h : Mid v R L) (ha : a ∈ L) (hroom : n ≤ room) (hn : off + n < 2 ^ 32) :
    (readi a room off n).run v =
      .ok (((((nodeAt v a).bytes.drop off).take n).length, ((nodeAt v a).bytes.drop off).take n), v) := by
  have hspec : wp (readi a room off n) _ (fun _ => False) v := readi_spec h ha (by omega)
  obtain ⟨r, v', hr, rfl, hans⟩ := wp_run hspec
  rw [hr, hans]
  unfold readAns readResult
  have hlen : (((nodeAt v' a).bytes.drop off).take n).length ≤ room := by
    rw [length_take]
    omega
  split
  · have hnil : (nodeAt v' a).bytes.drop off = [] := drop_eq_nil_of_le (by omega)
    rw [hnil, take_nil]
    rfl
  · rw [nil_append, if_pos hlen]

theorem root_locked : ∃ w, (ilock 0).run (began (mount rootImage)) = .ok ((), w) ∧ Mid w {0} [0] ∧
    Quiet (began (mount rootImage)) w ∧ w.disk = (mount rootImage).disk := by
  have hspec : wp (ilock 0) _ (fun _ => False) (began (mount rootImage)) :=
    ilock_spec (began_mid (mount_mid rootImage_consistent))
    (Multiset.mem_singleton_self 0) (.inl not_mem_nil) (.inr (tree_ne_none (by decide) (by decide)))
  obtain ⟨_, w, hw, -, h, hq, hst⟩ := wp_run hspec
  exact ⟨w, hw, h, hq, hst.log.2.2.1⟩

/-- **A block that is not logged holds what it held.** -/
structure Clean (k k' : Blocks) : Prop where
  logged : ∀ b ∈ k.logged, b ∈ k'.logged
  data : ∀ b, b ∉ k'.logged → k'.data b = k.data b

theorem Clean.refl (k : Blocks) : Clean k k := ⟨fun _ => id, fun _ _ => rfl⟩

theorem Clean.trans (h : Clean k k') (h' : Clean k' k'') : Clean k k'' :=
  ⟨fun b hb => h'.logged b (h.logged b hb), fun b hb => (h'.data b hb).trans (h.data b (fun hm => hb (h'.logged b hm)))⟩

theorem Clean.of_update {blk : Nat → UInt8} (hl : ∀ c ∈ k.logged, c ∈ k'.logged)
    (hd : k'.data = update k.data b blk) (hb : b ∈ k'.logged) : Clean k k' := by
  refine ⟨hl, fun c hc => ?_⟩
  have hne : c ≠ b := fun e => hc (e ▸ hb)
  rw [hd, update_of_ne hne]

theorem balloc_clean (h : Marks k own) : wp balloc (fun b k' => Clean k k' ∧ (b = 0 ∧ k'.data = k.data ∨
      b ≠ 0 ∧ b ∉ own ∧ b ∈ k'.logged ∧ k'.data = update k.data b (fun _ => 0))) F k := by
  apply wp_use (balloc_spec h)
  rintro b k' ⟨hf, -, ⟨rfl, -, hd, -⟩ | ⟨hown, hm, hd, hl⟩⟩
  · exact ⟨⟨hf.logged, fun _ _ => by rw [hd]⟩, .inl ⟨rfl, hd⟩⟩
  · exact ⟨Clean.of_update hf.logged hd hl, .inr ⟨hm.ne_zero (Multiset.mem_cons_self _ _), hown, hl, hd⟩⟩

theorem slotAddr_fresh (hown : b ∉ E + blocksOf data d) (hc : i < ndirect → c ≠ i) (h0 : slotAddr data d c = 0) :
    slotAddr (update data b (fun _ => 0)) { d with addrs := update d.addrs i b } c = 0 := by
  by_cases hdir : c < ndirect
  · rw [slotAddr_direct hdir] at h0 ⊢
    have hne : c ≠ i := fun e => hc (e ▸ hdir) e
    dsimp only
    rw [update_of_ne hne, h0]
  rw [slotAddr_indirect hdir] at h0 ⊢
  by_cases e : i = ndirect
  · simp only [e, update_self]
    split
    · rfl
    · rfl
  · simp only [update_of_ne (Ne.symm e)]
    split
    · rfl
    · rename_i hi
      rw [if_neg hi] at h0
      rw [update_of_ne (indirect_ne_of_notMem hown hi), h0]

theorem ballocAt_clean (h : Marks k (E + blocksOf k.data d)) : wp (ballocAt d i) (fun r k' =>
    Clean k k' ∧ (d.addrs i = 0 → r.1 ≠ 0 → r.1 ∈ k'.logged) ∧
      ∀ c, (i < ndirect → c ≠ i) → slotAddr k.data d c = 0 → slotAddr k'.data r.2 c = 0) F k := by
  apply wp_ite
  · intro hne
    exact ⟨Clean.refl _, fun h0 => absurd h0 hne, fun _ _ h0 => h0⟩
  intro _
  apply wp_then (balloc_clean h)
  rintro b k' ⟨hcl, ⟨rfl, hd⟩ | ⟨hb0, hown, hl, hd⟩⟩
  · exact ⟨hcl, fun _ hne => absurd rfl hne, fun c _ h0 => by rw [hd]; exact h0⟩
  · rw [if_neg hb0]
    exact ⟨hcl, fun _ _ => hl, fun c hc h0 => by rw [hd]; exact slotAddr_fresh hown hc h0⟩

theorem bmap_clean (h : Marks k (E + blocksOf k.data d)) (hbn : bn < maxfile) :
    wp (bmap d bn) (fun r k' => Clean k k' ∧ (slotAddr k.data d bn = 0 → r.1 ≠ 0 → r.1 ∈ k'.logged) ∧
      ∀ c, c ≠ bn → slotAddr k.data d c = 0 → slotAddr k'.data r.2 c = 0) F k := by
  apply wp_ite
  · intro hdir
    apply wp_use (ballocAt_clean h)
    rintro r k' ⟨hcl, hnew, hslot⟩
    exact ⟨hcl, fun h0 => hnew (slotAddr_direct hdir ▸ h0), fun c hc => hslot c (fun _ => hc)⟩
  intro hdir
  have hj := indirect_lt hbn hdir
  rw [if_pos hj]
  apply wp_then (wp_and (ballocAt_clean h) (ballocAt_spec (F := F) h le_rfl))
  rintro ⟨ind, d1⟩ k1 ⟨⟨hcl1, -, hslot1⟩, hm1, -, -, -, ha1⟩
  have hslot1' : ∀ c, slotAddr k.data d c = 0 → slotAddr k1.data d1 c = 0 :=
    fun c => hslot1 c (fun hlt => absurd hlt (Nat.lt_irrefl _))
  apply wp_ite
  · intro _
    exact ⟨hcl1, fun _ hne => absurd rfl hne, fun c _ => hslot1' c⟩
  intro hind
  have hi : d1.addrs ndirect = ind := ha1 hind
  subst hi
  apply wp_ite
  · intro hw
    refine ⟨hcl1, fun h0 => ?_, fun c _ => hslot1' c⟩
    have hz := hslot1' bn h0
    rw [slotAddr_indirect hdir, if_neg hind] at hz
    exact absurd hz hw
  intro _
  apply wp_then (balloc_clean hm1)
  rintro b k2 ⟨hcl2, hb⟩
  unfold storeWord
  rcases hb with ⟨rfl, hd2⟩ | ⟨hb0, hown, hl2, hd2⟩
  · exact ⟨hcl1.trans hcl2, fun _ hne => absurd rfl hne, fun c _ h0 => by rw [hd2]; exact hslot1' c h0⟩
  rw [if_neg hb0]
  simp only [wp_bind, wp_get, setData, logWrite, wp_modify, wp_pure]
  refine ⟨(hcl1.trans hcl2).trans (Clean.of_update (fun _ => mem_cons_of_mem _) rfl mem_cons_self),
    fun _ _ => mem_cons_of_mem _ hl2, fun c hc h0 => ?_⟩
  have hz := hslot1' c h0
  by_cases hcd : c < ndirect
  · rw [slotAddr_direct hcd] at hz ⊢
    exact hz
  · rw [slotAddr_indirect hcd, if_neg hind] at hz ⊢
    rw [update_self, word_store_ne _ _ (by omega), hd2, update_of_ne (indirect_ne_of_notMem hown hind)]
    exact hz

/-! ## A source that ends too early -/

/-- **The source ends where no harm is done**: at the start of a block, or in a block the inode does not have. -/
def EndsWell (data : Nat → Nat → UInt8) (d : Dinode) (off : Nat) (src : Bytes) : Prop :=
  src = [] ∨ (off + src.length) % bsize = 0 ∨ slotAddr data d ((off + src.length) / bsize) = 0

theorem EndsWell.first (h : EndsWell data d off src)
    (hshort : src.length < m) (hm : m ≤ bsize - off % bsize) : src = [] ∨ slotAddr data d (off / bsize) = 0 := by
  rcases h with h | h | h
  · exact .inl h
  · refine .inl (length_eq_zero_iff.1 ?_)
    unfold bsize at *
    omega
  · have hdiv : (off + src.length) / bsize = off / bsize := by
      unfold bsize at *
      omega
    rw [hdiv] at h
    exact .inr h

theorem blit_nil (blk : Nat → UInt8) (o : Nat) : blit blk o [] = blk := by
  funext x
  exact blit_out (by rw [length_nil]; omega)

/-- **The loop of `writei` when the source ends too early**: what follows the bytes that count is as it was, and so are the
blocks that are not logged. -/
theorem writeLoop_short : ∀ (fuel off n : Nat) (k : Blocks) (d : Dinode) (src : Bytes) (tot : Nat),
    n ≤ fuel → off + n ≤ maxfile * bsize → Marks k (E + blocksOf k.data d) → src.length < n → EndsWell k.data d off src →
    wp (writeLoop d src tot (pieces fuel off n)) (fun r k' => Clean k k' ∧ ∃ done, r.1 = tot + done ∧
      ∀ x, off + done ≤ x → x / bsize < maxfile → slotAddr k.data d (x / bsize) ≠ 0 → byteAt k'.data r.2 x = byteAt k.data d x)
      (fun _ => True) k
  | 0, off, n, k, d, src, tot, hn, _, _, hs, _ => by omega
  | fuel + 1, off, n, k, d, src, tot, hn, hmax, hm, hs, hends => by
    have hb : off % bsize < bsize := Nat.mod_lt _ (by decide)
    obtain ⟨m, hmdef⟩ : ∃ m, m = min n (bsize - off % bsize) := ⟨_, rfl⟩
    have hbn : off / bsize < maxfile := by
      rw [Nat.div_lt_iff_lt_mul (by decide)]
      omega
    unfold pieces
    rw [if_neg (by omega), ← hmdef]
    apply wp_then (wp_and (bmap_clean hm hbn) (bmap_spec (F := fun _ => True) hm hbn))
    rintro ⟨addr, d1⟩ k1 ⟨⟨hcl1, hnew, hzero⟩, hm1, hf1, -, hg1, ha1, -⟩
    have hw1 : Wrote E k d k1 d1 off [] := hg1.wrote hm1 hf1
    have hkeep1 : ∀ x, off + 0 ≤ x → x / bsize < maxfile → slotAddr k.data d (x / bsize) ≠ 0 →
        byteAt k1.data d1 x = byteAt k.data d x := fun x hx hlt hne => (hw1.old x hlt hne (.inr hx)).2
    apply wp_ite
    · intro _
      exact ⟨hcl1, 0, rfl, hkeep1⟩
    intro hne
    have hs1 : slotAddr k1.data d1 (off / bsize) = addr := ha1 hne
    subst hs1
    simp only [wp_bind, wp_get, setData, wp_modify]
    obtain ⟨data, hdata⟩ : ∃ data, data = update k1.data (slotAddr k1.data d1 (off / bsize))
      (blit (k1.data (slotAddr k1.data d1 (off / bsize))) (off % bsize) (src.take m)) := ⟨_, rfl⟩
    rw [← hdata]
    have hlen : (src.take m).length ≤ m := by
      rw [length_take]
      omega
    have hw2 : ∀ halted logged, Calm k1 { k1 with data := data, halted := halted, logged := logged } →
        Wrote E k d { k1 with data := data, halted := halted, logged := logged } d1 off (src.take m) := fun _ _ hl =>
      hw1.trans (show off + 0 ≤ _ by omega)
        (show Wrote E k1 d1 _ d1 off (src.take m) from wrote_slot hm1 hbn hne (by omega) rfl rfl rfl hl hdata)
    apply wp_ite
    · intro hshort
      rcases hends.first hshort (by omega) with rfl | h0
      · -- nothing has been copied
        rw [take_nil, blit_nil, update_eq_self] at hdata
        rw [hdata]
        exact ⟨⟨hcl1.logged, hcl1.data⟩, 0, rfl, hkeep1⟩
      · -- the block is new, and logged
        refine ⟨hcl1.trans (Clean.of_update (fun _ => id) hdata (hnew h0 hne)), 0, rfl, fun x hx hlt hxne => ?_⟩
        have hout : x / bsize ≠ off / bsize := fun e => hxne (e ▸ h0)
        refine ((hw2 k1.halted k1.logged ⟨rfl, fun _ => id, fun _ _ => rfl⟩).old x hlt hxne (.inr ?_)).2
        unfold bsize at *
        omega
    · intro hlong
      have hw := hw2 _ (slotAddr k1.data d1 (off / bsize) :: k1.logged) (Calm.write _ rfl rfl rfl)
      have hcl2 : Clean k (Blocks.log { k1 with data := data } (slotAddr k1.data d1 (off / bsize))) :=
        hcl1.trans (Clean.of_update (fun _ => mem_cons_of_mem _) hdata mem_cons_self)
      have hends' : EndsWell data d1 (off + m) (src.drop m) := by
        have hsum : off + m + (src.drop m).length = off + src.length := by
          rw [length_drop]
          omega
        unfold EndsWell
        rw [hsum]
        rcases hends with rfl | hmod | h0
        · rw [length_nil] at hlong
          omega
        · exact .inr (.inl hmod)
        refine .inr (.inr ?_)
        have hc : (off + src.length) / bsize ≠ off / bsize := by
          unfold bsize at *
          omega
        have hnd := (Multiset.nodup_add.1 hm1.nodup).2.1
        rw [slotAddr_congr (fun hi => ?_)]
        · exact hzero _ hc h0
        · rw [hdata, update_of_ne (slotAddr_ne_indirect hnd hbn hne hi).symm]
      apply wp_use (writeLoop_short fuel (off + m) (n - m) _ d1 (src.drop m) (tot + m) (by omega) (by omega) hw.marks
        (by rw [length_drop]; omega) hends')
      rintro r k3 ⟨hcl3, done, hr, hkeep⟩
      refine ⟨hcl2.trans hcl3, m + done, by omega, fun x hx hlt hxne => ?_⟩
      obtain ⟨hs2, hb2⟩ := hw.old x hlt hxne (.inr (by omega))
      rw [hkeep x (by omega) hlt hs2, hb2]

theorem writei_short (h : Mid v R L) (ha : a ∈ L) (hn : n < 2 ^ 32) (hsrc : src.length < n)
    (hends : EndsWell v.blk.data (v.inode a).din off src) :
    wp (writei a src off n) (fun r v' => Clean v.blk v'.blk ∧ ∀ x, off + r.toNat ≤ x → x < (v.inode a).din.size →
      byteAt v'.blk.data (v'.inode a).din x = byteAt v.blk.data (v.inode a).din x) (fun _ => True) v := by
  obtain ⟨haR, hav⟩ := h.locked a ha
  have hfull := h.fullAt haR hav
  unfold writei
  apply wp_ite
  · intro _
    exact ⟨Clean.refl _, fun _ _ _ => rfl⟩
  intro hc
  apply wp_ite
  · intro _
    exact ⟨Clean.refl _, fun _ _ _ => rfl⟩
  intro hc'
  rw [wp_bind, wp_onBlocks]
  apply wp_use (writeLoop_short n off n v.blk (v.inode a).din src 0 le_rfl (by omega) (h.marksAt haR hav) hsrc hends)
  rintro ⟨tot, d'⟩ k ⟨hcl, done, hr, hkeep⟩
  simp only [iassign, setDin, iupdate, wp_bind, wp_get, wp_set, wp_setInode, wp_onBlocks, wp_pure, update_self]
  refine ⟨⟨fun b hb => mem_cons_of_mem _ (hcl.logged b hb), fun b hb => hcl.data b (fun hm => hb (mem_cons_of_mem _ hm))⟩,
    fun x hx hlt => ?_⟩
  obtain ⟨hbn, hne⟩ := hfull.at hlt
  have hbyte := hkeep x (by dsimp only at hr; omega) hbn hne
  split
  · exact hbyte
  · exact hbyte

/-- **The cache agrees with the disk**, where the log has no newer contents. -/
structure CacheAgrees (v : Vol) : Prop where
  dinode : ∀ i, iblock v.blk.sb i ∉ v.blk.logged → (v.disk (iblock v.blk.sb i)).dinode (i % 16) = v.dinode i
  bit : ∀ b, bblock v.blk.sb b ∉ v.blk.logged → (v.disk (bblock v.blk.sb b)).bit (b % (bsize * 8)) = v.blk.bit b
  data : ∀ b, b ∉ v.blk.logged → (v.disk b).bytes = v.blk.data b

theorem CacheAgrees.of_clean (h : CacheAgrees v) (h' : Mid v' R L) (hcl : Clean v.blk v'.blk) (hdisk : v'.disk = v.disk) :
    CacheAgrees v' := by
  refine ⟨h'.synced.dinode, h'.synced.bit, fun b hb => ?_⟩
  rw [hcl.data b hb, hdisk]
  exact h.data b (fun hm => hb (hcl.logged b hm))

theorem writei_size {r : Int} (h : Mid v R L) (ha : a ∈ L)
    (hr : (writei a src off n).run v = .ok (r, v')) (hn : n < 2 ^ 32) : (v.inode a).din.size ≤ (v'.inode a).din.size := by
  obtain ⟨h', hst, -, ⟨-, rfl, -⟩ | ⟨t, done, -, hle, -, hts, -, hoff, htree⟩⟩ :=
    wp_of_ok (writei_spec (F := fun _ => True) h ha hn) hr
  · exact Nat.le_refl _
  obtain ⟨haR, hav⟩ := h'.locked a ha
  have hnode := h'.node haR hav
  rw [hst.inum a haR, htree, update_self] at hnode
  have hsize : ∀ w : Vol, (nodeAt w a).bytes.length = (w.inode a).din.size := fun w => length_bytesOf _ _
  have hlen : (src.take t).length = t := length_take_of_le (by omega)
  rw [← hsize, ← hsize, ← Option.some.inj hnode]
  unfold written
  rw [length_take, length_patch hoff, hlen]
  omega

/-- **A failed copy keeps the file**, if the source ends where no harm is done: the bytes behind those that count read as
before, and the cache still agrees with the disk and the log. -/
theorem failed_copy_keeps {v : Vol} {R : Multiset Ip} {L : List Ip} {a : Ip} {src : Bytes} {off n : Nat} (h : Mid v R L)
    (ha : a ∈ L) (hagrees : CacheAgrees v) (hn : n < 2 ^ 32) (hsrc : src.length < n)
    (hends : EndsWell v.blk.data (v.inode a).din off src) :
    ∃ (r : Int) (v' : Vol), (writei a src off n).run v = .ok (r, v') ∧ CacheAgrees v' ∧
      ∀ room off' n', n' ≤ room → off + r.toNat ≤ off' → off' + n' ≤ (v.inode a).din.size →
        (readi a room off' n').run v' = .ok ((n', ((nodeAt v a).bytes.drop off').take n'), v') := by
  obtain ⟨haR, hav⟩ := h.locked a ha
  have hsize := (h.fullAt haR hav).size_le
  have hmax : maxfile * bsize = 274432 := rfl
  have hspec : wp (writei a src off n) _ (fun _ => False) v := writei_spec h ha hn
  obtain ⟨r, v', hr, h', hst, -, -⟩ := wp_run hspec
  obtain ⟨hcl, hold⟩ := wp_of_ok (writei_short h ha hn hsrc hends) hr
  refine ⟨r, v', hr, hagrees.of_clean h' hcl hst.log.2.2.1, fun room off' n' hroom hfrom hto => ?_⟩
  have hgrow := writei_size h ha hr hn
  have hbytes : ((nodeAt v' a).bytes.drop off').take n' = ((nodeAt v a).bytes.drop off').take n' := by
    unfold nodeAt
    rw [slice_bytesOf, slice_bytesOf, min_eq_left (by omega), min_eq_left (by omega)]
    refine map_congr_left (fun i hi => ?_)
    rw [mem_range] at hi
    exact hold (off' + i) (by omega) (by omega)
  have hlen : (((nodeAt v a).bytes.drop off').take n').length = n' := by
    unfold nodeAt
    rw [slice_bytesOf, length_bytesAt]
    omega
  rw [readi_slice h' ha hroom (by omega), hbytes, hlen]

/-- Entries for the rest of the first block of the root directory, and a source that ends there. -/
theorem failed_copy_keeps_root : ∃ w, (ilock 0).run (began (mount rootImage)) = .ok ((), w) ∧
    ∃ (r : Int) (v' : Vol), (writei 0 (List.replicate 992 0) 32 1008).run w = .ok (r, v') ∧ CacheAgrees v' := by
  obtain ⟨w, hw, h, hq, hdisk⟩ := root_locked
  have hagrees : CacheAgrees w := by
    refine ⟨h.synced.dinode, h.synced.bit, fun b _ => ?_⟩
    rw [hdisk, hq.1]
    rfl
  have hlen : (replicate 992 (0 : UInt8)).length = 992 := length_replicate
  have hends : EndsWell w.blk.data (w.inode 0).din 32 (replicate 992 0) := by
    refine .inr (.inl ?_)
    rw [hlen]
    rfl
  have hshort : (replicate 992 (0 : UInt8)).length < 1008 := by
    rw [hlen]
    decide
  obtain ⟨r, v', hr, hv, -⟩ := failed_copy_keeps h mem_cons_self hagrees (by decide) hshort hends
  exact ⟨w, hw, r, v', hr, hv⟩

/-- A file with the bytes `ab` at block 37, and a write of two bytes of which one can be read: the write returns 0, the next
read returns `cb`, and the buffer has the new byte though its block is not logged and has the old one on the disk. -/
theorem failed_copy_shows : ((Run.run fsStep (start rootImage)
      [(initSlot, .open (some [102]) 0x202), (initSlot, .write 0 [97, 98] 2 2)]).bind fun s =>
    (StateT.run (m := Except Panic) (do
      beginOp
      ilock 1
      let t ← writei 1 [99] 0 2
      let (_, bytes) ← readi 1 2 0 2
      let v ← get
      return (t, bytes, decide (37 ∈ v.blk.logged), (v.disk 37).bytes 0, v.blk.data 37 0)) s.vol).toOption.map Prod.fst) =
    some (0, [99, 98], false, 97, 99) := by
  decide +kernel

end Xv6.Fs
