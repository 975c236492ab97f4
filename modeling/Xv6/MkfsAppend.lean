import Xv6.MkfsFormat
/-!
# MkfsAppend — `iappend` extends the contents of one inode

`mkfs` gives out blocks in order: those below `freeblock` are in use and the others are zero. Seen so (`view`), its inodes
own their blocks as the inodes of the kernel do, and the facts about owned blocks hold. An inode `Holds` its contents if
every block it has agrees with them, with zeros behind their end; growing keeps that, and a write at the end appends.
-/
namespace Xv6.Mkfs

open Function List Fs Wp
variable {E own : Multiset Nat} {g g' g'' : Img} {d d' d'' : Dinode} {F : Die → Prop} {b i j bn x : Nat}

/-! ## The blocks in use -/

/-- A disk with more blocks than `mkfs` can give out, laid out as `sb` is. -/
def wide : Sb where
  size := 2 ^ 32 - 1
  nblocks := 2 ^ 32 - 1 - nmeta
  ninodes := ninodes
  inodestart := sb.inodestart
  bmapstart := sb.bmapstart
  nblocks_lt := by decide
  size_lt := by decide
  ninodes_le := sb.ninodes_le

@[irreducible] def everyBlock : List Nat := List.range (2 ^ 32)

theorem mem_everyBlock (h : b < 2 ^ 32) : b ∈ everyBlock := by
  unfold everyBlock
  exact mem_range.2 h

/-- The image as blocks of the kernel: those below `freeblock` are marked. -/
def view (g : Img) : Blocks where
  sb := wide
  bit := fun b => decide (b < g.freeblock)
  data := g.disk
  outstanding := 0
  logged := everyBlock
  halted := none
  ballocs := 0
  readAllocs := 0

theorem nmeta_wide : wide.nmeta = nmeta := by decide

/-- **The image between two appends.** -/
structure Tidy (g : Img) : Prop where
  nsect : g.nsect = fssize
  free : g.freeblock ≤ fssize
  blank : ∀ b, g.freeblock ≤ b → g.disk b = fun _ => 0

theorem Marks.below (h : Marks (view g) own) (hb : b ∈ own) : nmeta ≤ b ∧ b < g.freeblock := by
  obtain ⟨hlo, hhi⟩ := h.range b hb
  have hlo' : nmeta ≤ b := nmeta_wide ▸ hlo
  exact ⟨hlo', of_decide_eq_true ((h.bit b hhi).2 (.inr hb))⟩

theorem Marks.new (h : Marks (view g) own) (hf : g.freeblock < 2 ^ 32 - 1) :
    g.freeblock ∉ own ∧ nmeta ≤ g.freeblock ∧ Marks (view { g with freeblock := g.freeblock + 1 }) (g.freeblock ::ₘ own) := by
  have hfree : ¬ (g.freeblock < nmeta ∨ g.freeblock ∈ own) := fun hm =>
    lt_irrefl _ (of_decide_eq_true ((h.bit g.freeblock hf).2 (nmeta_wide ▸ hm)))
  rw [not_or, not_lt] at hfree
  refine ⟨hfree.2, hfree.1, Multiset.nodup_cons.2 ⟨hfree.2, h.nodup⟩, fun b hb => ?_, fun b hb => ?_⟩
  · rcases Multiset.mem_cons.1 hb with rfl | hb
    · exact ⟨(nmeta_wide ▸ hfree.1 : wide.nmeta ≤ _), hf⟩
    · exact h.range b hb
  · have hbit := h.bit b hb
    simp only [view, decide_eq_true_eq] at hbit ⊢
    rw [Multiset.mem_cons, Nat.lt_succ_iff_lt_or_eq, hbit, or_assoc, or_comm (a := b = g.freeblock)]

/-! ## Growth -/

/-- **The inode may have got more blocks**, each of them zero; those of `E` and the blocks before the data blocks are as they
were. -/
structure Grown (E : Multiset Nat) (g : Img) (d : Dinode) (g' : Img) (d' : Dinode) : Prop where
  marks : Marks (view g') (E + blocksOf g'.disk d')
  kept : ∀ b, b ∈ E ∨ b < nmeta → g'.disk b = g.disk b
  grows : Grows (view g) d (view g') d'
  fresh : ∀ bn < maxfile, slotAddr g.disk d bn = 0 → slotAddr g'.disk d' bn ≠ 0 →
    g'.disk (slotAddr g'.disk d' bn) = fun _ => 0
  blank : ∀ b, g'.freeblock ≤ b → g'.disk b = fun _ => 0
  out : ∀ i, ndirect < i → d'.addrs i = d.addrs i
  nsect : g'.nsect = g.nsect
  freeinode : g'.freeinode = g.freeinode

theorem Grown.refl (hm : Marks (view g) (E + blocksOf g.disk d)) (hb : ∀ b, g.freeblock ≤ b → g.disk b = fun _ => 0) :
    Grown E g d g d := ⟨hm, fun _ _ => rfl, Grows.refl _ _, fun _ _ h h' => absurd h h', hb, fun _ _ => rfl, rfl, rfl⟩

theorem Grown.trans (h : Grown E g d g' d') (h' : Grown E g' d' g'' d'') : Grown E g d g'' d'' := by
  refine ⟨h'.marks, fun b hb => (h'.kept b hb).trans (h.kept b hb), h.grows.trans h'.grows (fun _ => id),
    fun bn hbn h0 hne => ?_, h'.blank, fun i hi => (h'.out i hi).trans (h.out i hi), h'.nsect.trans h.nsect,
    h'.freeinode.trans h.freeinode⟩
  by_cases hmid : slotAddr g'.disk d' bn = 0
  · exact h'.fresh bn hbn hmid hne
  · obtain ⟨hs, hd⟩ : slotAddr g''.disk d'' bn = slotAddr g'.disk d' bn ∧
        g''.disk (slotAddr g'.disk d' bn) = g'.disk (slotAddr g'.disk d' bn) := h'.grows.slot bn hbn hmid
    rw [hs, hd]
    exact h.fresh bn hbn h0 hmid

section
variable (hm : Marks (view g) (E + blocksOf g.disk d))
include hm

section
variable (hb : ∀ b, g.freeblock ≤ b → g.disk b = fun _ => 0)
include hb

theorem addrFor_spec (hf : g.freeblock < 2 ^ 32 - 1) (hi : i ≤ ndirect) :
    wp (addrFor d i) (fun d' g' => Grown E g d g' d' ∧ d'.addrs i ≠ 0 ∧
      g'.freeblock ≤ max g.freeblock (d'.addrs i + 1)) F g := by
  unfold addrFor newBlock
  refine wp_ite (fun hne => ⟨Grown.refl hm hb, hne, le_max_left _ _⟩) (fun h0 => ?_)
  rw [ne_eq, not_not] at h0
  simp only [wp_bind, wp_get, wp_modify, wp_pure, update_self]
  obtain ⟨hown, hmeta, hm'⟩ := Marks.new hm hf
  have hz : g.disk g.freeblock = fun _ => 0 := hb _ le_rfl
  have hne : g.freeblock ≠ 0 := by
    have : 0 < nmeta := by decide
    omega
  obtain ⟨hblk, hg⟩ := addr_insert (k := view { g with freeblock := g.freeblock + 1 }) hi h0 hne hz
    (mem_everyBlock (by omega))
  have hg0 : Grows (view g) d (view { g with freeblock := g.freeblock + 1 }) d := Grows.of_data rfl
  refine ⟨⟨?_, fun _ _ => rfl, hg0.trans hg (fun _ => id), fun bn hbn hs hs' => ?_,
    fun b hle => hb b (Nat.le_of_succ_le hle), fun j hj => update_of_ne (by omega) _ _, rfl, rfl⟩, hne,
    le_max_right _ _⟩
  · have hadd : E + blocksOf g.disk { d with addrs := update d.addrs i g.freeblock } =
        g.freeblock ::ₘ (E + blocksOf g.disk d) := by rw [← Multiset.add_cons]; exact congrArg (E + ·) hblk
    exact hadd ▸ hm'
  by_cases hdir : bn < ndirect
  · rw [slotAddr_direct hdir] at hs hs' ⊢
    by_cases e : bn = i
    · subst e
      dsimp only
      rw [update_self, hz]
    · dsimp only at hs'
      rw [update_of_ne e] at hs'
      exact absurd hs hs'
  · rw [slotAddr_indirect hdir] at hs hs'
    by_cases e : ndirect = i
    · subst e
      simp only [update_self, hz, word_zero, ite_self, ne_eq, not_true] at hs'
    · simp only [update_of_ne e] at hs'
      exact absurd hs hs'

theorem wordFor_spec (hn : g.nsect = fssize)
    (hf : d.addrs ndirect < fssize → g.freeblock ≤ fssize) (hi : d.addrs ndirect ≠ 0) (hj : j < nindirect)
    (hF : F .read) :
    wp (wordFor (d.addrs ndirect) j) (fun x g' => Grown E g d g' d ∧ slotAddr g'.disk d (ndirect + j) = x ∧ x ≠ 0 ∧
      (x < fssize → g'.freeblock ≤ fssize)) F g := by
  have hslot : ∀ disk, slotAddr disk d (ndirect + j) = word (disk (d.addrs ndirect)) j := by
    intro disk
    rw [slotAddr_indirect (by omega), if_neg hi, Nat.add_sub_cancel_left]
  unfold wordFor newBlock
  simp only [wp_bind]
  refine wp_ite (fun _ => hF) (fun hlt => ?_)
  rw [hn, not_le] at hlt
  refine wp_ite (fun hne => ⟨Grown.refl hm hb, hslot _, hne, fun _ => hf hlt⟩) (fun h0 => ?_)
  rw [ne_eq, not_not] at h0
  simp only [wp_bind, wp_get, wp_modify, wp_pure]
  have hfs : fssize = 2000 := rfl
  obtain ⟨hown, hmeta, hm'⟩ := Marks.new hm (by omega)
  obtain ⟨hlo, hhi⟩ := Marks.below hm (Multiset.mem_add.2 (.inr (indirect_mem hi)))
  have hne : g.freeblock ≠ 0 := hm'.ne_zero (Multiset.mem_cons_self _ _)
  obtain ⟨hm2, hdata, hg, hs⟩ := word_insert (view ⟨_, g.nsect, g.freeinode, g.freeblock + 1⟩) hm' hj hi h0 rfl rfl rfl
    (mem_everyBlock (by omega))
  have hword : word (blit (g.disk (d.addrs ndirect)) (4 * j) (wordBytes g.freeblock)) j = g.freeblock :=
    word_store _ _ (by omega)
  have hnsect : max g.nsect (d.addrs ndirect + 1) = g.nsect := by omega
  rw [hword]
  refine ⟨⟨hm2.congr rfl rfl, fun b hbE => ?_, ?_, fun bn hbn hs0 hs1 => ?_, fun b hle => ?_, fun _ _ => rfl, hnsect, rfl⟩,
    hs, hne, fun hlt' => Nat.succ_le_of_lt hlt'⟩
  · rcases hbE with hbE | hbm
    · exact hdata b hbE
    · exact update_of_ne (by omega) _ _
  · have hg0 : Grows (view g) d (view { g with freeblock := g.freeblock + 1 }) d := Grows.of_data rfl
    exact hg0.trans ⟨hg.same, hg.slot, fun _ => .inl (mem_everyBlock (by omega))⟩ (fun _ => id)
  · dsimp only at hs1 ⊢
    have hdir : ¬ bn < ndirect := fun hdir => by
      rw [slotAddr_direct hdir] at hs0 hs1
      exact hs1 hs0
    rw [slotAddr_indirect hdir, if_neg hi] at hs0 hs1 ⊢
    rw [update_self] at hs1 ⊢
    by_cases e : bn - ndirect = j
    · rw [e, hword, update_of_ne (by omega)]
      exact hb _ le_rfl
    · rw [word_store_ne _ _ e] at hs1
      exact absurd hs0 hs1
  · dsimp only at hle ⊢
    rw [update_of_ne (by omega)]
    exact hb b (by omega)

end

theorem blockFor_spec (ht : Tidy g) (hbn : bn < maxfile) (hF : F .read) :
    wp (blockFor d bn) (fun r g' => Grown E g d g' r.2 ∧ slotAddr g'.disk r.2 bn = r.1 ∧ r.1 ≠ 0 ∧
      (r.1 < fssize → g'.freeblock ≤ fssize)) F g := by
  have hfs : fssize = 2000 := rfl
  have hfree := ht.free
  refine wp_ite (fun hdir => ?_) (fun hind => ?_)
  · refine wp_then (addrFor_spec hm ht.blank (by omega) (Nat.le_of_lt hdir)) (fun d' g' ⟨hg, hne, hle⟩ => ?_)
    exact ⟨hg, slotAddr_direct hdir, hne, fun hlt => by dsimp only at hlt; omega⟩
  refine wp_then (addrFor_spec hm ht.blank (by omega) le_rfl) (fun d' g' ⟨hg, hne, hle⟩ => ?_)
  have hj := indirect_lt hbn hind
  have hsum : ndirect + (bn - ndirect) = bn := by omega
  refine wp_then (wordFor_spec hg.marks hg.blank (hg.nsect.trans ht.nsect) (fun hlt => by omega) hne hj hF)
    (fun x g'' ⟨hg', hs, hx, hle'⟩ => ?_)
  rw [hsum] at hs
  exact ⟨hg.trans hg', hs, hx, hle'⟩

end

/-! ## Contents -/

/-- **The inode holds `c`**, and zeros behind it. -/
structure Holds (disk : Nat → Nat → UInt8) (d : Dinode) (c : Bytes) : Prop where
  le : c.length ≤ maxfile * bsize
  slot : ∀ bn, bn * bsize < c.length → slotAddr disk d bn ≠ 0
  byte : ∀ x, x / bsize < maxfile → slotAddr disk d (x / bsize) ≠ 0 → byteAt disk d x = c.getD x 0

variable {disk disk' : Nat → Nat → UInt8} {c bs : Bytes}

theorem Holds.lt_maxfile (h : Holds disk d c) (hbn : bn * bsize < c.length) : bn < maxfile :=
  Nat.lt_of_mul_lt_mul_right (lt_of_lt_of_le hbn h.le)

theorem Holds.nil (h : d.addrs = fun _ => 0) : Holds disk d [] := by
  have h0 : ∀ bn, slotAddr disk d bn = 0 := by
    intro bn
    unfold slotAddr
    rw [h]
    split
    · rfl
    · exact if_pos rfl
  exact ⟨Nat.zero_le _, fun bn hbn => absurd hbn (Nat.not_lt_zero _), fun x _ hne => absurd (h0 _) hne⟩

theorem Holds.addrs (h : Holds disk d c) (ha : d'.addrs = d.addrs) : Holds disk d' c := by
  have hs : ∀ bn, slotAddr disk d' bn = slotAddr disk d bn := by
    intro bn
    unfold slotAddr
    rw [ha]
  refine ⟨h.le, fun bn hbn => by rw [hs]; exact h.slot bn hbn, fun x hx hne => ?_⟩
  rw [hs] at hne
  rw [← h.byte x hx hne]
  unfold byteAt
  rw [hs]

theorem Holds.frame (h : Holds disk d c) (hd : ∀ b ∈ blocksOf disk d, disk' b = disk b) : Holds disk' d c := by
  have hs : ∀ bn, slotAddr disk' d bn = slotAddr disk d bn := slotAddr_congr (fun hi => hd _ (indirect_mem hi))
  refine ⟨h.le, fun bn hbn => by rw [hs]; exact h.slot bn hbn, fun x hx hne => ?_⟩
  rw [hs] at hne
  rw [← h.byte x hx hne]
  unfold byteAt
  rw [hs, hd _ (slotAddr_mem hx hne)]

theorem Grown.holds (hg : Grown E g d g' d') (h : Holds g.disk d c) : Holds g'.disk d' c := by
  refine ⟨h.le, fun bn hbn => ?_, fun x hx hne => ?_⟩
  · have hne := h.slot bn hbn
    have hs : slotAddr g'.disk d' bn = slotAddr g.disk d bn := (hg.grows.slot bn (h.lt_maxfile hbn) hne).1
    rw [hs]
    exact hne
  by_cases h0 : slotAddr g.disk d (x / bsize) = 0
  · have hend : ¬ x / bsize * bsize < c.length := fun hlt => h.slot _ hlt h0
    have hle := Nat.div_mul_le_self x bsize
    unfold byteAt
    rw [hg.fresh _ hx h0 hne, getD_eq_default _ _ (by omega)]
  · obtain ⟨hs, hd⟩ : slotAddr g'.disk d' (x / bsize) = slotAddr g.disk d (x / bsize) ∧
        g'.disk (slotAddr g.disk d (x / bsize)) = g.disk (slotAddr g.disk d (x / bsize)) := hg.grows.slot _ hx h0
    rw [← h.byte x hx h0]
    unfold byteAt
    rw [hs, hd]

theorem Holds.write (h : Holds disk d c) (hn : (blocksOf disk d).Nodup)
    (hbn : c.length / bsize < maxfile) (hne : slotAddr disk d (c.length / bsize) ≠ 0)
    (hlen : c.length % bsize + bs.length ≤ bsize) (hd : disk' = update disk (slotAddr disk d (c.length / bsize))
      (blit (disk (slotAddr disk d (c.length / bsize))) (c.length % bsize) bs)) : Holds disk' d (c ++ bs) := by
  have hind : d.addrs ndirect ≠ 0 → disk' (d.addrs ndirect) = disk (d.addrs ndirect) := fun hi => by
    rw [hd, update_of_ne (slotAddr_ne_indirect hn hbn hne hi).symm]
  have hs := slotAddr_congr hind
  have hb : 0 < bsize := by decide
  have hdm := Nat.div_add_mod c.length bsize
  refine ⟨?_, fun bn hlt => ?_, fun x hx hxne => ?_⟩
  · have : (c.length / bsize + 1) * bsize ≤ maxfile * bsize := Nat.mul_le_mul_right _ hbn
    rw [length_append]
    rw [Nat.add_mul, mul_comm] at this
    omega
  · rw [hs]
    rcases lt_or_ge (bn * bsize) c.length with hin | hout
    · exact h.slot bn hin
    -- the block that is written to is the only one that starts in what is new
    rw [length_append] at hlt
    have e : bn = c.length / bsize := by
      apply le_antisymm
      · by_contra hgt
        have : (c.length / bsize + 1) * bsize ≤ bn * bsize := Nat.mul_le_mul_right _ (by omega)
        rw [Nat.add_mul, mul_comm] at this
        omega
      · exact (Nat.div_le_iff_le_mul_add_pred hb).2 (by rw [mul_comm]; omega)
    rw [e]
    exact hne
  · rw [hs] at hxne
    unfold byteAt
    rw [hs, hd]
    by_cases e : x / bsize = c.length / bsize
    · have hxm := Nat.div_add_mod x bsize
      rw [e] at hxm ⊢
      rw [update_self]
      by_cases hin : c.length ≤ x ∧ x < c.length + bs.length
      · obtain ⟨i, rfl⟩ := Nat.exists_eq_add_of_le hin.1
        have hmod : (c.length + i) % bsize = c.length % bsize + i := by omega
        rw [hmod, blit_in (by omega), getD_append_right _ _ _ _ (Nat.le_add_right _ _), Nat.add_sub_cancel_left]
      rw [blit_out (by omega)]
      have hold : disk (slotAddr disk d (c.length / bsize)) (x % bsize) = c.getD x 0 := by
        have := h.byte x hx hxne
        unfold byteAt at this
        rwa [e] at this
      rw [hold]
      rcases lt_or_ge x c.length with hlt | hge
      · rw [getD_append _ _ _ _ hlt]
      · rw [getD_eq_default _ _ hge, getD_eq_default _ _ (by rw [length_append]; omega)]
    · rw [update_of_ne (fun he => e (slotAddr_inj hn hbn hx hne he))]
      have hold := h.byte x hx hxne
      unfold byteAt at hold
      rw [hold]
      have hout : x < c.length ∨ c.length + bs.length ≤ x := by
        by_contra hin
        apply e
        apply le_antisymm
        · rw [Nat.div_le_iff_le_mul_add_pred hb]
          omega
        · exact Nat.div_le_div_right (by omega)
      rcases hout with hlt | hge
      · rw [getD_append _ _ _ _ hlt]
      · rw [getD_eq_default _ _ (by omega), getD_eq_default _ _ (by rw [length_append]; omega)]

/-! ## The loop -/

/-- **What the loop of `iappend` leaves**: more blocks, and nothing else changed but the inode's own. -/
structure Appended (E : Multiset Nat) (g : Img) (d : Dinode) (g' : Img) (d' : Dinode) : Prop where
  marks : Marks (view g') (E + blocksOf g'.disk d')
  kept : ∀ b, b ∈ E ∨ b < nmeta → g'.disk b = g.disk b
  same : d' = { d with addrs := d'.addrs }
  out : ∀ i, ndirect < i → d'.addrs i = d.addrs i
  tidy : Tidy g'
  freeinode : g'.freeinode = g.freeinode

theorem Appended.trans (h : Appended E g d g' d') (h' : Appended E g' d' g'' d'') : Appended E g d g'' d'' :=
  ⟨h'.marks, fun b hb => (h'.kept b hb).trans (h.kept b hb), by rw [h'.same, h.same],
    fun i hi => (h'.out i hi).trans (h.out i hi), h'.tidy, h'.freeinode.trans h.freeinode⟩

theorem appended_write (buf : Nat → UInt8) (hg : Grown E g d g' d') (hx : x ∈ blocksOf g'.disk d')
    (hind : d'.addrs ndirect ≠ 0 → x ≠ d'.addrs ndirect) (hn : g.nsect = fssize) (hlt : x < fssize)
    (hf : g'.freeblock ≤ fssize) :
    Appended E g d { g' with disk := update g'.disk x buf, nsect := max g'.nsect (x + 1) } d' := by
  have hnd := Multiset.nodup_add.1 hg.marks.nodup
  obtain ⟨hlo, hhi⟩ := Marks.below hg.marks (Multiset.mem_add.2 (.inr hx))
  have hnsect := hg.nsect
  refine ⟨?_, fun b hb => ?_, hg.grows.same, hg.out, ⟨?_, hf, fun b hb => ?_⟩, hg.freeinode⟩
  · have hblk : blocksOf (update g'.disk x buf) d' = blocksOf g'.disk d' :=
      blocksOf_congr (fun hi => update_of_ne (hind hi).symm _ _)
    rw [show blocksOf _ d' = _ from hblk]
    exact hg.marks.congr rfl rfl
  · have hne : b ≠ x := by
      rintro rfl
      rcases hb with hb | hb
      · exact Multiset.disjoint_left.1 hnd.2.2 hb hx
      · omega
    exact (update_of_ne hne _ _).trans (hg.kept b hb)
  · dsimp only
    omega
  · dsimp only at hb ⊢
    rw [update_of_ne (by omega)]
    exact hg.blank b hb

theorem appendLoop_spec (hF : ∀ e, F e) : ∀ (fuel : Nat) (g : Img) (d : Dinode) (c p : Bytes), p.length ≤ fuel →
    Marks (view g) (E + blocksOf g.disk d) → Tidy g → Holds g.disk d c →
    wp (appendLoop fuel d c.length p) (fun r g' => Appended E g d g' r.1 ∧ r.2 = (c ++ p).length ∧
      Holds g'.disk r.1 (c ++ p)) F g
  | 0, g, d, c, p, hp, hm, ht, hc => by
    obtain rfl : p = [] := length_eq_zero_iff.1 (Nat.le_zero.1 hp)
    rw [append_nil]
    exact ⟨⟨hm, fun _ _ => rfl, rfl, fun _ _ => rfl, ht, rfl⟩, rfl, hc⟩
  | fuel + 1, g, d, c, p, hp, hm, ht, hc => by
    refine wp_ite (fun h0 => ?_) (fun h0 => ?_)
    · subst h0
      rw [append_nil]
      exact ⟨⟨hm, fun _ _ => rfl, rfl, fun _ _ => rfl, ht, rfl⟩, rfl, hc⟩
    refine wp_ite (fun _ => hF _) (fun hbn => ?_)
    rw [not_le] at hbn
    refine wp_then (blockFor_spec hm ht hbn (hF _)) ?_
    rintro r g1 ⟨hg, hs, hx, hle⟩
    obtain ⟨x, d1⟩ := r
    dsimp only at hs
    unfold wsect
    simp only [wp_bind]
    refine wp_ite (fun _ => hF _) (fun hlt => ?_)
    rw [hg.nsect, ht.nsect, not_le] at hlt
    rw [wp_pure, wp_bind, wp_modify]
    have hnd := (Multiset.nodup_add.1 hg.marks.nodup).2.1
    have hxs : slotAddr g1.disk d1 (c.length / bsize) ≠ 0 := by rw [hs]; exact hx
    have hxm : x ∈ blocksOf g1.disk d1 := by rw [← hs]; exact slotAddr_mem hbn hxs
    have hxi : d1.addrs ndirect ≠ 0 → x ≠ d1.addrs ndirect := fun hi => by
      rw [← hs]
      exact slotAddr_ne_indirect hnd hbn hxs hi
    have hb : 0 < bsize := by decide
    have hdm := Nat.div_add_mod c.length bsize
    have hmod := Nat.mod_lt c.length hb
    have hoff : c.length - c.length / bsize * bsize = c.length % bsize := by
      rw [mul_comm]
      omega
    obtain ⟨n1, hn1⟩ : ∃ n1, n1 = min p.length ((c.length / bsize + 1) * bsize - c.length) := ⟨_, rfl⟩
    have hroom : (c.length / bsize + 1) * bsize - c.length = bsize - c.length % bsize := by
      rw [Nat.add_mul, mul_comm]
      omega
    rw [← hn1, hoff]
    have hlen : (p.take n1).length = n1 := length_take_of_le (by omega)
    have hw := appended_write (blit (g1.disk x) (c.length % bsize) (p.take n1)) hg hxm hxi ht.nsect hlt (hle hlt)
    have hc1 : Holds (update g1.disk x (blit (g1.disk x) (c.length % bsize) (p.take n1))) d1 (c ++ p.take n1) :=
      (hg.holds hc).write hnd hbn hxs (by omega) (by rw [hs])
    have ih := appendLoop_spec hF fuel _ d1 (c ++ p.take n1) (p.drop n1) (by rw [length_drop]; omega) hw.marks hw.tidy hc1
    rw [length_append, hlen, append_assoc, take_append_drop] at ih
    refine wp_use ih ?_
    rintro r g' ⟨ha, hr, hh⟩
    exact ⟨hw.trans ha, hr, hh⟩

/-- No direct block beyond the first `n` bytes. -/
def Bare (d : Dinode) (n : Nat) : Prop := ∀ i < ndirect, n ≤ i * bsize → d.addrs i = 0

theorem addrFor_others (d : Dinode) (i : Nat) (g : Img) :
    wp (addrFor d i) (fun d' _ => ∀ j ≠ i, d'.addrs j = d.addrs j) (fun _ => True) g :=
  wp_ite (fun _ _ _ => rfl) (fun _ _ hj => update_of_ne hj _ _)

theorem blockFor_others (d : Dinode) (fbn : Nat) (g : Img) :
    wp (blockFor d fbn) (fun r _ => ∀ j < ndirect, j ≠ fbn → r.2.addrs j = d.addrs j) (fun _ => True) g := by
  refine wp_ite (fun _ => ?_) (fun _ => ?_)
  · exact wp_then (addrFor_others d fbn g) (fun _ _ h j _ hj => h j hj)
  · refine wp_then (addrFor_others d ndirect g) (fun _ _ h => wp_skip (fun _ => trivial) (fun _ _ j hj _ => ?_))
    exact h j (by omega)

theorem appendLoop_bare : ∀ (fuel : Nat) (d : Dinode) (off : Nat) (p : Bytes) (g : Img), Bare d off →
    wp (appendLoop fuel d off p) (fun r _ => Bare r.1 r.2) (fun _ => True) g
  | 0, _, _, _, _, h => h
  | fuel + 1, d, off, p, g, h => by
    refine wp_ite (fun _ => h) (fun hp => wp_ite (fun _ => trivial) (fun _ => ?_))
    refine wp_then (blockFor_others d (off / bsize) g) (fun r g1 hr => ?_)
    refine wp_skip (fun _ => trivial) (fun _ _ => wp_skip (fun _ => trivial) (fun _ _ => ?_))
    refine appendLoop_bare fuel _ _ _ _ (fun i hi hle => ?_)
    -- the block that is written begins at or before `off`, and some byte is written
    have hlen := length_pos_iff.2 hp
    have hdm := Nat.div_add_mod off bsize
    have hmod := Nat.mod_lt off (show 0 < bsize by decide)
    have hend : (off / bsize + 1) * bsize = bsize * (off / bsize) + bsize := by rw [Nat.add_mul, mul_comm, one_mul]
    rw [hend] at hle
    refine (hr i hi (fun e => ?_)).trans (h i hi (by omega))
    rw [e, mul_comm (off / bsize)] at hle
    omega

end Xv6.Mkfs
