import Xv6.FsDir
import Xv6.MkfsModel
/-!
# MkfsFormat — what `mkfs` stores is what the kernel reads

The superblock, an inode of an inode block, the bitmap and an entry of a directory, each written as `mkfs` writes it and
read as the kernel does.
-/
namespace Xv6.Mkfs

open Function List Fs

/-! ## Words in bytes -/

section Table
variable {α : Type} {f : α → Bytes} {n : Nat} {off : Nat}

theorem length_records (hf : ∀ a, (f a).length = n) : ∀ l : List α, (l.flatMap f).length = n * l.length
  | [] => rfl
  | a :: l => by
    rw [flatMap_cons, length_append, length_records hf l, hf, length_cons, Nat.mul_succ, add_comm]

theorem getD_records (hf : ∀ a, (f a).length = n) : ∀ (l : List α) (k r : Nat) (a : α), l[k]? = some a → r < n →
    (l.flatMap f).getD (n * k + r) 0 = (f a).getD r 0
  | b :: l, 0, r, a, hk, hr => by
    obtain rfl : b = a := Option.some.inj hk
    rw [flatMap_cons, Nat.mul_zero, Nat.zero_add, getD_append _ _ _ _ (by rw [hf]; exact hr)]
  | b :: l, k + 1, r, a, hk, hr => by
    have e : n * (k + 1) + r - (f b).length = n * k + r := by
      rw [hf, Nat.mul_succ]
      omega
    rw [flatMap_cons, getD_append_right _ _ _ _ (by rw [hf, Nat.mul_succ]; omega), e]
    exact getD_records hf l k r a hk hr

end Table

theorem length_wordBytes (x : Nat) : (wordBytes x).length = 4 := rfl

theorem length_wordsBytes (ws : List Nat) : (wordsBytes ws).length = 4 * ws.length :=
  length_records length_wordBytes ws

variable {blk : Nat → UInt8} {j k off s t m : Nat} {bs l name : Bytes} {d : Dinode}

theorem word_blit (pre : Bytes) {ws : List Nat} (hj : 4 * j = off + pre.length + 4 * k)
    (hk : k < ws.length) : word (blit blk off (pre ++ wordsBytes ws)) j = ws.getD k 0 % 2 ^ 32 := by
  have hb : ∀ r < 4, blit blk off (pre ++ wordsBytes ws) (4 * j + r) = (wordBytes (ws.getD k 0)).getD r 0 := by
    intro r hr
    have e : 4 * j + r = off + (pre.length + (4 * k + r)) := by omega
    have hlen : pre.length + (4 * k + r) < (pre ++ wordsBytes ws).length := by
      rw [length_append, length_wordsBytes]
      omega
    have hget : ws[k]? = some (ws.getD k 0) := by rw [getD_eq_getElem _ _ hk, getElem?_eq_getElem hk]
    rw [e, blit_in hlen, getD_append_right _ _ _ _ (Nat.le_add_right _ _), Nat.add_sub_cancel_left]
    exact getD_records length_wordBytes ws k r _ hget hr
  unfold word
  rw [← Nat.add_zero (4 * j), hb 0 (by decide), add_zero, hb 1 (by decide), hb 2 (by decide), hb 3 (by decide)]
  simp only [wordBytes, getD_cons_zero, getD_cons_succ, UInt8.toNat_ofNat']
  omega

theorem word_blit_out (h : 4 * j + 4 ≤ off ∨ off + bs.length ≤ 4 * j) : word (blit blk off bs) j = word blk j := by
  unfold word
  rw [blit_out (by omega), blit_out (by omega), blit_out (by omega), blit_out (by omega)]

theorem shortAt_blit_out (h : j + 2 ≤ off ∨ off + bs.length ≤ j) : shortAt (blit blk off bs) j = shortAt blk j := by
  unfold shortAt
  rw [blit_out (by omega), blit_out (by omega)]

theorem shortAt_of_bytes {x : Int} (h0 : blk off = UInt8.ofNat (x % 65536).toNat)
    (h1 : blk (off + 1) = UInt8.ofNat ((x % 65536).toNat / 256)) : shortAt blk off = (x % 65536).toNat := by
  unfold shortAt
  rw [h0, h1, UInt8.toNat_ofNat', UInt8.toNat_ofNat']
  omega

theorem short_stored (x : Int) : short ((x % 65536).toNat : Int) = short x := by
  rw [Int.toNat_of_nonneg (by omega)]
  exact Int.emod_bmod x 65536

/-! ## Inodes -/

structure Storable (d : Dinode) : Prop where
  major : short d.major = d.major
  minor : short d.minor = d.minor
  nlink : short d.nlink = d.nlink
  size : d.size < 2 ^ 32
  addr : ∀ i, d.addrs i < 2 ^ 32
  rest : ∀ i, ndirect < i → d.addrs i = 0

theorem length_dinodeBytes (d : Dinode) : (dinodeBytes d).length = 64 := by
  unfold dinodeBytes
  rfl

theorem typeOf_typeCode (t : IType) : typeOf (typeCode t) = t := by cases t <;> rfl

theorem dinodeAt_store (h : Storable d) : dinodeAt (blit blk (64 * s) (dinodeBytes d)) s = d := by
  have hlen := length_dinodeBytes d
  have hshort : ∀ (i : Nat) (x : Int), i + 1 < 64 → (dinodeBytes d).getD i 0 = UInt8.ofNat (x % 65536).toNat →
      (dinodeBytes d).getD (i + 1) 0 = UInt8.ofNat ((x % 65536).toNat / 256) →
      shortAt (blit blk (64 * s) (dinodeBytes d)) (64 * s + i) = (x % 65536).toNat := by
    intro i x hi h0 h1
    apply shortAt_of_bytes
    · rw [blit_in (by omega), h0]
    · rw [add_assoc, blit_in (by omega), h1]
  have hword : ∀ k < ndirect + 2, word (blit blk (64 * s) (dinodeBytes d)) (16 * s + 2 + k) =
      (d.size :: (range (ndirect + 1)).map d.addrs).getD k 0 % 2 ^ 32 := by
    intro k hk
    refine word_blit (shortBytes (typeCode d.type) ++ shortBytes d.major ++ shortBytes d.minor ++ shortBytes d.nlink)
      ?_ ?_
    · change 4 * (16 * s + 2 + k) = 64 * s + 8 + 4 * k
      omega
    · rw [length_cons, length_map, length_range]
      omega
  have htype : shortAt (blit blk (64 * s) (dinodeBytes d)) (64 * s) = typeCode d.type := by
    have := hshort 0 (typeCode d.type) (by decide) rfl rfl
    rw [add_zero] at this
    rw [this]
    cases d.type <;> rfl
  have hsize : word (blit blk (64 * s) (dinodeBytes d)) (16 * s + 2) = d.size := by
    have := hword 0 (by decide)
    rw [getD_cons_zero, Nat.mod_eq_of_lt h.size] at this
    exact this
  have haddrs : (fun i => if i ≤ ndirect then word (blit blk (64 * s) (dinodeBytes d)) (16 * s + 3 + i) else 0) =
      d.addrs := by
    funext i
    split
    · have := hword (i + 1) (by omega)
      rw [getD_cons_succ, getD_eq_getElem?_getD, getElem?_map, getElem?_range (by omega)] at this
      have e : 16 * s + 3 + i = 16 * s + 2 + (i + 1) := by omega
      rw [e, this]
      exact Nat.mod_eq_of_lt (h.addr i)
    · rw [h.rest i (by omega)]
  unfold dinodeAt
  rw [htype, hsize, haddrs, typeOf_typeCode, hshort 2 d.major (by decide) rfl rfl, hshort 4 d.minor (by decide) rfl rfl,
    hshort 6 d.nlink (by decide) rfl rfl, short_stored, short_stored, short_stored, h.major, h.minor, h.nlink]

theorem dinodeAt_store_ne (h : t ≠ s) : dinodeAt (blit blk (64 * s) (dinodeBytes d)) t = dinodeAt blk t := by
  have hlen := length_dinodeBytes d
  have haddrs : ∀ i ≤ ndirect, word (blit blk (64 * s) (dinodeBytes d)) (16 * t + 3 + i) = word blk (16 * t + 3 + i) := by
    intro i hi
    unfold ndirect at hi
    exact word_blit_out (by omega)
  unfold dinodeAt
  rw [shortAt_blit_out (by omega), shortAt_blit_out (by omega), shortAt_blit_out (by omega), shortAt_blit_out (by omega),
    word_blit_out (by omega)]
  congr 1
  funext i
  split
  · exact haddrs i ‹_›
  · rfl

theorem storable_dinodeAt (blk : Nat → UInt8) (s : Nat) : Storable (dinodeAt blk s) := by
  have hshort : ∀ x : Int, short (short x) = short x := fun x => Int.bmod_bmod
  constructor
  · simp [dinodeAt, hshort]
  · simp [dinodeAt, hshort]
  · simp [dinodeAt, hshort]
  · exact word_lt blk (16 * s + 2)
  · intro i
    unfold dinodeAt
    dsimp only
    split
    · exact word_lt blk _
    · exact Nat.two_pow_pos 32
  · intro i hi
    exact if_neg (Nat.not_le_of_lt hi)

/-! ## The superblock -/

theorem readsb_superblock : readsb superblock = some sb := by
  have h0 : word superblock 0 = fsmagic := by decide
  have h1 : word superblock 1 = fssize := by decide
  have h2 : word superblock 2 = nblocks := by decide
  have h3 : word superblock 3 = ninodes := by decide
  have h6 : word superblock 6 = sb.inodestart := by decide
  have h7 : word superblock 7 = sb.bmapstart := by decide
  unfold readsb
  rfl

/-! ## The bitmap -/

theorem shift_and : ∀ m < 8, ∀ k < 8, (1 <<< UInt8.ofNat m &&& 1 <<< UInt8.ofNat k : UInt8) =
    if m = k then 1 <<< UInt8.ofNat k else 0 := by decide

theorem shift_ne : ∀ k < 8, (1 <<< UInt8.ofNat k : UInt8) ≠ 0 := by decide

theorem bit_or (x : UInt8) (hm : m < 8) (hk : k < 8) :
    (((x ||| 1 <<< UInt8.ofNat m) &&& 1 <<< UInt8.ofNat k) != 0) = ((x &&& 1 <<< UInt8.ofNat k) != 0 || decide (m = k)) := by
  have hdistrib : (x ||| 1 <<< UInt8.ofNat m) &&& 1 <<< UInt8.ofNat k =
      (x &&& 1 <<< UInt8.ofNat k) ||| (1 <<< UInt8.ofNat m &&& 1 <<< UInt8.ofNat k) := by
    apply UInt8.toNat_inj.1
    simp [UInt8.toNat_and, UInt8.toNat_or, Nat.and_or_distrib_right]
  rw [hdistrib, shift_and m hm k hk]
  by_cases e : m = k
  · have hne : (x &&& 1 <<< UInt8.ofNat k ||| 1 <<< UInt8.ofNat k) ≠ 0 := fun h => shift_ne k hk (UInt8.or_eq_zero_iff.1 h).2
    simp [e, hne]
  · simp [e]

theorem bitmap_succ (n : Nat) :
    bitmap (n + 1) = update (bitmap n) (n / 8) (bitmap n (n / 8) ||| 1 <<< UInt8.ofNat (n % 8)) := by
  unfold bitmap
  rw [range_succ, foldl_append]
  rfl

theorem bitAt_bitmap (bi : Nat) : ∀ used, bitAt (bitmap used) bi = decide (bi < used)
  | 0 => by
    have h : bitmap 0 = fun _ => 0 := rfl
    simp [bitAt, h]
  | n + 1 => by
    have ih := bitAt_bitmap bi n
    unfold bitAt at ih ⊢
    rw [bitmap_succ]
    by_cases e : bi / 8 = n / 8
    · rw [e, update_self, bit_or _ (by omega) (by omega), ← e, ih]
      have : (bi < n ∨ n % 8 = bi % 8) ↔ bi < n + 1 := by omega
      simp [← Bool.decide_or, this]
    · rw [update_of_ne e, ih]
      have : bi < n ↔ bi < n + 1 := by omega
      simp [this]

/-! ## Entries -/

theorem takeWhile_pad (n : Nat) (h : 0 ∉ l) : (l ++ List.replicate n (0 : UInt8)).takeWhile (fun c => c ≠ 0) = l := by
  rw [takeWhile_append_of_pos]
  · cases n with
    | zero => simp
    | succ n => simp
  · intro c hc
    have hne : c ≠ 0 := fun e => h (e ▸ hc)
    simpa using hne

theorem cname_eq (h : name.length ≤ dirsiz) (h0 : 0 ∉ name) : cname name = name := by
  unfold cname
  have hpad := takeWhile_pad 0 h0
  rw [replicate_zero, append_nil] at hpad
  rw [take_of_length_le h, hpad]

theorem parseDirent_direntBytes {de : Dirent} (hi : de.inum < 65536) (hl : de.name.length ≤ dirsiz) (h0 : 0 ∉ de.name) :
    (parseDirent (direntBytes de)).inum = de.inum ∧ cname (parseDirent (direntBytes de)).name = de.name := by
  unfold parseDirent direntBytes
  rw [cname_eq hl h0]
  constructor
  · simp only [cons_append, getD_cons_zero, getD_cons_succ, UInt8.toNat_ofNat']
    omega
  have hpad : (de.name ++ replicate dirsiz 0).take dirsiz =
      de.name ++ replicate (dirsiz - de.name.length) 0 := by
    rw [take_append, take_of_length_le hl, take_replicate, min_eq_left (Nat.sub_le _ _)]
  have hdrop : ∀ (a b : UInt8) (l : Bytes), ([a, b] ++ l).drop 2 = l := fun _ _ _ => rfl
  unfold cname
  rw [hdrop, take_take, take_take, min_self, min_self, hpad]
  exact takeWhile_pad _ h0

end Xv6.Mkfs
