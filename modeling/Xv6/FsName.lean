import Xv6.FsDir
/-!
# FsName — path names

`walk` is what `namex` does on the tree: it goes from directory to directory, and fails where one names no inode. It needs a
slot of the inode table for the next directory while it holds the last (`room`). `namex` returns what `walk` finds, with a
reference to it, or panics where `walk` does; it leaves the inodes and the blocks as they are.
-/
namespace Xv6.Fs

open Multiset Function Option Wp
variable {v : Vol} {R R' : Multiset Ip} {L : List Ip} {F : Panic → Prop}

/-! ## Walking the tree -/

def walk (room : Option Nat → Nat → Bool) (t : Tree) (parent : Bool) (i : Nat) :
    List Bytes → Except Panic (Option (Nat × Bytes))
  | [] => .ok (if parent then none else some (i, []))
  | name :: rest =>
    match t i with
    | none => .error .ilockNoType
    | some n =>
      if n.type ≠ .dir then .ok none
      else if parent = true ∧ rest = [] then .ok (some (i, name))
      else
        match dirFind n.bytes name with
        | .error e => .error e
        | .ok none => .ok none
        | .ok (some (j, _)) => if room (some i) j then walk room t parent j rest else .error .igetNoInodes

def resolve (room : Option Nat → Nat → Bool) (t : Tree) (cwd : Nat) (path : Bytes) (parent : Bool) :
    Except Panic (Option (Nat × Bytes)) :=
  if path.head? = some slash then
    if room none rootino then walk room t parent rootino (elems path) else .error .igetNoInodes
  else walk room t parent cwd (elems path)

/-! ## Slots -/

instance (v : Vol) (R : Multiset Ip) (i : Nat) : Decidable (Held v R i) :=
  inferInstanceAs (Decidable (∃ a ∈ R, (v.inode a).inum = i))

def freeSlots (R : Multiset Ip) : List Ip := slots.filter (fun a => a ∉ R)

/-- **A slot can be had for the inode `j`** by one that has the references `R` and holds the inode `i`. -/
def room (v : Vol) (R : Multiset Ip) (i : Option Nat) (j : Nat) : Bool :=
  decide (Held v R j ∨ i = some j ∨ (if ∀ k, i = some k → Held v R k then 0 else 1) < (freeSlots R).length)

variable {a : Ip} {v' v'' : Vol} {i j cwd n off k k' n' : Nat} {path name bytes nm : Bytes} {t t' t'' : Tree}
variable {parent : Bool} {e e' : Panic} {o : Option (Nat × Bytes)} {α : Type} {m : Node}
  {f : Nat → Dirent → Option α} {last : α}

theorem mem_freeSlots : a ∈ freeSlots R ↔ a ∉ R := by
  unfold freeSlots
  simp [mem_slots]

theorem nodup_freeSlots : (freeSlots R).Nodup := (List.nodup_finRange 50).filter _

theorem held_congr (h : ∀ a ∈ R, (v'.inode a).inum = (v.inode a).inum) (i : Nat) : Held v' R i ↔ Held v R i := by
  constructor
  · rintro ⟨a, ha, hi⟩
    exact ⟨a, ha, (h a ha).symm.trans hi⟩
  · rintro ⟨a, ha, hi⟩
    exact ⟨a, ha, (h a ha).trans hi⟩

theorem Stays.room (h : Stays R n v v') : room v' R = room v R := by
  funext i j
  unfold Fs.room
  simp [held_congr h.inum]

theorem held_cons : Held v (a ::ₘ R) i ↔ (v.inode a).inum = i ∨ Held v R i := by
  unfold Held
  simp [mem_cons, or_and_right, exists_or]

theorem Mid.mem_of_held (h : Mid v (a ::ₘ R) L) (hh : Held v R (v.inode a).inum) : a ∈ R := by
  obtain ⟨b, hb, hi⟩ := hh
  rw [← h.uniq b (mem_cons_of_mem hb) a (mem_cons_self _ _) hi]
  exact hb

theorem all_mem_iff : (∀ b, b ∈ a ::ₘ R) ↔ (freeSlots R).length ≤ if a ∈ R then 0 else 1 := by
  split
  · rename_i ha
    rw [Nat.le_zero, List.length_eq_zero_iff, List.eq_nil_iff_forall_not_mem]
    simp only [mem_freeSlots, not_not, mem_cons]
    exact ⟨fun h b => (h b).elim (fun e => e ▸ ha) id, fun h b => .inr (h b)⟩
  rename_i ha
  constructor
  · intro h
    have hsub : freeSlots R ⊆ [a] := fun b hb => by
      rcases Multiset.mem_cons.1 (h b) with rfl | hm
      · exact List.mem_singleton_self _
      · exact absurd hm (mem_freeSlots.1 hb)
    exact (nodup_freeSlots.subperm hsub).length_le
  intro h b
  by_contra hb
  rw [mem_cons, not_or] at hb
  have hsub : [a, b] ⊆ freeSlots R := by
    intro x hx
    simp only [List.mem_cons, List.not_mem_nil, or_false] at hx
    rcases hx with rfl | rfl
    · exact mem_freeSlots.2 ha
    · exact mem_freeSlots.2 hb.2
  have hnd : [a, b].Nodup := by simp [Ne.symm hb.1]
  have := (hnd.subperm hsub).length_le
  simp only [List.length_cons] at this
  omega

theorem room_eq_false (h : Mid v (a ::ₘ R) L) :
    room v R (some (v.inode a).inum) j = false ↔ ¬ Held v (a ::ₘ R) j ∧ ∀ b, b ∈ a ::ₘ R := by
  have hheld : (∀ k, some (v.inode a).inum = some k → Held v R k) ↔ a ∈ R :=
    ⟨fun hh => h.mem_of_held (hh _ rfl), fun ha k hk => ⟨a, ha, by cases hk; rfl⟩⟩
  unfold room
  simp only [hheld, decide_eq_false_iff_not, not_or, not_lt]
  rw [held_cons, all_mem_iff, not_or]
  constructor
  · rintro ⟨h1, h2, h3⟩
    exact ⟨⟨fun e => h2 (by rw [e]), h1⟩, h3⟩
  · rintro ⟨⟨h1, h2⟩, h3⟩
    exact ⟨h2, fun e => h1 (by cases e; rfl), h3⟩

theorem room_none_eq_false : room v R none j = false ↔ ¬ Held v R j ∧ ∀ b, b ∈ R := by
  have hvac : ∀ k, (none : Option Nat) = some k → Held v R k := fun k hk => by cases hk
  unfold room
  rw [if_pos hvac]
  simp only [decide_eq_false_iff_not, not_or, not_lt, Nat.le_zero, List.length_eq_zero_iff, List.eq_nil_iff_forall_not_mem,
    mem_freeSlots, not_not]
  exact ⟨fun ⟨h1, _, h3⟩ => ⟨h1, h3⟩, fun ⟨h1, h3⟩ => ⟨h1, fun e => (by cases e), h3⟩⟩

/-! ## `namex` -/

def refs {α : Type} (r : Option (Ip × α)) (R : Multiset Ip) : Multiset Ip :=
  match r with
  | none => R
  | some p => p.1 ::ₘ R

def inumsOf {α : Type} (v : Vol) (r : Option (Ip × α)) : Option (Nat × α) := r.map (fun p => ((v.inode p.1).inum, p.2))

theorem iunlockput_extra (h : Mid v (a ::ₘ R) (a :: L)) (hg : Good v R) :
    wp (iunlockput a) (fun _ v' => Mid v' R L ∧ Quiet v v' ∧ Stays R (L.length + 1) v v') F v := by
  have hspec := iunlockput_spec (F := F) h List.mem_cons_self
  rw [List.erase_cons_head] at hspec
  refine wp_use hspec (fun _ v' ⟨h', hst, ht⟩ => ⟨h', ?_, hst⟩)
  rcases ht with ⟨-, hq⟩ | ⟨hf, -⟩
  · exact hq
  · exact absurd hf (hg.not_frees h)

theorem iput_extra (h : Mid v (a ::ₘ R) L) (hg : Good v R) (hL : a ∈ L → a ∈ R) :
    wp (iput a) (fun _ v' => Mid v' R L ∧ Quiet v v' ∧ Stays R (L.length + 1) v v') F v := by
  refine wp_use (iput_spec h hL) (fun _ v' ⟨h', hst, ht⟩ => ⟨h', ?_, hst⟩)
  rcases ht with ⟨-, hq⟩ | ⟨hf, -⟩
  · exact hq
  · exact absurd hf (hg.not_frees h)

theorem namexLoop_spec (parent : Bool) : ∀ (names : List Bytes) (v : Vol) (a : Ip), Mid v (a ::ₘ R) [] → Good v R →
    wp (namexLoop parent a names) (fun r v' => Mid v' (refs r R) [] ∧ Quiet v v' ∧ Stays R 1 v v' ∧
        walk (room v R) (tree v) parent (v.inode a).inum names = .ok (inumsOf v' r))
      (fun e => walk (room v R) (tree v) parent (v.inode a).inum names = .error e) v
  | [], v, a, h, hg => by
    unfold namexLoop
    cases parent with
    | true =>
      exact wp_then (iput_extra h hg (fun hm => (by cases hm))) (fun _ v' ⟨h', hq, hst⟩ => ⟨h', hq, hst, rfl⟩)
    | false => exact ⟨h, Quiet.refl _, Stays.refl .., rfl⟩
  | name :: rest, v, a, h, hg => by
    have haR : a ∈ a ::ₘ R := mem_cons_self _ _
    unfold walk
    refine wp_then (ilock_spec h haR (.inl List.not_mem_nil) ?_) (fun _ v1 ⟨_, h1, hq1, hst1⟩ => ?_)
    · cases hn : tree v (v.inode a).inum with
      | none => exact .inl rfl
      | some n => exact .inr (fun e => by cases e)
    have hstR1 : Stays R 1 v v1 := hst1.mono (le_cons_self _ _) le_rfl
    have hg1 : Good v1 R := hg.quiet hq1 hstR1
    have hi1 : (v1.inode a).inum = (v.inode a).inum := hst1.inum a haR
    have hnode : tree v (v.inode a).inum = some (nodeAt v1 a) := by
      rw [← hq1.tree, ← hi1]
      exact h1.node haR (h1.locked a List.mem_cons_self).2
    rw [hnode, wp_bind, wp_din]
    dsimp only
    by_cases hty : (v1.inode a).din.type = .dir
    rotate_left
    · rw [if_pos hty, if_pos (show (nodeAt v1 a).type ≠ .dir from hty)]
      refine wp_then (iunlockput_extra h1 hg1) (fun _ v2 ⟨h2, hq2, hst2⟩ => ?_)
      exact ⟨h2, hq1.trans hq2, hstR1.trans hst2, rfl⟩
    have hd : (nodeAt v1 a).type = .dir := hty
    rw [if_neg (show ¬ (v1.inode a).din.type ≠ .dir from fun hne => hne hty),
      if_neg (show ¬ (nodeAt v1 a).type ≠ .dir from fun hne => hne hd)]
    by_cases hp : parent = true ∧ rest = []
    · rw [if_pos hp, if_pos hp]
      refine wp_then (iunlock_spec h1) (fun _ v2 ⟨h2, hq2, hst2⟩ => ?_)
      refine ⟨h2, hq1.trans hq2, hstR1.trans (hst2.mono (le_cons_self _ _) (Nat.zero_le _)), ?_⟩
      change _ = Except.ok (some ((v2.inode a).inum, name))
      rw [hst2.inum a haR, hi1]
    rw [if_neg hp, if_neg hp, wp_bind]
    have hroom1 : room v1 R = room v R := hstR1.room
    refine wp_mono (dirlookup_spec h1 List.mem_cons_self hd) (fun r v2 ⟨hq2, hst2, hr⟩ => ?_) (fun e he => ?_)
    rotate_left
    · rcases he with he | ⟨rfl, j, off, hf, hh, hall⟩
      · rw [he]
      · rw [hf]
        dsimp only
        rw [← hroom1, ← hi1, (room_eq_false h1).2 ⟨hh, hall⟩]
        rfl
    have hstR2 : Stays R 1 v v2 := hstR1.trans (hst2.mono (le_cons_self _ _) (Nat.zero_le _))
    have hg2 : Good v2 R := hg.quiet (hq1.trans hq2) hstR2
    cases r with
    | none =>
      obtain ⟨rfl, hf⟩ := hr
      rw [hf]
      refine wp_then (iunlockput_extra h1 hg1) (fun _ v3 ⟨h3, hq3, hst3⟩ => ?_)
      exact ⟨h3, hq1.trans hq3, hstR1.trans hst3, rfl⟩
    | some r =>
      obtain ⟨next, off⟩ := r
      obtain ⟨h2, hf⟩ := hr
      rw [hf]
      dsimp only
      -- the slot of the next directory was in the table, or was free
      have hroom : room v R (some (v.inode a).inum) (v2.inode next).inum = true := by
        by_contra hn
        rw [Bool.not_eq_true, ← hroom1, ← hi1, room_eq_false h1] at hn
        exact hn.1 ⟨next, hn.2 next, (hst2.inum next (hn.2 next)).symm⟩
      rw [hroom, if_pos rfl, wp_bind]
      rw [Multiset.cons_swap] at h2
      have hgn : Good v2 (next ::ₘ R) := hg2.mono (le_cons_self _ _)
      refine wp_use (iunlockput_extra h2 hgn) (fun _ v3 ⟨h3, hq3, hst3⟩ => ?_)
      have hstR3 : Stays R 1 v v3 := hstR2.trans (hst3.mono (le_cons_self _ _) le_rfl)
      have hq : Quiet v v3 := (hq1.trans hq2).trans hq3
      have ih := namexLoop_spec parent rest v3 next h3 (hg.quiet hq hstR3)
      rw [hstR3.room, hq.tree, hst3.inum next (mem_cons_self _ _)] at ih
      exact wp_use ih (fun r v4 ⟨h4, hq4, hst4, hw⟩ => ⟨h4, hq.trans hq4, hstR3.trans hst4, hw⟩)

theorem namex_spec {cwd : Ip} (h : Mid v R []) (hg : Good v R) (hcwd : cwd ∈ R) :
    wp (namex cwd path parent) (fun r v' => Mid v' (refs r R) [] ∧ Quiet v v' ∧ Stays R 1 v v' ∧
        resolve (room v R) (tree v) (v.inode cwd).inum path parent = .ok (inumsOf v' r))
      (fun e => resolve (room v R) (tree v) (v.inode cwd).inum path parent = .error e) v := by
  unfold namex namexStart resolve
  rw [wp_bind]
  by_cases hs : path.head? = some slash
  · rw [if_pos hs, if_pos hs]
    refine wp_mono (iget_spec h (by decide)) (fun a v1 ⟨h1, hq1, hst1, hi, _⟩ => ?_) (fun e ⟨he, hh, hall⟩ => ?_)
    · have hroom : room v R none rootino = true := by
        by_contra hn
        rw [Bool.not_eq_true, room_none_eq_false] at hn
        exact hn.1 ⟨a, hn.2 a, (hst1.inum a (hn.2 a)).symm.trans hi⟩
      rw [hroom, if_pos rfl]
      have ih := namexLoop_spec parent (elems path) v1 a h1 (hg.quiet hq1 hst1)
      rw [hst1.room, hq1.tree, hi] at ih
      exact wp_use ih (fun r v2 ⟨h2, hq2, hst2, hw⟩ =>
        ⟨h2, hq1.trans hq2, (hst1.mono le_rfl (Nat.zero_le _)).trans hst2, hw⟩)
    · rw [room_none_eq_false.2 ⟨hh, hall⟩, he]
      rfl
  · rw [if_neg hs, if_neg hs]
    refine wp_use (idup_spec h hcwd) (fun a v1 ⟨ha, h1, hq1, hst1⟩ => ?_)
    subst ha
    have ih := namexLoop_spec parent (elems path) v1 a h1 (hg.quiet hq1 hst1)
    rw [hst1.room, hq1.tree, hst1.inum a hcwd] at ih
    exact wp_use ih (fun r v2 ⟨h2, hq2, hst2, hw⟩ =>
      ⟨h2, hq1.trans hq2, (hst1.mono le_rfl (Nat.zero_le _)).trans hst2, hw⟩)

/-! ## What a call may rely on -/

def look (t : Tree) (cwd : Nat) (path : Bytes) (parent : Bool) : Except Panic (Option (Nat × Bytes)) :=
  resolve (fun _ _ => true) t cwd path parent

/-- **What a walk does at one directory.** -/
inductive Walked (room : Option Nat → Nat → Bool) (t : Tree) (parent : Bool) (i : Nat) (name : Bytes) (rest : List Bytes) :
    Except Panic (Option (Nat × Bytes)) → Prop where
  | free (hn : t i = none) : Walked room t parent i name rest (.error .ilockNoType)
  | file (n : Node) (hn : t i = some n) (hd : n.type ≠ .dir) : Walked room t parent i name rest (.ok none)
  | stop (n : Node) (hn : t i = some n) (hd : n.type = .dir) (hp : parent = true ∧ rest = []) :
    Walked room t parent i name rest (.ok (some (i, name)))
  | torn (n : Node) (hn : t i = some n) (hd : n.type = .dir) (hf : dirFind n.bytes name = .error .dirlookupRead) :
    Walked room t parent i name rest (.error .dirlookupRead)
  | missing (n : Node) (hn : t i = some n) (hd : n.type = .dir) (hp : ¬ (parent = true ∧ rest = []))
    (hf : dirFind n.bytes name = .ok none) : Walked room t parent i name rest (.ok none)
  | full (j : Nat) (hr : room (some i) j = false) : Walked room t parent i name rest (.error .igetNoInodes)
  | next (n : Node) (j off : Nat) (r : Except Panic (Option (Nat × Bytes))) (hn : t i = some n) (hd : n.type = .dir)
    (hp : ¬ (parent = true ∧ rest = [])) (hf : dirFind n.bytes name = .ok (some (j, off)))
    (he : walk room t parent j rest = r) : Walked room t parent i name rest r

theorem walked {room : Option Nat → Nat → Bool} {rest : List Bytes}
    {r : Except Panic (Option (Nat × Bytes))} (h : walk room t parent i (name :: rest) = r) :
    Walked room t parent i name rest r := by
  subst h
  unfold walk
  cases hn : t i with
  | none => exact .free hn
  | some n =>
    dsimp only
    split
    · exact .file n hn ‹_›
    rename_i hd
    rw [not_not] at hd
    split
    · exact .stop n hn hd ‹_›
    rename_i hp
    cases hf : dirFind n.bytes name with
    | error e =>
      cases scan_error hf
      exact .torn n hn hd hf
    | ok r =>
      cases r with
      | none => exact .missing n hn hd hp hf
      | some x =>
        dsimp only
        split
        · exact .next n x.1 x.2 _ hn hd hp hf rfl
        · exact .full x.1 (by simp_all)

theorem walk_any {room : Option Nat → Nat → Bool} :
    ∀ {names : List Bytes} {i : Nat}, walk room t parent i names = .ok o → walk (fun _ _ => true) t parent i names = .ok o
  | [], i, h => h
  | name :: rest, i, h => by
    cases walked h with
    | next n j off _ hn hd hp hf he => simp [walk, hn, hd, hp, hf, walk_any he]
    | file n hn hd => simp [walk, hn, hd]
    | stop n hn hd hp => simp [walk, hn, hd, hp]
    | missing n hn hd hp hf => simp [walk, hn, hp, hf]

theorem resolve_any {room : Option Nat → Nat → Bool} (h : resolve room t cwd path parent = .ok o) :
    look t cwd path parent = .ok o := by
  unfold look
  unfold resolve at h ⊢
  by_cases hs : path.head? = some slash
  · rw [if_pos hs] at h ⊢
    split at h
    · exact walk_any h
    · cases h
  · rw [if_neg hs] at h ⊢
    exact walk_any h

theorem walk_congr {room : Option Nat → Nat → Bool}
    (h : ∀ i, (t' i).map (fun n => (n.type, n.bytes)) = (t i).map (fun n => (n.type, n.bytes))) :
    ∀ (names : List Bytes) (i : Nat), walk room t' parent i names = walk room t parent i names
  | [], i => rfl
  | name :: rest, i => by
    have hi := h i
    unfold walk
    cases hn : t i with
    | none =>
      rw [hn, map_none, map_eq_none_iff] at hi
      rw [hi]
    | some n =>
      rw [hn, map_some, map_eq_some_iff] at hi
      obtain ⟨n', hn', he⟩ := hi
      obtain ⟨hty, hby⟩ := Prod.mk.inj he
      rw [hn']
      dsimp only
      rw [hty, hby]
      simp [walk_congr h rest]

theorem resolve_congr {room : Option Nat → Nat → Bool}
    (h : ∀ i, (t' i).map (fun n => (n.type, n.bytes)) = (t i).map (fun n => (n.type, n.bytes))) :
    resolve room t' cwd path parent = resolve room t cwd path parent := by
  unfold resolve
  simp [walk_congr h]

/-- **No entry names an inode that is not in use**, and the root is in use. -/
structure Closed (t : Tree) : Prop where
  root : t rootino ≠ none
  entry : ∀ i n, t i = some n → n.type = .dir → ∀ off de, off % 16 = 0 → entryAt n.bytes off = some de → de.inum ≠ 0 →
    t de.inum ≠ none

theorem dirFind_entry (h : dirFind bytes name = .ok (some (i, off))) :
    off % 16 = 0 ∧ ∃ de, entryAt bytes off = some de ∧ de.inum = i ∧ de.inum ≠ 0 ∧ namecmp name de.name = true := by
  rcases scan_ok h with hn | ⟨o, ho, de, hde, hf⟩
  · cases hn
  unfold named at hf
  split at hf
  · rename_i hc
    cases hf
    exact ⟨offsets_mod ho, de, hde, rfl, hc.1, hc.2⟩
  · cases hf

theorem Closed.walk {room : Option Nat → Nat → Bool} (h : Closed t) : ∀ {names : List Bytes} {i : Nat}, t i ≠ none →
      walk room t parent i names ≠ .error .ilockNoType ∧ ∀ j nm, walk room t parent i names = .ok (some (j, nm)) → t j ≠ none
  | [], i, hi => by
    refine ⟨fun he => (by cases he), fun j nm hj => ?_⟩
    unfold Fs.walk at hj
    cases parent with
    | true => cases hj
    | false =>
      cases hj
      exact hi
  | name :: rest, i, hi => by
    have hnext : ∀ {n : Node} {j off : Nat}, t i = some n → n.type = .dir → dirFind n.bytes name = .ok (some (j, off)) →
        t j ≠ none := by
      intro n j off hn hd hf
      obtain ⟨hmod, de, hde, rfl, hne, -⟩ := dirFind_entry hf
      exact h.entry i n hn hd off de hmod hde hne
    constructor
    · intro he
      cases walked he with
      | free hn => exact hi hn
      | next n j off _ hn hd hp hf he => exact (h.walk (hnext hn hd hf)).1 he
    · intro j nm hj
      cases walked hj with
      | stop n hn hd hp => exact hi
      | next n k off _ hn hd hp hf he => exact (h.walk (hnext hn hd hf)).2 j nm he

theorem Closed.resolve {room : Option Nat → Nat → Bool} (h : Closed t)
    (hc : t cwd ≠ none) : resolve room t cwd path parent ≠ .error .ilockNoType ∧
      ∀ j nm, resolve room t cwd path parent = .ok (some (j, nm)) → t j ≠ none := by
  unfold Fs.resolve
  split
  · split
    · exact h.walk h.root
    · exact ⟨fun he => (by cases he), fun j nm hj => (by cases hj)⟩
  · exact h.walk hc

theorem walk_parent {room : Option Nat → Nat → Bool} :
    ∀ {names : List Bytes} {i : Nat}, walk room t true i names = .ok (some (j, nm)) → ∃ n, t j = some n ∧ n.type = .dir
  | [], i, h => by cases h
  | name :: rest, i, h => by
    cases walked h with
    | stop n hn hd hp => exact ⟨n, hn, hd⟩
    | next n j off _ hn hd hp hf he => exact walk_parent he

theorem resolve_parent {room : Option Nat → Nat → Bool}
    (h : resolve room t cwd path true = .ok (some (j, nm))) : ∃ n, t j = some n ∧ n.type = .dir := by
  unfold resolve at h
  split at h
  · split at h
    · exact walk_parent h
    · cases h
  · exact walk_parent h

/-- The panics of a directory whose last entry is cut off. -/
abbrev Torn (e : Panic) : Prop := e ∈ [Panic.dirlookupRead, .dirlinkRead, .isdiremptyReadi]

def Whole (t : Tree) : Prop := ∀ i n, t i = some n → n.type = .dir → n.bytes.length % 16 = 0

/-- **The panics a call may end in**: none of the block layer, `ilock: no type` only if the tree is not closed, and those of
a torn directory only if there is one. -/
structure Excused (F : Panic → Prop) (t : Tree) : Prop where
  mild : ∀ e, e ≠ .freeingFreeBlock → e ≠ .ilockNoType → ¬ Torn e → F e
  noType : F .ilockNoType ∨ Closed t
  torn : (∀ e, Torn e → F e) ∨ Whole t

def Alloc (v : Vol) (R : Multiset Ip) : Prop := ∀ a ∈ R, tree v (v.inode a).inum ≠ none

theorem scan_whole : ∀ {offs : List Nat}, (∀ off ∈ offs, off + 16 ≤ bytes.length) → scan e bytes f last offs ≠ .error e'
  | [], _ => by simp [scan]
  | off :: rest, h => by
    unfold scan entryAt
    rw [if_pos (h off List.mem_cons_self)]
    dsimp only
    split
    · simp
    · exact scan_whole (fun o ho => h o (List.mem_cons_of_mem _ ho))

theorem offsets_whole {start size : Nat} (h : size % 16 = 0) (ho : off ∈ offsets start size) : off + 16 ≤ size := by
  have := offsets_lt ho
  have := offsets_mod ho
  omega

theorem scan_panic {start : Nat}
    (h : scan e bytes f last (offsets start bytes.length) = .error e') (he : Torn e) (hF : Excused F t)
    (hw : Whole t → bytes.length % 16 = 0) : F e' := by
  rcases hF.torn with ht | ht
  · rw [scan_error h]
    exact ht e he
  · exact absurd h (scan_whole (fun off => offsets_whole (hw ht)))

theorem Excused.walk {room : Option Nat → Nat → Bool} (hF : Excused F t) (hno : e ≠ .ilockNoType) :
    ∀ {names : List Bytes} {i : Nat}, walk room t parent i names = .error e → F e
  | [], i, h => by cases h
  | name :: rest, i, h => by
    cases walked h with
    | free hn => exact absurd rfl hno
    | torn n hn hd hf => exact scan_panic hf (by decide) hF (fun hw => hw i n hn hd)
    | full j hr => exact hF.mild _ (by decide) (by decide) (by decide)
    | next n j off _ hn hd hp hf he => exact hF.walk hno he

theorem Excused.resolve {room : Option Nat → Nat → Bool}
    (hF : Excused F t) (hc : t cwd ≠ none) (h : resolve room t cwd path parent = .error e) : F e := by
  by_cases e0 : e = .ilockNoType
  · subst e0
    exact hF.noType.resolve_right (fun hcl => (hcl.resolve hc).1 h)
  unfold Fs.resolve at h
  split at h
  · split at h
    · exact hF.walk e0 h
    · cases h
      exact hF.mild _ (by decide) (by decide) (by decide)
  · exact hF.walk e0 h

theorem namei_spec {cwd : Ip} (h : Mid v R []) (hg : Good v R) (hal : Alloc v R) (hcwd : cwd ∈ R)
    (hF : Excused F (tree v)) : wp (namei cwd path) (fun r v' => Quiet v v' ∧ Stays R 1 v v' ∧ match r with
      | none => Mid v' R [] ∧ look (tree v) (v.inode cwd).inum path false = .ok none
      | some a => Mid v' (a ::ₘ R) [] ∧ (F .ilockNoType ∨ tree v (v'.inode a).inum ≠ none) ∧
        ∃ nm, look (tree v) (v.inode cwd).inum path false = .ok (some ((v'.inode a).inum, nm))) F v := by
  unfold namei
  rw [wp_bind]
  refine wp_mono (namex_spec h hg hcwd) (fun r v' ⟨h', hq, hst, hw⟩ => ⟨hq, hst, ?_⟩)
    (fun e => hF.resolve (hal cwd hcwd))
  cases r with
  | none => exact ⟨h', resolve_any hw⟩
  | some r =>
    refine ⟨h', ?_, r.2, resolve_any hw⟩
    exact hF.noType.imp_right (fun hcl => (hcl.resolve (hal cwd hcwd)).2 _ _ hw)

theorem nameiparent_spec {cwd : Ip} (h : Mid v R []) (hg : Good v R) (hal : Alloc v R) (hcwd : cwd ∈ R)
    (hF : Excused F (tree v)) : wp (nameiparent cwd path) (fun r v' => Quiet v v' ∧ Stays R 1 v v' ∧ match r with
      | none => Mid v' R []
      | some (a, nm) => Mid v' (a ::ₘ R) [] ∧ look (tree v) (v.inode cwd).inum path true = .ok (some ((v'.inode a).inum, nm)) ∧
        ∃ n, tree v (v'.inode a).inum = some n ∧ n.type = .dir) F v := by
  refine wp_mono (namex_spec h hg hcwd) (fun r v' ⟨h', hq, hst, hw⟩ => ⟨hq, hst, ?_⟩)
    (fun e => hF.resolve (hal cwd hcwd))
  cases r with
  | none => exact h'
  | some r => exact ⟨h', resolve_any hw, resolve_parent hw⟩

/-! ## What lasts between calls -/

/-- **What holds of the references `R` that last**: an inode without links is among them, and they are in use. -/
structure Base (v : Vol) (R : Multiset Ip) : Prop where
  good : Good v R
  alloc : Alloc v R

section
variable (hb : Base v R)
include hb

theorem Base.update (hst : Stays R n v v') (ht : tree v' = Function.update (tree v) i (some m))
    (hm : (∃ m', tree v i = some m' ∧ m.nlink = m'.nlink) ∨ m.nlink ≠ 0 ∨
      ∃ a ∈ R, (v.inode a).inum = i ∧ (v'.inode a).valid = true) : Base v' R := by
  have hold : ∀ j m', tree v j = some m' → m'.nlink = 0 → ∃ a ∈ R, (v'.inode a).inum = j ∧ (v'.inode a).valid = true := by
    intro j m' hj h0
    obtain ⟨a, ha, hi, hv⟩ := hb.good j m' hj h0
    exact ⟨a, ha, (hst.inum a ha).trans hi, (hst.valid a ha hv).1⟩
  refine ⟨fun j m' hj h0 => ?_, fun a ha => ?_⟩
  · rw [ht] at hj
    by_cases e : j = i
    · subst e
      rw [update_self] at hj
      cases hj
      rcases hm with ⟨m', hm', hn⟩ | hn | ⟨a, ha, hi, hv⟩
      · exact hold j m' hm' (hn ▸ h0)
      · exact absurd h0 hn
      · exact ⟨a, ha, (hst.inum a ha).trans hi, hv⟩
    · rw [update_of_ne e] at hj
      exact hold j m' hj h0
  · rw [ht, hst.inum a ha]
    by_cases e : (v.inode a).inum = i
    · rw [e, update_self]
      exact fun h => by cases h
    · rw [update_of_ne e]
      exact hb.alloc a ha

theorem Base.same (ht : tree v' = tree v) (hst : Stays R n v v') : Base v' R :=
  ⟨hb.good.same ht hst, fun a ha => by rw [ht, hst.inum a ha]; exact hb.alloc a ha⟩

theorem Base.quiet (hq : Quiet v v') (hst : Stays R n v v') : Base v' R := hb.same hq.tree hst

theorem Base.cons (ha : tree v (v.inode a).inum ≠ none) : Base v (a ::ₘ R) := by
  refine ⟨hb.good.mono (le_cons_self _ _), fun b hbm => ?_⟩
  rcases Multiset.mem_cons.1 hbm with rfl | hbm
  · exact ha
  · exact hb.alloc b hbm

end

theorem Mid.used (h : Mid v R L) (ha : a ∈ L) : tree v (v.inode a).inum ≠ none := by
  obtain ⟨haR, hav⟩ := h.locked a ha
  rw [h.node haR hav]
  exact fun e => by cases e

/-- **What a part of a call leaves as it is**: the slots referenced by `R` (`Stays`), the blocks it does not log (`Logs`). -/
structure Ran (R : Multiset Ip) (n : Nat) (I : Finset Nat) (k : Nat) (v v' : Vol) : Prop where
  stays : Stays R n v v'
  logs : Logs I k v v'

theorem Quiet.ran (hq : Quiet v v') (hst : Stays R n v v') : Ran R n ∅ 0 v v' := ⟨hst, hq.logs⟩

theorem Ran.mono {I I' : Finset Nat} (h : Ran R n I k v v') (hR : R' ≤ R)
    (hn : n ≤ n') (hI : I ⊆ I') (hk : k ≤ k') : Ran R' n' I' k' v v' := ⟨h.stays.mono hR hn, h.logs.mono hI hk⟩

theorem Ran.trans {I I' : Finset Nat} (h : Ran R n I k v v') (h' : Ran R n' I' k' v' v'') :
    Ran R (max n n') (I ∪ I') (k + k') v v'' :=
  ⟨(h.stays.mono le_rfl (le_max_left _ _)).trans (h'.stays.mono le_rfl (le_max_right _ _)),
    h.logs.trans h'.logs h.stays.log.1⟩

/-- **Inodes without links may be gone.** -/
def Shrinks (t t' : Tree) : Prop := ∀ i, t' i = t i ∨ t' i = none ∧ ∃ n, t i = some n ∧ n.nlink = 0

theorem Shrinks.refl (t : Tree) : Shrinks t t := fun _ => Or.inl rfl

theorem Shrinks.free {n : Node} (hn : t i = some n) (h0 : n.nlink = 0) :
    Shrinks t (Function.update t i none) := fun j => by
  by_cases e : j = i
  · subst e
    exact Or.inr ⟨update_self .., n, hn, h0⟩
  · exact Or.inl (update_of_ne e _ _)

theorem Shrinks.trans (h : Shrinks t t') (h' : Shrinks t' t'') : Shrinks t t'' := fun i => by
  rcases h i with e | ⟨e, hn⟩
  · rw [← e]
    exact h' i
  · refine Or.inr ⟨?_, hn⟩
    rcases h' i with e' | ⟨e', -⟩
    · rw [e', e]
    · exact e'

theorem Shrinks.update (h : Shrinks t t') (i : Nat) (o : Option Node) :
    Shrinks (Function.update t i o) (Function.update t' i o) := fun j => by
  by_cases e : j = i
  · subst e
    exact Or.inl (by rw [update_self, update_self])
  · simp only [update_of_ne e]
    exact h j

theorem Shrinks.keeps {n : Node} (h : Shrinks t t') (hn : t i = some n) (h0 : n.nlink ≠ 0) : t' i = some n := by
  rcases h i with e | ⟨-, m, hm, hm0⟩
  · rw [e, hn]
  · rw [hn] at hm
    cases hm
    exact absurd hm0 h0

theorem Base.iput (hb : Base v (a ::ₘ R)) (h : Mid v (a ::ₘ R) L) (hst : Stays R n v v')
    (ht : ¬ Frees v R a ∧ Quiet v v' ∨ Frees v R a ∧ Logs {(v.inode a).inum} 0 v v' ∧
      tree v' = Function.update (tree v) (v.inode a).inum none) :
    Base v' R ∧ Ran R n {(v.inode a).inum} 0 v v' ∧ Shrinks (tree v) (tree v') ∧
      ∀ j, j ≠ (v.inode a).inum → tree v' j = tree v j := by
  have haR : a ∈ a ::ₘ R := mem_cons_self _ _
  have hg := hb.good.iput h hst ht
  rcases ht with ⟨-, hq⟩ | ⟨⟨haR', hav, h0⟩, hlog, ht⟩
  · refine ⟨⟨hg, fun b hbm => ?_⟩, ⟨hst, hq.logs.mono (Finset.empty_subset _) le_rfl⟩, ?_, fun j _ => by rw [hq.tree]⟩
    · rw [hq.tree, hst.inum b hbm]
      exact hb.alloc b (mem_cons_of_mem hbm)
    · rw [hq.tree]
      exact Shrinks.refl _
  · refine ⟨⟨hg, fun b hbm => ?_⟩, ⟨hst, hlog⟩, ?_, fun j hj => by rw [ht, update_of_ne hj]⟩
    · have hne : (v.inode b).inum ≠ (v.inode a).inum := fun e => haR' (h.mem_of_held ⟨b, hbm, e⟩)
      rw [ht, hst.inum b hbm, update_of_ne hne]
      exact hb.alloc b (mem_cons_of_mem hbm)
    · rw [ht]
      exact Shrinks.free (h.node haR hav) h0

theorem iput_reap (h : Mid v (a ::ₘ R) L) (hb : Base v (a ::ₘ R)) (hL : a ∈ L → a ∈ R) :
    wp (iput a) (fun _ v' => Mid v' R L ∧ Base v' R ∧ Ran R (L.length + 1) {(v.inode a).inum} 0 v v' ∧
      Shrinks (tree v) (tree v') ∧ ∀ j, j ≠ (v.inode a).inum → tree v' j = tree v j) F v :=
  wp_use (iput_spec h hL) (fun _ _ ⟨h', hst, ht⟩ => ⟨h', hb.iput h hst ht⟩)

theorem iunlockput_reap (h : Mid v (a ::ₘ R) L) (hb : Base v (a ::ₘ R)) (ha : a ∈ L) :
    wp (iunlockput a) (fun _ v' => Mid v' R (L.erase a) ∧ Base v' R ∧ Ran R L.length {(v.inode a).inum} 0 v v' ∧
      Shrinks (tree v) (tree v') ∧ ∀ j, j ≠ (v.inode a).inum → tree v' j = tree v j) F v :=
  wp_use (iunlockput_spec h ha) (fun _ _ ⟨h', hst, ht⟩ => ⟨h', hb.iput h hst ht⟩)

theorem shape_back {n : Node} (he : (t' i).map (fun n => (n.type, n.bytes)) = (t i).map (fun n => (n.type, n.bytes)))
    (hn : t' i = some n) : ∃ m, t i = some m ∧ m.type = n.type ∧ m.bytes = n.bytes := by
  rw [hn, map_some] at he
  obtain ⟨m, hm, hmn⟩ := map_eq_some_iff.1 he.symm
  exact ⟨m, hm, Prod.mk.inj hmn⟩

theorem Closed.congr (h : Closed t)
    (he : ∀ i, (t' i).map (fun n => (n.type, n.bytes)) = (t i).map (fun n => (n.type, n.bytes))) : Closed t' := by
  have hnone : ∀ i, t i ≠ none → t' i ≠ none := fun i hi hn => by
    have := he i
    rw [hn, map_none] at this
    exact hi (map_eq_none_iff.1 this.symm)
  refine ⟨hnone _ h.root, fun i n hn hd off de hmod hde hne => hnone _ ?_⟩
  obtain ⟨m, hm, hty, hby⟩ := shape_back (he i) hn
  exact h.entry i m hm (hty.trans hd) off de hmod (hby ▸ hde) hne

theorem Whole.congr (h : Whole t)
    (he : ∀ i, (t' i).map (fun n => (n.type, n.bytes)) = (t i).map (fun n => (n.type, n.bytes))) : Whole t' := by
  intro i n hn hd
  obtain ⟨m, hm, hty, hby⟩ := shape_back (he i) hn
  rw [← hby]
  exact h i m hm (hty.trans hd)

theorem Excused.congr (hF : Excused F t)
    (he : ∀ i, (t' i).map (fun n => (n.type, n.bytes)) = (t i).map (fun n => (n.type, n.bytes))) : Excused F t' :=
  ⟨hF.mild, hF.noType.imp_right (fun h => h.congr he), hF.torn.imp_right (fun h => h.congr he)⟩

theorem same_shape {n : Node} (hn : t i = some n) (ht : m.type = n.type) (hb : m.bytes = n.bytes) (j : Nat) :
    (update t i (some m) j).map (fun n => (n.type, n.bytes)) = (t j).map (fun n => (n.type, n.bytes)) := by
  by_cases e : j = i
  · subst e
    rw [update_self, hn, map_some, map_some, ht, hb]
  · rw [update_of_ne e]

end Xv6.Fs
