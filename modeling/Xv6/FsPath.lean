import Xv6.FsFail
/-!
# FsPath — path lookup is component-wise lookup

The elements `skipelem` finds are the maximal runs of a path between slashes, cut to `DIRSIZ` bytes (`components`). `namei`
is the fold of `dirlookup` over them and `nameiparent` the fold over all but the last; both leave one more reference, to the
inode they return.
-/
namespace Xv6.Fs

open List Option Wp

/-! ## Components -/

/-- **The components of a path**: its maximal runs of bytes other than `/`, cut to `DIRSIZ`. -/
def components (path : Bytes) : List Bytes := ((path.splitOn slash).filter (· ≠ [])).map (List.take dirsiz)

theorem components_slash (path : Bytes) : components (slash :: path) = components path := by
  unfold components splitOn
  rw [splitOnP_cons_eq_if_modifyHead, if_pos (by simp), filter_cons_of_neg (by simp)]

theorem components_slashes : ∀ path : Bytes, components (path.dropWhile (fun c => c = slash)) = components path
  | [] => rfl
  | c :: path => by
    rw [dropWhile_cons]
    split
    · rename_i hc
      rw [of_decide_eq_true hc, components_slash, components_slashes path]
    · rfl

theorem components_run {run rest : Bytes} (hne : run ≠ []) (hrun : ∀ c ∈ run, c ≠ slash)
    (hrest : rest = [] ∨ rest.head? = some slash) : components (run ++ rest) = run.take dirsiz :: components rest := by
  have hp : ∀ c ∈ run, (c == slash) = false := fun c hc => by simp [hrun c hc]
  rcases hrest with rfl | hh
  · rw [append_nil]
    unfold components splitOn
    rw [splitOnP_eq_singleton hp]
    simp [hne]
  · cases rest with
    | nil => cases hh
    | cons c rest =>
      cases hh
      rw [components_slash]
      unfold components splitOn
      rw [splitOnP_append_cons_of_forall_mem hp slash (by simp), filter_cons_of_pos (by simp [hne]), map_cons]

theorem head_dropWhile (path : Bytes) : (path.dropWhile fun c => c = slash).head? ≠ some slash := by
  intro hh
  have := head?_dropWhile_not (fun c => decide (c = slash)) path
  rw [hh] at this
  simp at this

theorem components_skipelem (path : Bytes) : components path = match skipelem path with
    | none => []
    | some (name, rest) => name :: components rest := by
  unfold skipelem
  dsimp only
  split
  · rename_i hs
    split at hs
    · rename_i hnil
      rw [← components_slashes, hnil]
      rfl
    · cases hs
  rename_i name rest hs
  split at hs
  · cases hs
  rename_i hne
  cases hs
  rw [components_slashes]
  have hhead := head_dropWhile path
  rw [← components_slashes path]
  generalize path.dropWhile (fun c => decide (c = slash)) = q at hne hhead ⊢
  conv_lhs => rw [← takeWhile_append_dropWhile (p := fun c => decide (c ≠ slash)) (l := q)]
  apply components_run
  · cases q with
    | nil => exact absurd rfl hne
    | cons c q => simpa [takeWhile_cons] using hhead
  · intro c hc
    simpa using all_eq_true.1 all_takeWhile c hc
  have := head?_dropWhile_not (fun c => decide (c ≠ slash)) q
  cases hr : (q.dropWhile fun c => decide (c ≠ slash)) with
  | nil => exact .inl rfl
  | cons c r =>
    rw [hr] at this
    simpa using this

variable {path : Bytes}

theorem skipelem_shorter {name rest : Bytes} (h : skipelem path = some (name, rest)) : rest.length < path.length := by
  unfold skipelem at h
  dsimp only at h
  split at h
  · cases h
  rename_i hne
  cases h
  have h1 := (dropWhile_suffix (l := path) (fun c => decide (c = slash))).length_le
  have hhead := head_dropWhile path
  generalize path.dropWhile (fun c => decide (c = slash)) = q at hne h1 hhead ⊢
  have h3 := (dropWhile_suffix (l := q.dropWhile fun c => decide (c ≠ slash)) (fun c => decide (c = slash))).length_le
  cases q with
  | nil => exact absurd rfl hne
  | cons c q =>
    have hc : c ≠ slash := by simpa using hhead
    have h2 := (dropWhile_suffix (l := q) (fun c => decide (c ≠ slash))).length_le
    rw [dropWhile_cons, if_pos (by simpa using hc)] at h3 ⊢
    simp only [length_cons] at h1
    omega

theorem elemsLoop_eq : ∀ (fuel : Nat) (path : Bytes), path.length ≤ fuel → elemsLoop fuel path = components path
  | 0, path, h => by
    rw [length_eq_zero_iff.1 (Nat.le_zero.1 h)]
    rfl
  | fuel + 1, path, h => by
    unfold elemsLoop
    rw [components_skipelem]
    cases hs : skipelem path with
    | none => rfl
    | some x =>
      have := skipelem_shorter hs
      dsimp only
      rw [elemsLoop_eq fuel x.2 (by omega)]

theorem elems_eq (path : Bytes) : elems path = components path := elemsLoop_eq _ _ (le_refl _)

example : components [47, 47, 97, 47, 98, 98, 47] = [[97], [98, 98]] := by decide

/-! ## The fold -/

def dirAt (t : Tree) (i : Nat) : Option Node := (t i).filter (fun n => n.type = .dir)

/-- **`dirlookup` in a tree**: the inode number that the directory `i` has for a name. -/
def child (t : Tree) (i : Nat) (name : Bytes) : Option Nat :=
  (dirAt t i).bind fun n => match dirFind n.bytes name with
    | .ok (some (j, _)) => some j
    | _ => none

def startOf (cwd : Nat) (path : Bytes) : Nat := if path.head? = some slash then rootino else cwd

def lookup (t : Tree) (cwd : Nat) (path : Bytes) : Option Nat := (components path).foldlM (child t) (startOf cwd path)

/-- The directory of the last component, the fold over the others, and the last component. -/
def lookupParent (t : Tree) (cwd : Nat) (path : Bytes) : Option (Nat × Bytes) :=
  (components path).getLast?.bind fun name =>
    ((components path).dropLast.foldlM (child t) (startOf cwd path)).bind fun i => (dirAt t i).map fun _ => (i, name)

variable {t : Tree} {i cwd j : Nat} {n : Node} {o : Option (Nat × Bytes)} {parent : Bool} {e : Panic}

theorem dirAt_dir (hn : t i = some n) (hd : n.type = .dir) : dirAt t i = some n := by
  unfold dirAt
  rw [hn, filter_some, if_pos (by simpa using hd)]

theorem dirAt_file (hn : t i = some n) (hd : n.type ≠ .dir) : dirAt t i = none := by
  unfold dirAt
  rw [hn, filter_some, if_neg (by simpa using hd)]

theorem walk_fold {room : Option Nat → Nat → Bool} : ∀ {names : List Bytes} {i : Nat},
    walk room t false i names = .ok o → o.map Prod.fst = names.foldlM (child t) i
  | [], i, h => by
    cases h
    rfl
  | name :: rest, i, h => by
    rw [foldlM_cons]
    unfold child
    cases walked h with
    | file n hn hd =>
      rw [dirAt_file hn hd]
      rfl
    | stop n hn hd hp => cases hp.1
    | missing n hn hd hp hf =>
      rw [dirAt_dir hn hd, bind_some, hf]
      rfl
    | next n j off _ hn hd hp hf he =>
      rw [dirAt_dir hn hd, bind_some, hf]
      exact walk_fold he

theorem walk_foldParent {room : Option Nat → Nat → Bool} : ∀ {names : List Bytes} {i : Nat},
    walk room t true i names = .ok o →
      o = names.getLast?.bind fun name => (names.dropLast.foldlM (child t) i).bind fun i => (dirAt t i).map fun _ => (i, name)
  | [], i, h => by
    cases h
    rfl
  | [name], i, h => by
    change o = (dirAt t i).map fun _ => (i, name)
    cases walked h with
    | file n hn hd =>
      rw [dirAt_file hn hd]
      rfl
    | stop n hn hd hp =>
      rw [dirAt_dir hn hd]
      rfl
    | missing n hn hd hp hf => exact absurd ⟨rfl, rfl⟩ hp
    | next n j off _ hn hd hp hf he => exact absurd ⟨rfl, rfl⟩ hp
  | name :: next :: rest, i, h => by
    rw [getLast?_cons_cons, dropLast_cons_cons, foldlM_cons]
    unfold child
    cases walked h with
    | file n hn hd =>
      rw [dirAt_file hn hd]
      cases (next :: rest).getLast? <;> rfl
    | stop n hn hd hp => cases hp.2
    | missing n hn hd hp hf =>
      rw [dirAt_dir hn hd, bind_some, hf]
      cases (next :: rest).getLast? <;> rfl
    | next n j off _ hn hd hp hf he =>
      rw [dirAt_dir hn hd, bind_some, hf]
      exact walk_foldParent he

theorem resolve_walk {room : Option Nat → Nat → Bool}
    (h : resolve room t cwd path parent = .ok o) : walk room t parent (startOf cwd path) (components path) = .ok o := by
  unfold resolve at h
  unfold startOf
  rw [elems_eq] at h
  split at h
  · rw [if_pos ‹_›]
    split at h
    · exact h
    · cases h
  · rw [if_neg ‹_›]
    exact h

/-! ## Panics -/

/-- **A directory tree**: its directories are whole, and name inodes in use. -/
structure DirTree (t : Tree) : Prop where
  closed : Closed t
  whole : ∀ i n, t i = some n → n.type = .dir → n.bytes.length % 16 = 0

theorem DirTree.walk {room : Option Nat → Nat → Bool} (h : DirTree t) :
    ∀ {names : List Bytes} {i : Nat}, t i ≠ none → walk room t parent i names = .error e →
      e = .igetNoInodes ∧ ∃ i j, room i j = false
  | [], i, _, he => by cases he
  | name :: rest, i, hi, he => by
    cases walked he with
    | free hn => exact absurd hn hi
    | torn n hn hd hf => exact absurd hf (scan_whole (fun off => offsets_whole (h.whole i n hn hd)))
    | full j hr => exact ⟨rfl, _, j, hr⟩
    | next n j off _ hn hd hp hf he =>
      obtain ⟨hmod, de, hde, rfl, hne, -⟩ := dirFind_entry hf
      exact h.walk (h.closed.entry i n hn hd off de hmod hde hne) he

theorem DirTree.resolve {room : Option Nat → Nat → Bool} (h : DirTree t)
    (hc : t cwd ≠ none) (he : resolve room t cwd path parent = .error e) : e = .igetNoInodes ∧ ∃ i j, room i j = false := by
  unfold Fs.resolve at he
  split at he
  · split at he
    · exact h.walk h.closed.root he
    · rename_i hr
      cases he
      exact ⟨rfl, _, _, Bool.not_eq_true _ ▸ hr⟩
  · exact h.walk hc he

variable {v v' : Vol} {R : Multiset Ip} {cwd : Ip} {path : Bytes}

theorem free_of_room {i : Option Nat} (h : room v R i j = false) : (freeSlots R).length ≤ 1 := by
  unfold room at h
  rw [decide_eq_false_iff_not, not_or, not_or] at h
  have := h.2.2
  split at this <;> omega

/-! ## `namei` and `nameiparent` -/

/-- What a lookup leaves: the tree as it was, and one more reference to the inode it returns. -/
structure Looked (v v' : Vol) (r : Option Ip) : Prop where
  tree : tree v' = tree v
  ref : ∀ b, (v'.inode b).ref = (v.inode b).ref + if r = some b then 1 else 0
  locks : v'.locks = v.locks

theorem looked_of_mid {r : Option Ip} (h : Mid v R []) (h' : Mid v' (withIp r R) []) (hq : Quiet v v') : Looked v v' r := by
  refine ⟨hq.tree, fun b => ?_, by rw [h'.locks, h.locks]⟩
  rw [h'.refs, h.refs]
  cases r with
  | none => simp [withIp]
  | some a =>
    simp only [withIp, Multiset.count_cons, some_inj, eq_comm]
    split <;> simp

/-- **Path lookup is component-wise lookup**: `namei` returns the fold of `dirlookup` over the components, `nameiparent` the
fold over all but the last, and only the inode returned has one more reference. In a directory tree they panic only where
the inode table has no slot for the next directory. -/
theorem path_lookup_is_fold {s : FsState} {p : Slot} {x : Proc} (h : Inv s) (hx : s.proc p = some x) (path : Bytes) :
    (∀ r v, (namei x.cwd path).run s.vol = .ok (r, v) →
      Looked s.vol v r ∧ r.map (fun a => (v.inode a).inum) = lookup (tree s.vol) (s.vol.inode x.cwd).inum path) ∧
    (∀ r v, (nameiparent x.cwd path).run s.vol = .ok (r, v) → Looked s.vol v (r.map Prod.fst) ∧
      r.map (fun a => ((v.inode a.1).inum, a.2)) = lookupParent (tree s.vol) (s.vol.inode x.cwd).inum path) ∧
    ∀ e, (namei x.cwd path).run s.vol = .error e ∨ (nameiparent x.cwd path).run s.vol = .error e → DirTree (tree s.vol) →
      e = .igetNoInodes ∧ (slots.filter fun a => (s.vol.inode a).ref = 0).length ≤ 1 := by
  have hcwd : x.cwd ∈ holders s := mem_holders hx
  have hnamei := namei_exact path h.mid h.base.good hcwd
  have hparent : wp (nameiparent x.cwd path) _ _ s.vol := namex_spec h.mid h.base.good hcwd
  have hfree : slots.filter (fun a => (s.vol.inode a).ref = 0) = freeSlots (holders s) := by
    apply filter_congr
    intro a _
    rw [h.mid.refs, decide_eq_decide]
    exact Int.natCast_eq_zero.trans Multiset.count_eq_zero
  refine ⟨fun r v hr => ?_, fun r v hr => ?_, fun e he ht => ?_⟩
  · obtain ⟨h', hq, -, nm, hw⟩ := wp_of_ok hnamei hr
    refine ⟨looked_of_mid h.mid h' hq, ?_⟩
    rw [lookup, ← walk_fold (resolve_walk hw), Option.map_map]
    rfl
  · obtain ⟨h', hq, -, hw⟩ := wp_of_ok hparent hr
    refine ⟨looked_of_mid h.mid ?_ hq, walk_foldParent (resolve_walk hw)⟩
    cases r <;> exact h'
  have hres : ∃ parent, resolve (room s.vol (holders s)) (tree s.vol) (s.vol.inode x.cwd).inum path parent = .error e := by
    rcases he with he | he
    · have := wp_of_error hnamei he
      exact ⟨false, this⟩
    · have := wp_of_error hparent he
      exact ⟨true, this⟩
  obtain ⟨parent, hres⟩ := hres
  obtain ⟨rfl, i, j, hroom⟩ := ht.resolve (h.base.alloc x.cwd hcwd) hres
  rw [hfree]
  exact ⟨rfl, free_of_room hroom⟩

/-- `/./f/`, with the file `f` made before. -/
theorem path_lookup_is_fold_file :
    ∃ s x r v, Run.run fsStep (start rootImage) [(initSlot, .open (some [102]) 0x202)] = some s ∧
    s.proc initSlot = some x ∧ (namei x.cwd [47, 46, 47, 102, 47]).run s.vol = .ok (some r, v) ∧
    some (v.inode r).inum = lookup (tree s.vol) (s.vol.inode x.cwd).inum [47, 46, 47, 102, 47] := by
  obtain ⟨s, x, hs, hx, hp, hr⟩ := holds_of_eval rootImage [(initSlot, .open (some [102]) 0x202)] initSlot
    (fun s x => s.panic = none ∧ (((namei x.cwd [47, 46, 47, 102, 47]).run s.vol).toOption.bind Prod.fst).isSome = true)
    (by decide +kernel)
  obtain ⟨r, hr⟩ := isSome_iff_exists.1 hr
  obtain ⟨⟨r', v⟩, hrun, hr⟩ := bind_eq_some_iff.1 hr
  cases hr
  have hok := ok_of_toOption hrun
  exact ⟨s, x, r, v, hs, hx, hok, ((path_lookup_is_fold (reached_inv rootImage_consistent hs hp) hx _).1 _ _ hok).2⟩

end Xv6.Fs
