import Xv6.FsFollow
/-!
# FsKeep — what a call keeps of the tree, and the target of a link

A call changes the tree in one of six ways (`Keeps`): it gives up inodes without links, empties a file, writes to an inode
that is no directory, makes an inode with its entry, adds a link, or takes one away. A property that each of them keeps is
kept by the call.

The target of a symbolic link is kept in every run in which nobody writes through a descriptor that is open on the link: an
open with `O_NOFOLLOW` and a write mode gives one, and `filewrite` writes to the link's own bytes.
-/
namespace Xv6.Fs

open Function Option Wp
variable {s s' : FsState} {p : Slot} {x : Proc} {c : Call} {P : Tree → Prop}

/-! ## The rule -/

/-- What a new inode holds: one link, and as a directory its first two entries. -/
structure Fresh (c : Call) (str : Bytes) (i dp : Nat) (n : Node) : Prop where
  nlink : n.nlink = 1
  dir : n.type = .dir → n.bytes = dots i dp ∧ ∃ path, c = .mkdir path ∧ argstr path = some str

/-- **The changes of a tree that keep `P`**, those of one inode anywhere and those of the entries as the call makes them. -/
structure Keeps (s : FsState) (x : Proc) (c : Call) (P : Tree → Prop) : Prop where
  shrink : ∀ t t', Shrinks t t' → P t → P t'
  empty : ∀ t i n, t i = some n → n.type = .file → P t → P (update t i (some { n with bytes := [] }))
  write : ∀ fd src m a r n bytes, c = .write fd src m a → argfd x fd = some r → (s.ftable r.2).type = .inode →
    (s.ftable r.2).writable = true → tree s.vol (s.vol.inode (s.ftable r.2).ip).inum = some n → n.type ≠ .dir →
    P (tree s.vol) → P (update (tree s.vol) (s.vol.inode (s.ftable r.2).ip).inum (some { n with bytes := bytes }))
  make : ∀ str i n dp dn name off, FreeName (tree s.vol) (s.vol.inode x.cwd).inum str dp dn name off → 0 < i → i < 65536 →
    tree s.vol i = none → Fresh c str i dp n → P (tree s.vol) → P (createTree (tree s.vol) i n dp dn name off)
  link : ∀ old new o str i nm n dp dn name off, c = .link old new → argstr old = some o →
    look (tree s.vol) (s.vol.inode x.cwd).inum o false = .ok (some (i, nm)) → tree s.vol i = some n → n.type ≠ .dir →
    FreeName (tree s.vol) (s.vol.inode x.cwd).inum str dp dn name off → P (tree s.vol) →
    P (linkTree (tree s.vol) i n dp dn name off)
  unlink : ∀ path str dp dn name i n off, c = .unlink path → argstr path = some str →
    HasName (tree s.vol) (s.vol.inode x.cwd).inum str dp dn name i n off → Removable n name → P (tree s.vol) →
    P (unlinkTree (tree s.vol) dp dn i n off)

variable {i dp cwd off j : Nat} {str target bytes name : Bytes} {t t' : Tree}
  {n dn : Node} {path arg : Option Bytes} {a : Slot × Call}

theorem fresh_plain {type : IType} {major minor : Int} (h : type ≠ .dir) :
    Fresh c str i dp { newNode type major minor i dp with bytes := bytes } := ⟨rfl, fun hd => absurd hd h⟩

theorem fresh_dir (h : argstr path = some str) : Fresh (.mkdir path) str i dp (newNode .dir 0 0 i dp) :=
  ⟨rfl, fun _ => ⟨rfl, path, rfl, h⟩⟩

theorem FreeName.ne (h : FreeName t cwd str dp dn name off) (hnone : t i = none) : i ≠ dp := by
  rintro rfl
  rw [h.node] at hnone
  cases hnone

theorem Keeps.new (h : Keeps s x c P) (hP : P (tree s.vol))
    (hb : ∀ j, t j ≠ none → j < 65536)
    (hfree : FreeName (tree s.vol) (s.vol.inode x.cwd).inum str dp dn name off) (hpos : 0 < i)
    (hnone : tree s.vol i = none) (hn : Fresh c str i dp n)
    (hsh : Shrinks (createTree (tree s.vol) i n dp dn name off) t) : P t := by
  have hi : t i = some n := createTree_new (hfree.ne hnone) (by rw [hn.nlink]; decide) hsh
  have hlt : i < 65536 := hb i (by rw [hi]; exact some_ne_none n)
  exact h.shrink _ _ hsh (h.make _ _ _ _ _ _ _ hfree hpos hlt hnone hn hP)

theorem Keeps.effect {r : Int} (h : Keeps s x c P) (hP : P (tree s.vol)) (hb : ∀ j, t j ≠ none → j < 65536)
    (he : Effect s x c r t) : P t := by
  cases c with
  | «open» path omode =>
    obtain ⟨t1, hc, ht⟩ := he
    have hb1 : ∀ j n, t1 j = some n → n.nlink ≠ 0 → j < 65536 := fun j n hn h0 => hb j (by
      rcases ht with hsh | ⟨i, m, hm, -, rfl⟩
      · rw [hsh.keeps hn h0]
        exact some_ne_none n
      by_cases e : j = i
      · rw [e, update_self]
        exact some_ne_none _
      · rw [update_of_ne e, hn]
        exact some_ne_none n)
    have h1 : P t1 := by
      rcases hc with rfl | ⟨-, str, o, -, hc⟩
      · exact hP
      cases hc with
      | failed => exact hP
      | found => exact hP
      | made hpos hnone hfree hsh =>
        have hi := createTree_new (hfree.ne hnone) Int.one_ne_zero hsh
        exact h.shrink _ _ hsh (h.make _ _ _ _ _ _ _ hfree hpos (hb1 _ _ hi Int.one_ne_zero) hnone
          (fresh_plain (by decide)) hP)
    rcases ht with hsh | ⟨i, n, hn, hty, rfl⟩
    · exact h.shrink _ _ hsh h1
    · exact h.empty _ _ _ hn hty h1
  | write fd src m a =>
    rcases he with rfl | ⟨r, n, bytes, hfd, hty, hw, hn, hd, rfl⟩
    · exact hP
    · exact h.write _ _ _ _ _ _ _ rfl hfd hty hw hn hd hP
  | mkdir path =>
    rcases he with ⟨-, rfl⟩ | ⟨-, str, i, dp, dn, name, off, hstr, hpos, hnone, hfree, hsh⟩
    · exact hP
    · exact h.new hP hb hfree hpos hnone (fresh_dir hstr) hsh
  | mknod path major minor =>
    rcases he with ⟨-, rfl⟩ | ⟨-, str, i, dp, dn, name, off, hstr, hpos, hnone, hfree, hsh⟩
    · exact hP
    · exact h.new hP hb hfree hpos hnone (fresh_plain (by decide)) hsh
  | link old new =>
    rcases he with ⟨-, rfl⟩ | ⟨o, str, ho, -, ⟨-, rfl⟩ | ⟨-, i, nm, n, dp, dn, name, off, hlook, hn, hd, hfree, hsh⟩⟩
    · exact hP
    · exact hP
    · exact h.shrink _ _ hsh (h.link _ _ _ _ _ _ _ _ _ _ _ rfl ho hlook hn hd hfree hP)
  | symlink target path =>
    rcases he with ⟨-, rfl⟩ | ⟨tg, str, -, -, ⟨-, rfl⟩ | ⟨i, dp, dn, name, off, bytes, hpos, hnone, hfree, -, hsh⟩⟩
    · exact hP
    · exact hP
    · exact h.new hP hb hfree hpos hnone (fresh_plain (by decide)) hsh
  | unlink path =>
    rcases he with ⟨-, rfl⟩ | ⟨str, hstr, ⟨-, rfl⟩ | ⟨-, dp, dn, name, i, n, off, hname, hrem, hsh⟩⟩
    · exact hP
    · exact hP
    · exact h.shrink _ _ hsh (h.unlink _ _ _ _ _ _ _ _ rfl hstr hname hrem hP)
  | close => exact h.shrink _ _ he hP
  | chdir => exact h.shrink _ _ he hP
  | exit => exact h.shrink _ _ he hP
  | dup => exact he ▸ hP
  | pipe => exact he ▸ hP
  | fstat => exact he ▸ hP
  | read => exact he ▸ hP
  | exec => exact he ▸ hP
  | fork => exact he ▸ hP

theorem tree_lt {v : Vol} (h : tree v i ≠ none) : i < 65536 := by
  by_contra hge
  exact h (if_neg hge)

/-! ## The target of a link -/

structure Targets (t : Tree) (i : Nat) (target : Bytes) (n : Node) : Prop where
  node : t i = some n
  type : n.type = .symlink
  bytes : n.bytes = target
  named : 1 ≤ n.nlink ∧ n.nlink < 32768

/-- **Following `i` resolves `target`**, with as many links left as one less; the empty string resolves to nothing. -/
def LeadsTo (t : Tree) (i : Nat) (target : Bytes) : Prop :=
  ∀ room cwd left, follow room t cwd false (left + 1) i =
    if target = [] then .ok none
    else
      match resolve room t cwd target false with
      | .error e => .error e
      | .ok none => .ok none
      | .ok (some (j, _)) => if t j = none then .error .ilockNoType else follow room t cwd false left j

theorem targetOf_str (h : argstr arg = some str) (hn : n.bytes = str) : targetOf n = str := by
  have hlen := argstr_length h
  unfold maxpath at hlen
  unfold argstr at h
  split at h
  · cases h
  dsimp only at h
  split at h
  · cases h
    unfold targetOf
    rw [hn, List.take_of_length_le (by omega)]
    exact List.takeWhile_idem
  · cases h

theorem Targets.leadsTo (h : Targets t i str n) (harg : argstr arg = some str) : LeadsTo t i str := by
  intro room cwd left
  have htarget := targetOf_str harg h.bytes
  obtain ⟨hnode, htype, rfl, -⟩ := h
  have hty : ¬ (n.type ≠ .symlink ∨ false = true) := by
    rw [htype]
    decide
  rw [follow, hnode]
  exact (if_neg hty).trans (htarget ▸ rfl)

/-- **The call leaves the link `i` alone**: it does not write to it, it does not take its last link away, and it does not
make a link more than a `short` can count. -/
def LeavesLink (i : Nat) (s : FsState) (a : Slot × Call) : Prop :=
  ∀ x, s.proc a.1 = some x →
    match a.2 with
    | .write fd _ _ _ => ∀ r, argfd x fd = some r → (s.ftable r.2).type = .inode → (s.ftable r.2).writable = true →
        (s.vol.inode (s.ftable r.2).ip).inum ≠ i
    | .unlink path => ∀ str dp dn name n off, argstr path = some str →
        HasName (tree s.vol) (s.vol.inode x.cwd).inum str dp dn name i n off → n.nlink ≠ 1
    | .link old _ => ∀ str nm n, argstr old = some str →
        look (tree s.vol) (s.vol.inode x.cwd).inum str false = .ok (some (i, nm)) → tree s.vol i = some n → n.nlink ≠ 32767
    | _ => True

theorem Targets.other {o : Option Node} (h : Targets t i target n) (hj : i ≠ j) : Targets (update t j o) i target n :=
  ⟨by rw [update_of_ne hj, h.node], h.type, h.bytes, h.named⟩

theorem Targets.ne_dir (h : Targets t i target n) (hdn : t dp = some dn) (hd : dn.type = .dir) : i ≠ dp := by
  rintro rfl
  have hn := h.node
  rw [hdn] at hn
  cases hn
  have hty := h.type
  rw [hd] at hty
  cases hty

theorem short_of_lt {y : Int} (h0 : 0 ≤ y) (h1 : y < 32768) : short y = y := by
  unfold short
  rw [Int.bmod_def]
  omega

theorem Targets.relink {d : Int} (h : Targets t i target n)
    (hd : 1 ≤ n.nlink + d ∧ n.nlink + d < 32768) : Targets (update t i (some (relink n d))) i target (relink n d) := by
  have he : short (n.nlink + d) = n.nlink + d := short_of_lt (by omega) hd.2
  refine ⟨update_self .., h.type, h.bytes, ?_⟩
  unfold Fs.relink
  rw [he]
  exact hd

theorem keeps_target (hx : s.proc a.1 = some x) (hl : LeavesLink i s a) :
    Keeps s x a.2 (fun t => ∃ n, Targets t i target n) where
  shrink := by
    rintro t t' hsh ⟨n, h⟩
    exact ⟨n, hsh.keeps h.node (by have := h.named; omega), h.type, h.bytes, h.named⟩
  empty := by
    rintro t j m hm hty ⟨n, h⟩
    refine ⟨n, h.other fun e => ?_⟩
    subst e
    rw [h.node] at hm
    cases hm
    rw [h.type] at hty
    cases hty
  write := by
    rintro fd src m b r n' bytes hc hfd hty hw - - ⟨n, h⟩
    have hl := hl x hx
    rw [hc] at hl
    exact ⟨n, h.other (hl r hfd hty hw).symm⟩
  make := by
    rintro str j m dp dn name off hfree - - hnone - ⟨n, h⟩
    have hdp := h.ne_dir hfree.node hfree.dir
    have hj : i ≠ j := fun e => by
      subst e
      rw [h.node] at hnone
      cases hnone
    exact ⟨n, (h.other hj).other hdp⟩
  link := by
    rintro old new o str j nm m dp dn name off hc ho hlook hm - hfree ⟨n, h⟩
    have hdp := h.ne_dir hfree.node hfree.dir
    by_cases e : i = j
    · subst e
      have hn := h.node
      rw [hm] at hn
      cases hn
      have hl := hl x hx
      rw [hc] at hl
      have hmax := hl o nm m ho hlook hm
      have hnamed := h.named
      exact ⟨_, (h.relink (by omega)).other hdp⟩
    · exact ⟨n, (h.other e).other hdp⟩
  unlink := by
    rintro path str dp dn name j m off hc hstr hname hrem ⟨n, h⟩
    have hdp := h.ne_dir hname.parent hname.dir
    by_cases e : i = j
    · subst e
      have hn := h.node
      rw [hname.node] at hn
      cases hn
      have hl := hl x hx
      rw [hc] at hl
      have hlast := hl str dp dn name m off hstr hname
      have hnamed := h.named
      exact ⟨_, (h.other hdp).relink (by omega)⟩
    · exact ⟨n, (h.other hdp).other e⟩

theorem fsStep_target (h : Sane s) (ht : ∃ n, Targets (tree s.vol) i target n)
    (hl : LeavesLink i s a) (hs : fsStep s a = some s') : ∃ n, Targets (tree s'.vol) i target n := by
  obtain ⟨hp, x, hx, ⟨r, hr⟩ | ⟨e, hr, rfl⟩⟩ := fsStep_cases hs
  · have hw := wp_of_ok (program_spec a.2 (h.inv hp) hx (excused_mild _)) hr
    exact (keeps_target hx hl).effect ht (fun _ => tree_lt) hw.2
  · exact ht

/-- **The link `i` has been made**: it was free, and the last name of the path is the new entry that names it. -/
def MadeLink (t : Tree) (cwd : Nat) (path : Option Bytes) (target : Bytes) (i : Nat) (t' : Tree) : Prop :=
  ∃ str dp dn name off, argstr path = some str ∧ t i = none ∧ FreeName t cwd str dp dn name off ∧
    Shrinks (createTree t i { newNode .symlink 0 0 i dp with bytes := target } dp dn name off) t'

theorem MadeLink.targets (h : MadeLink t cwd path target i t') : ∃ n, Targets t' i target n := by
  obtain ⟨str, dp, dn, name, off, -, hnone, hfree, hsh⟩ := h
  refine ⟨{ newNode .symlink 0 0 i dp with bytes := target }, createTree_new (hfree.ne hnone) Int.one_ne_zero hsh, rfl, rfl,
    Int.le_refl 1, ?_⟩
  show (1 : Int) < 32768
  decide

/-- **A symbolic link keeps its target**, in every run from its making on whose calls leave the link alone: in every state
reached, following it resolves the string it was made with. -/
theorem link_keeps_target {im : Image} (him : Consistent im) {calls : List (Slot × Call)} {s s' : FsState}
    {p : Slot} {x : Proc}
    {target path : Option Bytes} {tg : Bytes} (hs : Run.run fsStep (start im) calls = some s) (hp : s.panic = none)
    (hx : s.proc p = some x) (htg : argstr target = some tg)
    (hr : (program p x (.symlink target path)).run s = .ok (0, s')) :
    ∃ i, MadeLink (tree s.vol) (s.vol.inode x.cwd).inum path tg i (tree s'.vol) ∧
      ∀ later, Run.allSteps fsStep (LeavesLink i) s' later →
        Run.allStates fsStep (fun u => LeadsTo (tree u.vol) i tg) s' later := by
  have hw := wp_of_ok (program_spec (.symlink target path) (reached_inv him hs hp) hx (excused_mild _)) hr
  obtain ⟨hret, heff⟩ := hw
  obtain ⟨i, hmade⟩ : ∃ i, MadeLink (tree s.vol) (s.vol.inode x.cwd).inum path tg i (tree s'.vol) := by
    rcases heff with ⟨h1, -⟩ | ⟨tg', str, htg', hstr, ⟨h1, -⟩ | ⟨i, dp, dn, name, off, bytes, -, hnone, hfree, hbytes, hsh⟩⟩
    · cases h1
    · cases h1
    rw [htg] at htg'
    cases htg'
    rcases hbytes with h1 | ⟨-, rfl⟩
    · cases h1
    · exact ⟨i, str, dp, dn, name, off, hstr, hnone, hfree, hsh⟩
  refine ⟨i, hmade, fun later hsteps => ?_⟩
  -- the states stay sane, and each step keeps the target
  have hall : Run.allStates fsStep (fun u => Sane u ∧ ∃ n, Targets (tree u.vol) i tg n) s' later :=
    Run.allStates_of_allSteps (fun u a u' hu hl hstep => ⟨fsStep_sane hu.1 hstep, fsStep_target hu.1 hu.2 hl hstep⟩)
      later s' ⟨hret.sane hp, hmade.targets⟩ hsteps
  refine Run.allStates_mono (fun u hu => ?_) later s' hall
  obtain ⟨-, n, hn⟩ := hu
  exact hn.leadsTo htg

/-- A link that is opened itself, for writing and with `O_TRUNC`, and closed. -/
theorem link_keeps_target_opened : ∃ s x s', Run.run fsStep (start rootImage) [] = some s ∧ s.proc initSlot = some x ∧
    (program initSlot x (.symlink (some [97]) (some [108]))).run s = .ok (0, s') ∧
    ∃ i, MadeLink (tree s.vol) (s.vol.inode x.cwd).inum (some [108]) [97] i (tree s'.vol) ∧
      Run.allStates fsStep (fun u => LeadsTo (tree u.vol) i [97]) s'
        [(initSlot, .open (some [108]) 0xC01), (initSlot, .close 0)] := by
  obtain ⟨s, x, hs, hx, hp, hr0⟩ := holds_of_eval rootImage [] initSlot (fun s x => s.panic = none ∧
    ((program initSlot x (.symlink (some [97]) (some [108]))).run s).toOption.map Prod.fst = some 0) (by decide +kernel)
  obtain ⟨⟨r, s'⟩, hr, rfl⟩ := map_eq_some_iff.1 hr0
  have hrun := ok_of_toOption hr
  have harg : argstr (some [97]) = some [97] := by decide
  obtain ⟨i, hmade, hlater⟩ := link_keeps_target rootImage_consistent hs hp hx harg hrun
  refine ⟨s, x, s', hs, hx, hrun, i, hmade, hlater _ ?_⟩
  have hleaves : ∀ u, LeavesLink i u (initSlot, .open (some [108]) 0xC01) ∧ LeavesLink i u (initSlot, .close 0) :=
    fun u => ⟨fun _ _ => trivial, fun _ _ => trivial⟩
  constructor
  · exact (hleaves _).1
  split
  · trivial
  constructor
  · exact (hleaves _).2
  split
  · trivial
  · trivial

def linkWrite : List (Slot × Call) :=
  [(initSlot, .symlink (some [97]) (some [108])), (initSlot, .open (some [108]) 0x801), (initSlot, .write 0 [98] 1 0)]

/-- **The link leads to `b` then**, though it still has its name. -/
theorem link_target_overwritten : ∃ s1 s2, Run.run fsStep (start rootImage) (linkWrite.take 1) = some s1 ∧
    (tree s1.vol 2).map (fun n => (n.type, targetOf n)) = some (.symlink, [97]) ∧
    Run.run fsStep (start rootImage) linkWrite = some s2 ∧ s2.panic = none ∧
    look (tree s2.vol) rootino [108] false = .ok (some (2, [])) ∧
    (tree s2.vol 2).map (fun n => (n.type, targetOf n)) = some (.symlink, [98]) := by
  obtain ⟨s1, -, hs1, -, h1⟩ := holds_of_eval rootImage (linkWrite.take 1) initSlot (fun s _ =>
    (tree s.vol 2).map (fun n => (n.type, targetOf n)) = some (.symlink, [97])) (by decide +kernel)
  obtain ⟨s2, -, hs2, -, hp, hlook, h2⟩ := holds_of_eval rootImage linkWrite initSlot (fun s _ => s.panic = none ∧
    (look (tree s.vol) rootino [108] false).toOption = some (some (2, [])) ∧
    (tree s.vol 2).map (fun n => (n.type, targetOf n)) = some (.symlink, [98])) (by decide +kernel)
  exact ⟨s1, s2, hs1, h1, hs2, hp, ok_of_toOption hlook, h2⟩

end Xv6.Fs
