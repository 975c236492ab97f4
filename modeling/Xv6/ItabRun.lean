import Xv6.ItabInv
/-!
# ItabRun — the inode table stays coherent

Every step of every thread keeps `Inv`: the file table's, those inside `writei`, `itrunc`, `iupdate` and `iput`, and what a
thread starts between them. The window of interest is in `iput`: the disk's inode is free before the entry is invalid, and
another process may allocate it and find the entry.
-/
namespace Xv6.Itab

open Function
open Fs (Dinode Ip bsize)
variable {s : St} {t u : Slot} {i j : Ip} {f : Fid}

/-! ## Open files -/

theorem idle_quiet (hpc : s.pc t = .idle) : (∀ j, ¬ Changes (s.pc t) j) ∧ ∀ j, s.pc t ≠ .load j := by
  rw [hpc]
  exact ⟨fun _ => id, fun _ => nofun⟩

theorem setFds_fds (s : St) (t u : Slot) (f g : Fid) (n : Nat) :
    (s.setFds t f n).fds u g = if u = t ∧ g = f then n else s.fds u g := by
  unfold St.setFds
  by_cases eu : u = t
  · subst eu
    by_cases eg : g = f
    · subst eg
      simp
    · simp [eg]
  · simp [eu]

section
variable (h : Inv s)
include h

theorem Inv.fds_le (t : Slot) (f : Fid) : s.fds t f ≤ (s.file f).ref := by
  obtain ⟨r, hr⟩ := Sum.exists_rest (fun t => s.fds t f) (List.nodup_finRange nproc) (List.mem_finRange t)
  have hsum := hr (fun t => s.fds t f) (fun _ _ _ => rfl)
  rw [h.files f, hsum]
  exact Nat.le_add_left _ _

variable {s' : St} {c : Pc} {d : Dinode} {a : Act}

theorem Inv.refile (hpc : s.pc t = .idle) (hpc' : s'.pc = s.pc) (hdisk : s'.disk = s.disk)
    (hinode : s'.inode = s.inode) (hfile : ∀ g, g ≠ f → s'.file g = s.file g)
    (hown : ∀ v, v ≠ t → ∀ j, s'.own v j = s.own v j) (hfds : ∀ v g, ¬ (v = u ∧ g = f) → s'.fds v g = s.fds v g)
    (hsum : (s'.file f).ref + s.fds u f = (s.file f).ref + s'.fds u f)
    (hhold : ∀ j, s'.own t j + fileHold (s'.file f) j = s.own t j + fileHold (s.file f) j)
    (hreach : ∀ j v, (s.inode j).lock = some v → Reach s' v j) : Inv s' := by
  refine h.move hdisk (fun v _ => by rw [hpc']) (by rw [hpc', hpc]) (idle_quiet hpc)
    (fun j => by rw [hinode]; exact ⟨rfl, .inl ⟨rfl, rfl, rfl, id⟩⟩) (fun v hv j => (hown v hv j).ge) hreach
    (by rw [hinode]; exact h.one) (fun j => ?_) (fun g => ?_)
  · have h1 := ownSum_change (fun v hv => hown v hv j)
    have h2 := fileSum_change (i := j) hfile
    have h3 := hhold j
    have hold := h.count j
    rw [holders_eq] at hold ⊢
    rw [hinode]
    omega
  · have hold := h.files g
    by_cases e : g = f
    · subst e
      have h1 := fdsSum_change (fun v hv => hfds v g (fun e => hv e.1))
      omega
    · rw [hfile g e, hold]
      exact Sum.sum_map_congr (fun v _ => (hfds v g (fun e' => e e'.2)).symm)

theorem inv_openFile (hpc : s.pc t = .idle) (ho : 0 < s.own t i) (hf : (s.file f).ref = 0) :
    Inv (((s.setFile f ⟨1, i⟩).setOwn t i (s.own t i - 1)).setFds t f (s.fds t f + 1)) := by
  have hnone : ∀ v, s.fds v f = 0 := fun v => by
    have := h.fds_le v f
    omega
  have hown : ∀ v j, (((s.setFile f ⟨1, i⟩).setOwn t i (s.own t i - 1)).setFds t f (s.fds t f + 1)).own v j =
      if v = t ∧ j = i then s.own t i - 1 else s.own v j := by
    intro v j
    change ((s.setFile f ⟨1, i⟩).setOwn t i (s.own t i - 1)).own v j = _
    rw [setOwn_own]
    rfl
  have hfds : ∀ v g, (((s.setFile f ⟨1, i⟩).setOwn t i (s.own t i - 1)).setFds t f (s.fds t f + 1)).fds v g =
      if v = t ∧ g = f then s.fds t f + 1 else s.fds v g := fun v g => setFds_fds _ t v f g _
  have hat : (((s.setFile f ⟨1, i⟩).setOwn t i (s.own t i - 1)).setFds t f (s.fds t f + 1)).file f = ⟨1, i⟩ :=
    update_self f _ s.file
  have hoff : ∀ g, g ≠ f →
      (((s.setFile f ⟨1, i⟩).setOwn t i (s.own t i - 1)).setFds t f (s.fds t f + 1)).file g = s.file g :=
    fun g hg => update_of_ne hg _ _
  refine h.refile (u := t) hpc rfl rfl rfl hoff (fun v hv j => ?_) (fun v g hn => ?_) ?_ (fun j => ?_)
    (fun j v hl => ?_)
  · rw [hown, if_neg (fun e => hv e.1)]
  · rw [hfds, if_neg hn]
  · rw [hat, hfds, if_pos ⟨rfl, rfl⟩, hf]
    dsimp only
    omega
  · rw [hat, hown]
    unfold fileHold
    rw [hf]
    by_cases e : j = i
    · subst e
      simp
      omega
    · simp [e, Ne.symm e]
  rcases (h.locks j v hl).1 with hv | ⟨g, hg, hip⟩
  · by_cases e : v = t ∧ j = i
    · refine .inr ⟨f, ?_, ?_⟩
      · rw [hfds, if_pos ⟨e.1, rfl⟩]
        omega
      · rw [hat]
        exact e.2.symm
    · left
      rw [hown, if_neg e]
      exact hv
  · have hgf : g ≠ f := by
      rintro rfl
      rw [hnone v] at hg
      omega
    refine .inr ⟨g, ?_, ?_⟩
    · rw [hfds, if_neg (fun e => hgf e.2)]
      exact hg
    · rw [hoff g hgf]
      exact hip

theorem inv_filedup (hpc : s.pc t = .idle) (hf : 0 < s.fds t f) :
    Inv ((s.setFile f { s.file f with ref := (s.file f).ref + 1 }).setFds u f (s.fds u f + 1)) := by
  have hpos : 0 < (s.file f).ref := lt_of_lt_of_le hf (h.fds_le t f)
  have hfds : ∀ v g, ((s.setFile f { s.file f with ref := (s.file f).ref + 1 }).setFds u f (s.fds u f + 1)).fds v g =
      if v = u ∧ g = f then s.fds u f + 1 else s.fds v g := fun v g => setFds_fds _ u v f g _
  have hat : ((s.setFile f { s.file f with ref := (s.file f).ref + 1 }).setFds u f (s.fds u f + 1)).file f =
      { s.file f with ref := (s.file f).ref + 1 } := update_self f _ s.file
  have hoff : ∀ g, g ≠ f →
      ((s.setFile f { s.file f with ref := (s.file f).ref + 1 }).setFds u f (s.fds u f + 1)).file g = s.file g :=
    fun g hg => update_of_ne hg _ _
  have hip : ∀ g, (((s.setFile f { s.file f with ref := (s.file f).ref + 1 }).setFds u f (s.fds u f + 1)).file g).ip =
      (s.file g).ip := by
    intro g
    by_cases e : g = f
    · subst e
      rw [hat]
    · rw [hoff g e]
  refine h.refile (t := t) (u := u) hpc rfl rfl rfl hoff (fun _ _ _ => rfl) (fun v g hn => ?_) ?_ (fun j => ?_)
    (fun j v hl => ?_)
  · rw [hfds, if_neg hn]
  · rw [hat, hfds, if_pos ⟨rfl, rfl⟩]
    dsimp only
    omega
  · rw [hat]
    unfold fileHold
    simp only [hpos, Nat.succ_pos]
    rfl
  · refine (h.locks j v hl).1.mono le_rfl (fun g => ?_) (fun g _ => hip g)
    rw [hfds]
    split
    · rename_i e
      rw [e.1, e.2]
      omega
    · exact le_refl _

theorem inv_fileclose (hpc : s.pc t = .idle) (hf : 0 < s.fds t f) (hno : ∀ i, (s.inode i).lock ≠ some t) :
    Inv (if (s.file f).ref - 1 = 0 then (closeFd s t f).setOwn t (s.file f).ip (s.own t (s.file f).ip + 1)
      else closeFd s t f) := by
  have hpos : 0 < (s.file f).ref := lt_of_lt_of_le hf (h.fds_le t f)
  have hfds : ∀ v g, (closeFd s t f).fds v g = if v = t ∧ g = f then s.fds t f - 1 else s.fds v g :=
    fun v g => setFds_fds _ t v f g _
  have hfdst : (closeFd s t f).fds t f = s.fds t f - 1 := by rw [hfds, if_pos ⟨rfl, rfl⟩]
  have hat : (closeFd s t f).file f = ⟨(s.file f).ref - 1, (s.file f).ip⟩ := update_self f _ s.file
  have hoff : ∀ g, g ≠ f → (closeFd s t f).file g = s.file g := fun g hg => update_of_ne hg _ _
  have hip : ∀ g, ((closeFd s t f).file g).ip = (s.file g).ip := by
    intro g
    by_cases e : g = f
    · rw [e, hat]
    · rw [hoff g e]
  -- the thread that closes has nothing locked, the others keep what they have
  have hkeep : ∀ {s' : St}, (∀ v, v ≠ t → ∀ j, s'.own v j = s.own v j) → s'.fds = (closeFd s t f).fds →
      s'.file = (closeFd s t f).file → ∀ j v, (s.inode j).lock = some v → Reach s' v j := by
    intro s' hown hf' hfile' j v hl
    have hv : v ≠ t := by
      rintro rfl
      exact hno j hl
    refine (h.locks j v hl).1.mono (hown v hv j).ge (fun g => ?_) (fun g _ => ?_)
    · rw [hf', hfds, if_neg (fun e => hv e.1)]
    · rw [hfile', hip]
  have hsum : ((closeFd s t f).file f).ref + s.fds t f = (s.file f).ref + (closeFd s t f).fds t f := by
    rw [hat, hfdst]
    dsimp only
    omega
  split
  · rename_i hlast
    have hown : ∀ v j, ((closeFd s t f).setOwn t (s.file f).ip (s.own t (s.file f).ip + 1)).own v j =
        if v = t ∧ j = (s.file f).ip then s.own t (s.file f).ip + 1 else s.own v j := by
      intro v j
      rw [setOwn_own]
      rfl
    have hothers : ∀ v, v ≠ t → ∀ j,
        ((closeFd s t f).setOwn t (s.file f).ip (s.own t (s.file f).ip + 1)).own v j = s.own v j := by
      intro v hv j
      rw [hown, if_neg (fun e => hv e.1)]
    refine h.refile (t := t) hpc rfl rfl rfl hoff hothers (fun v g hn => ?_) hsum (fun j => ?_)
      (hkeep hothers rfl rfl)
    · exact (hfds v g).trans (if_neg hn)
    -- the file's reference is now the thread's
    have hnew : fileHold ((closeFd s t f).file f) j = 0 := by
      rw [hat, hlast]
      exact if_neg (fun e => absurd e.1 (Nat.lt_irrefl 0))
    rw [hown]
    change _ + fileHold ((closeFd s t f).file f) j = _
    rw [hnew, fileHold]
    by_cases e : j = (s.file f).ip
    · rw [if_pos ⟨rfl, e⟩, if_pos ⟨hpos, e.symm⟩, e]
    · rw [if_neg (fun e' => e e'.2), if_neg (fun e' => e e'.2.symm)]
  · refine h.refile (t := t) (u := t) (f := f) hpc rfl rfl rfl hoff (fun _ _ _ => rfl) (fun v g hn => ?_) hsum (fun j => ?_)
      (hkeep (fun _ _ _ => rfl) rfl rfl)
    · rw [hfds, if_neg hn]
    · have hpos' : 0 < (s.file f).ref - 1 := by omega
      rw [hat, fileHold, fileHold]
      simp only [hpos, hpos', true_and]
      rfl

end

/-! ## The steps -/

theorem goto_self (h : s.pc t = c) : s.goto t c = s := by
  unfold St.goto
  rw [← h, update_eq_self]

theorem setInode_self {x : Inode} (h : s.inode i = x) : s.setInode i x = s := by
  unfold St.setInode
  rw [← h, update_eq_self]

theorem Inv.change (h : Inv s) (hl : (s.inode i).lock = some t)
    (hpc : ∀ j, Changes (s.pc t) j ∨ s.pc t = .load j → j = i) (hc : ∀ j, Changes c j → j = i)
    (hv : (s.inode i).valid = true) (hst : Stands ((s.setInode i { s.inode i with d := d }).goto t c) t c)
    (hclean : ¬ Changes c i → d = s.disk (s.inode i).key ∧ d.type ≠ .none) :
    Inv ((s.setInode i { s.inode i with d := d }).goto t c) :=
  h.own_step (.inl hl) (h.ref_of_lock hl) rfl rfl (.inr ⟨hl, (h.locks i t hl).1, .inr hv⟩) hpc hc (fun _ _ => rfl)
    (h.disk _) hst (fun hn _ => hclean hn)

theorem Inv.enter (h : Inv s) (hl : (s.inode i).lock = some t) (hpc : ∀ j, Changes (s.pc t) j ∨ s.pc t = .load j → j = i)
    (hc : ∀ j, Changes c j → j = i) (hv : (s.inode i).valid = true) (hst : Stands (s.goto t c) t c)
    (hclean : ¬ Changes c i → Clean s i) : Inv (s.goto t c) := by
  have hsame : s.setInode i { s.inode i with d := (s.inode i).d } = s := setInode_self rfl
  have h' := h.change hl hpc hc hv (by rw [hsame]; exact hst)
    (fun hn => ⟨(hclean hn).same, (hclean hn).type⟩)
  rw [hsame] at h'
  exact h'

theorem covered_edit (h : Covered d) (e : Edit) : Covered (e.apply d) ∧ (e.apply d).type = d.type := by
  cases e <;> exact ⟨h, rfl⟩

theorem covered_of_size_zero (h : d.size = 0) : Covered d := by
  intro bn hbn
  rw [h] at hbn
  exact absurd hbn (Nat.not_lt_zero _)

theorem bmapAddr_covered {bn b : Nat} (h : Covered d) (hbn : bn * bsize < d.size) : bmapAddr d bn b = d := by
  unfold bmapAddr
  rw [if_neg (h bn hbn)]

theorem bmapAddr_addrs {bn b a : Nat} (h : d.addrs a ≠ 0) : (bmapAddr d bn b).addrs a ≠ 0 := by
  unfold bmapAddr
  split
  · rename_i h0
    dsimp only
    rw [update_of_ne]
    · exact h
    · rintro rfl
      exact h h0
  · exact h

theorem bmapAddr_rest (d : Dinode) (bn b : Nat) : (bmapAddr d bn b).size = d.size ∧ (bmapAddr d bn b).type = d.type := by
  unfold bmapAddr
  split <;> exact ⟨rfl, rfl⟩

theorem inode_change (s : St) (t : Slot) (i : Ip) (x : Inode) (c : Pc) : ((s.setInode i x).goto t c).inode i = x := by
  exact update_self ..

theorem Held.change (h : Held s t i) (hd : d.type ≠ .none) :
    Held ((s.setInode i { s.inode i with d := d }).goto t c) t i := by
  have hin := inode_change s t i { s.inode i with d := d } c
  refine ⟨?_, ?_, ?_, ?_⟩ <;> rw [hin]
  · exact h.lock
  · exact h.valid
  · exact hd
  · exact h.disk

theorem only_of (hpc : s.pc t = c) (hc : ∀ j, Changes c j → j = i) (hl : ∀ j, c = .load j → j = i) :
    ∀ j, Changes (s.pc t) j ∨ s.pc t = .load j → j = i := by
  rw [hpc]
  exact fun j hj => hj.elim (hc j) (hl j)

section
variable (h : Inv s) {k : After}
include h

theorem inv_trunc {n : Nat} (hpc : s.pc t = .trunc i n k) (hs : advance s t = some s') : Inv s' := by
  have hst := h.stands t
  rw [hpc] at hst
  obtain ⟨hh, hk, hown⟩ := hst
  have honly := only_of hpc (fun _ hj => hj) (fun _ => nofun)
  unfold advance at hs
  rw [hpc] at hs
  dsimp only at hs
  split at hs
  · cases hs
    refine h.change hh.lock honly (fun _ hj => hj) hh.valid ⟨hh.change hh.type, hk, hown⟩ (fun hn => absurd rfl hn)
  cases hs
  refine h.change hh.lock honly (fun _ hj => hj) hh.valid ?_ (fun hn => absurd rfl hn)
  have hh' := hh.change (c := .iupdate i k) (d := { (s.inode i).d with size := 0 }) hh.type
  refine ⟨hh'.lock, hh'.valid, hh'.disk, ?_, fun hno => absurd hno hh'.type, fun hne => hown ?_⟩
  · rw [inode_change]
    exact covered_of_size_zero rfl
  · cases k
    · exact absurd rfl hne
    · rfl
    · exact absurd rfl hk

theorem Inv.flush (hl : (s.inode i).lock = some t)
    (hpc : ∀ j, Changes (s.pc t) j ∨ s.pc t = .load j → j = i) (hc : ∀ j, Changes c j → j = i)
    (hv : (s.inode i).valid = true) (hcov : Covered (s.inode i).d)
    (hst : Stands ((s.setDisk (s.inode i).key (s.inode i).d).goto t c) t c)
    (hclean : ¬ Changes c i → (s.inode i).d.type ≠ .none) : Inv ((s.setDisk (s.inode i).key (s.inode i).d).goto t c) := by
  have hself : (update s.disk (s.inode i).key (s.inode i).d) (s.inode i).key = (s.inode i).d :=
    update_self ..
  have hsame : update s.inode i (s.inode i) = s.inode := update_eq_self i s.inode
  have h' := h.own_step
    (.inl hl) (h.ref_of_lock hl) rfl rfl (.inr ⟨hl, (h.locks i t hl).1, .inr hv⟩) hpc hc
    (fun k hk => update_of_ne hk _ _) (fun _ => by rw [hself]; exact hcov) (by rw [hsame]; exact hst)
    (fun hn _ => ⟨hself.symm, hclean hn⟩)
  rw [hsame] at h'
  exact h'

theorem inv_iupdate (hpc : s.pc t = .iupdate i k) (hs : advance s t = some s') : Inv s' := by
  have hst := h.stands t
  rw [hpc] at hst
  obtain ⟨hl, hv, hd, hcov, htype, hown⟩ := hst
  have honly := only_of hpc (fun _ hj => hj) (fun _ => nofun)
  unfold advance at hs
  rw [hpc] at hs
  cases hs
  cases k with
  | «return» =>
    exact h.flush hl honly (fun _ hj => hj.elim) hv hcov trivial (fun _ hno => nomatch htype hno)
  | clearType =>
    have hno : (s.inode i).d.type ≠ .none := fun hno => nomatch htype hno
    have hself : (s.setDisk (s.inode i).key (s.inode i).d).disk (s.inode i).key = (s.inode i).d :=
      update_self ..
    exact h.flush hl honly (fun _ hj => hj) hv hcov ⟨⟨hl, hv, hno, fun he => hno (hself ▸ he)⟩, hcov, hown nofun⟩
      (fun hn => absurd rfl hn)
  | clearValid => exact h.flush hl honly (fun _ hj => hj) hv hcov ⟨hl, hown nofun⟩ (fun hn => absurd rfl hn)

theorem inv_load (hpc : s.pc t = .load i) (hs : load s t i = some s') : Inv s' := by
  have hl : (s.inode i).lock = some t := by
    have hst := h.stands t
    rw [hpc] at hst
    exact hst
  have honly := only_of hpc (fun _ hj => hj.elim) (fun j hj => by cases hj; rfl)
  unfold load at hs
  dsimp only at hs
  split at hs
  · rename_i hv
    cases hs
    exact h.enter hl honly (fun _ hj => hj.elim) hv trivial
      (fun _ => h.clean_of_lock (.inl hl) (h.ref_of_lock hl) hv (by rw [hpc]; exact id))
  · split at hs
    · cases hs
    rename_i htype
    cases hs
    exact h.own_step (.inl hl) (h.ref_of_lock hl)
      rfl rfl (.inr ⟨hl, (h.locks i t hl).1, .inr rfl⟩) honly (fun _ hj => hj.elim) (fun _ _ => rfl) (h.disk _) trivial
      (fun _ _ => ⟨rfl, htype⟩)

theorem inv_clearType (hpc : s.pc t = .clearType i) (hs : advance s t = some s') : Inv s' := by
  have hst := h.stands t
  rw [hpc] at hst
  obtain ⟨hh, hcov, hown⟩ := hst
  unfold advance at hs
  rw [hpc] at hs
  cases hs
  refine h.change hh.lock (only_of hpc (fun _ hj => hj) (fun _ => nofun)) (fun _ hj => hj) hh.valid ?_
    (fun hn => absurd rfl hn)
  have hin := inode_change s t i { s.inode i with d := { (s.inode i).d with type := .none } } (.iupdate i .clearValid)
  refine ⟨?_, ?_, ?_, ?_, fun _ => rfl, fun _ => hown⟩ <;> rw [hin]
  · exact hh.lock
  · exact hh.valid
  · exact hh.disk
  · exact hcov

theorem inv_clearValid (hpc : s.pc t = .clearValid i) (hs : advance s t = some s') : Inv s' := by
  have hst := h.stands t
  rw [hpc] at hst
  obtain ⟨hl, hown⟩ := hst
  unfold advance at hs
  rw [hpc] at hs
  cases hs
  have hin := inode_change s t i { s.inode i with valid := false, lock := none } (.drop i)
  refine h.own_step (.inl hl) (h.ref_of_lock hl) rfl rfl
    (.inl rfl) (only_of hpc (fun _ hj => hj) (fun _ => nofun)) (fun _ hj => hj.elim) (fun _ _ => rfl) (h.disk _)
    ⟨hown, fun hl' => ?_⟩ (fun _ => nofun)
  change (((s.setInode i { s.inode i with valid := false, lock := none }).goto t (.drop i)).inode i).lock = some t at hl'
  rw [hin] at hl'
  cases hl'

theorem inv_advance (hs : advance s t = some s') : Inv s' := by
  cases hpc : s.pc t with
  | idle =>
    rw [advance, hpc] at hs
    cases hs
  | iget dev inum =>
    rw [advance, hpc] at hs
    exact inv_iget h (by rw [hpc]; exact ⟨fun _ => id, fun _ => nofun⟩) hs
  | load i =>
    rw [advance, hpc] at hs
    exact inv_load h hpc hs
  | write i off =>
    rw [advance, hpc] at hs
    cases hs
  | trunc i j k => exact inv_trunc h hpc hs
  | iupdate i k => exact inv_iupdate h hpc hs
  | clearType i => exact inv_clearType h hpc hs
  | clearValid i => exact inv_clearValid h hpc hs
  | drop i =>
    have hst := h.stands t
    rw [hpc] at hst
    rw [advance, hpc] at hs
    cases hs
    exact h.lose (by rw [hpc]; exact ⟨fun _ => id, fun _ => nofun⟩) hst.1 hst.2

/-! ## The loop of `writei` -/

theorem inv_writeLoop {off : Nat} (hpc : s.pc a.thread = .write i off) (hs : writeLoop s i off a = some s') : Inv s' := by
  have hst := h.stands a.thread
  rw [hpc] at hst
  obtain ⟨hh, hcov⟩ := hst
  have honly := only_of hpc (fun _ hj => hj) (fun _ => nofun)
  cases a <;> simp only [writeLoop, reduceCtorEq, Option.ite_none_right_eq_some, Option.some.injEq] at hs
  case bmap t b =>
    obtain ⟨-, rfl⟩ := hs
    obtain ⟨hsize, htype⟩ := bmapAddr_rest (s.inode i).d (off / bsize) b
    rw [← goto_self (s := s.setInode i { s.inode i with d := bmapAddr (s.inode i).d (off / bsize) b }) hpc]
    refine h.change hh.lock honly (fun _ hj => hj) hh.valid ⟨hh.change (htype ▸ hh.type), fun bn hbn => ?_⟩
      (fun hn => absurd rfl hn)
    rw [inode_change] at hbn ⊢
    rw [hsize] at hbn
    exact bmapAddr_addrs (hcov bn hbn)
  case copied t m =>
    obtain ⟨⟨hne, hm, -⟩, rfl⟩ := hs
    refine h.enter hh.lock honly (fun _ hj => hj) hh.valid ⟨⟨hh.lock, hh.valid, hh.type, hh.disk⟩, fun bn hbn => ?_⟩
      (fun hn => absurd rfl hn)
    change bn * bsize < max (s.inode i).d.size (off + m) at hbn
    by_cases hlt : bn * bsize < max (s.inode i).d.size off
    · exact hcov bn hlt
    -- the block that has just been written
    have hbn' : bn = off / bsize := by
      unfold bsize at hbn hlt hm ⊢
      omega
    rw [hbn']
    exact hne
  case wrote t =>
    cases hs
    refine h.change hh.lock honly (fun _ hj => hj) hh.valid ?_ (fun hn => absurd rfl hn)
    have hh' := hh.change (c := .iupdate i .return)
      (d := { (s.inode i).d with size := max (s.inode i).d.size off }) hh.type
    refine ⟨hh'.lock, hh'.valid, hh'.disk, ?_, fun hno => absurd hno hh'.type, fun hne => absurd rfl hne⟩
    rw [inode_change]
    exact hcov

/-! ## What an idle thread starts -/

theorem inv_iput (hpc : s.pc t = .idle) (hown : 0 < s.own t i) (hl : (s.inode i).lock ≠ some t)
    (hs : iput s t i = some s') : Inv s' := by
  unfold iput at hs
  dsimp only at hs
  split at hs
  · rename_i hlast
    split at hs
    · rename_i hfree
      cases hs
      have hr := h.ref_pos (.inl hown)
      have hc := h.clean_of_lock (.inr hfree) hr hlast.2.1 (by rw [hpc]; exact id)
      have hin := inode_change s t i { s.inode i with lock := some t } (.trunc i 0 .clearType)
      refine h.own_step (.inr hfree) hr rfl rfl
        (.inr ⟨rfl, .inl hown, .inr hlast.2.1⟩) (only_of hpc (fun _ hj => hj.elim) (fun _ => nofun)) (fun _ hj => hj)
        (fun _ _ => rfl) (h.disk _) ⟨?_, nofun, fun _ => hown⟩ (fun hn => absurd rfl hn)
      change Held ((s.setInode i { s.inode i with lock := some t }).goto t (.trunc i 0 .clearType)) t i
      refine ⟨?_, ?_, ?_, ?_⟩ <;> rw [hin]
      · exact hlast.2.1
      · exact hc.type
      · exact hc.same ▸ hc.type
    · cases hs
  · cases hs
    exact h.lose (idle_quiet hpc) hown hl

theorem inv_ilock (hpc : s.pc t = .idle) (hr : Reach s t i) (hl : (s.inode i).lock = none) :
    Inv ((s.setInode i { s.inode i with lock := some t }).goto t (.load i)) := by
  have hin := inode_change s t i { s.inode i with lock := some t } (.load i)
  refine h.own_step (.inr hl) (h.ref_pos hr) rfl rfl
    (.inr ⟨rfl, hr, .inl rfl⟩) (only_of hpc (fun _ hj => hj.elim) (fun _ => nofun)) (fun _ hj => hj.elim)
    (fun _ _ => rfl) (h.disk _) ?_ (fun _ hv => ?_)
  · change (((s.setInode i { s.inode i with lock := some t }).goto t (.load i)).inode i).lock = some t
    rw [hin]
  · have hc := h.clean_of_lock (.inr hl) (h.ref_pos hr) hv (by rw [hpc]; exact id)
    exact ⟨hc.same, hc.type⟩

theorem inv_iunlock (hpc : s.pc t = .idle) (hl : (s.inode i).lock = some t) :
    Inv (s.setInode i { s.inode i with lock := none }) := by
  obtain ⟨hh, hc⟩ := h.held hl hpc
  have h' := h.own_step (x := { s.inode i with lock := none }) (c := .idle) (.inl hl) (h.ref_of_lock hl)
    rfl rfl (.inl rfl) (only_of hpc (fun _ hj => hj.elim) (fun _ => nofun)) (fun _ hj => hj.elim) (fun _ _ => rfl)
    (h.disk _) trivial (fun _ _ => ⟨hc.same, hc.type⟩)
  have hsame : (s.setInode i { s.inode i with lock := none }).goto t .idle = s.setInode i { s.inode i with lock := none } :=
    goto_self hpc
  rw [← hsame]
  exact h'

theorem inv_start (hpc : s.pc a.thread = .idle) (hs : start s a = some s') : Inv s' := by
  have honly : ∀ i j, Changes (s.pc a.thread) j ∨ s.pc a.thread = .load j → j = i :=
    fun i => only_of hpc (fun _ hj => hj.elim) (fun _ => nofun)
  cases a <;> simp only [start, reduceCtorEq, Option.ite_none_right_eq_some, Option.some.injEq] at hs
  case iget t dev inum => exact inv_iget h (idle_quiet hpc) hs
  case idup t i u =>
    obtain ⟨hown, rfl⟩ := hs
    have hr := h.ref_pos (.inl hown)
    have h' := h.gain (t := t) (u := u) (x := { s.inode i with ref := (s.inode i).ref + 1 }) (idle_quiet hpc) rfl rfl
      (.inl ⟨hr, rfl, rfl, rfl⟩)
    have hsame : ((s.setInode i { s.inode i with ref := (s.inode i).ref + 1 }).setOwn u i (s.own u i + 1)).goto t .idle =
        (s.setInode i { s.inode i with ref := (s.inode i).ref + 1 }).setOwn u i (s.own u i + 1) := goto_self hpc
    rw [hsame] at h'
    exact h'
  case ialloc t dev inum type =>
    obtain ⟨⟨hfree, -⟩, rfl⟩ := hs
    exact h.mark hpc hfree
  case ilock t i =>
    obtain ⟨⟨hr, hl⟩, rfl⟩ := hs
    exact inv_ilock h hpc hr hl
  case iunlock t i =>
    obtain ⟨hl, rfl⟩ := hs
    exact inv_iunlock h hpc hl
  case edit t i e =>
    obtain ⟨hl, rfl⟩ := hs
    obtain ⟨hh, hc⟩ := h.held hl hpc
    obtain ⟨hcov, htype⟩ := covered_edit (hc.covered h) e
    have hh' := hh.change (c := .iupdate i .return) (htype ▸ hh.type)
    refine h.change hl (honly i) (fun _ hj => hj) hh.valid ?_ (fun hn => absurd rfl hn)
    refine ⟨hh'.lock, hh'.valid, hh'.disk, ?_, fun hno => absurd hno hh'.type, fun hne => absurd rfl hne⟩
    rw [inode_change]
    exact hcov
  case readi t i bn b =>
    obtain ⟨⟨hl, hbn⟩, rfl⟩ := hs
    obtain ⟨-, hc⟩ := h.held hl hpc
    rw [bmapAddr_covered (hc.covered h) hbn, setInode_self rfl]
    exact h
  case writei t i off =>
    obtain ⟨⟨hl, hoff⟩, rfl⟩ := hs
    obtain ⟨hh, hc⟩ := h.held hl hpc
    refine h.enter hl (honly i) (fun _ hj => hj) hh.valid ⟨⟨hh.lock, hh.valid, hh.type, hh.disk⟩, fun bn hbn => ?_⟩
      (fun hn => absurd rfl hn)
    change bn * bsize < max (s.inode i).d.size off at hbn
    rw [max_eq_left hoff] at hbn
    exact hc.covered h bn hbn
  case itrunc t i =>
    obtain ⟨hl, rfl⟩ := hs
    obtain ⟨hh, -⟩ := h.held hl hpc
    exact h.enter hl (honly i) (fun _ hj => hj) hh.valid ⟨⟨hh.lock, hh.valid, hh.type, hh.disk⟩, nofun, nofun⟩
      (fun hn => absurd rfl hn)
  case iput t i =>
    obtain ⟨⟨hown, hl⟩, hs⟩ := hs
    exact inv_iput h hpc hown hl hs
  case openFile t i f =>
    obtain ⟨⟨hown, hf⟩, rfl⟩ := hs
    exact inv_openFile h hpc hown hf
  case filedup t f u =>
    obtain ⟨hf, rfl⟩ := hs
    exact inv_filedup h hpc hf
  case fileclose t f =>
    obtain ⟨⟨hf, hno⟩, rfl⟩ := hs
    exact inv_fileclose h hpc hf hno

theorem inv_step (hs : step s a = some s') : Inv s' := by
  unfold step at hs
  split at hs
  · rename_i hpc
    exact inv_start h hpc hs
  · rename_i i off hpc
    exact inv_writeLoop h hpc hs
  · split at hs
    · exact inv_advance h hs
    · cases hs

end

theorem inv_boot {disk : Nat × Nat → Dinode} (h : ∀ k, (disk k).type ≠ .none → Covered (disk k)) : Inv (boot disk) := by
  have hzero : ∀ i, holders (boot disk) i = 0 := by
    intro i
    have hown : ownSum (boot disk) i = 0 := Sum.sum_map_zero (fun _ _ => rfl)
    have hfile : fileSum (boot disk) i = 0 :=
      Sum.sum_map_zero (fun _ _ => if_neg (fun e => absurd e.1 (lt_irrefl 0)))
    rw [holders_eq, hown, hfile]
  have hfds : ∀ f, ((boot disk).file f).ref = ((List.finRange nproc).map (fun t => (boot disk).fds t f)).sum :=
    fun f => (Sum.sum_map_zero (fun _ _ => rfl)).symm
  exact ⟨fun i j hi => absurd hi (lt_irrefl 0), fun i => (hzero i).symm, hfds, fun _ _ => nofun, fun _ => trivial,
    fun i hr => absurd hr (lt_irrefl 0), h⟩

theorem coherent_of_inv (h : Inv s) : Coherent s := by
  refine ⟨h.one, fun i _ => h.count i, fun i hr hv hl => ?_⟩
  exact (h.clean i hr hv (fun t ht => by
    have hl' := (h.stands t).lock ht
    rw [hl] at hl'
    cases hl')).same

/-- **The inode table is coherent** in every state of every interleaving, on any disk without unallocated indices below
the size of an inode. -/
theorem itable_coherent (disk : Nat × Nat → Dinode) (h : ∀ k, (disk k).type ≠ .none → Covered (disk k)) (as : List Act) :
    Run.allStates step Coherent (boot disk) as :=
  Run.allStates_mono (fun _ => coherent_of_inv) as (boot disk)
    (Run.allStates_of_allSteps (fun _ _ _ hI _ => inv_step hI) as (boot disk) (inv_boot h)
      (Run.allSteps_true as (boot disk)))

def orphanDisk : Nat × Nat → Dinode := fun k => if k = (1, 2) then newInode .file else newInode .none

section

local instance fifty : NeZero 50 := ⟨by decide⟩

/-- `p` drops the last reference to the orphan; while it frees the inode, `q` allocates it and finds the same entry. -/
def reuseRun (p q : Slot) : List Act :=
  [.iget p 1 2, .ilock p 0, .advance p, .iunlock p 0, .iput p 0] ++ List.replicate 17 (.advance p) ++
  [.ialloc q 1 2 .file, .advance q, .advance p, .ilock q 0, .advance q, .advance p, .edit q 0 (.createInode 0 0), .advance q,
    .iunlock q 0, .iput q 0]

end

theorem itable_coherent_reuse :
    (Run.run step (boot orphanDisk) (reuseRun initSlot ⟨1, by decide⟩)).isSome = true ∧
    Run.allStates step Coherent (boot orphanDisk) (reuseRun initSlot ⟨1, by decide⟩) := by
  refine ⟨by decide +kernel, itable_coherent orphanDisk (fun k _ => ?_) _⟩
  unfold orphanDisk
  split <;> exact covered_of_size_zero rfl

end Xv6.Itab
