import Xv6.ItabModel
import Xv6.LibSum
/-!
# ItabInv — what the threads and the entries of the inode table keep

`Inv` says of every thread what holds where it stands, and of every entry that nobody is changing that it is what the disk
has. A thread's own steps touch one entry, which it has locked or which is unlocked (`Inv.own_step`); `iget`, `idup`, the
end of `iput` and the file table move references (`Inv.move`); `ialloc` writes an inode of type 0, which no valid entry
stands for (`Inv.mark`).
-/
namespace Xv6.Itab

open Function List
open Fs (Dinode IType Ip bsize)
variable {s : St} {t u : Slot} {i j : Ip} {f : Fid}

/-! ## The invariant -/

/-- The entry the thread is changing: its fields are not those of the disk. -/
def Changes : Pc → Ip → Prop
  | .write i _, j => j = i
  | .trunc i _ _, j => j = i
  | .iupdate i _, j => j = i
  | .clearType i, j => j = i
  | .clearValid i, j => j = i
  | _, _ => False

structure Held (s : St) (t : Slot) (i : Ip) : Prop where
  lock : (s.inode i).lock = some t
  valid : (s.inode i).valid = true
  type : (s.inode i).d.type ≠ .none
  disk : (s.disk (s.inode i).key).type ≠ .none

/-- What holds of the thread's entry where the thread stands. -/
def Stands (s : St) (t : Slot) : Pc → Prop
  | .idle => True
  | .iget _ _ => True
  | .load i => (s.inode i).lock = some t
  | .write i off => Held s t i ∧ ∀ bn, bn * bsize < max (s.inode i).d.size off → (s.inode i).d.addrs (addrOf bn) ≠ 0
  | .trunc i _ k => Held s t i ∧ k ≠ .clearValid ∧ (k = .clearType → 0 < s.own t i)
  | .iupdate i k => (s.inode i).lock = some t ∧ (s.inode i).valid = true ∧ (s.disk (s.inode i).key).type ≠ .none ∧
      Covered (s.inode i).d ∧ ((s.inode i).d.type = .none → k = .clearValid) ∧ (k ≠ .return → 0 < s.own t i)
  | .clearType i => Held s t i ∧ Covered (s.inode i).d ∧ 0 < s.own t i
  | .clearValid i => (s.inode i).lock = some t ∧ 0 < s.own t i
  | .drop i => 0 < s.own t i ∧ (s.inode i).lock ≠ some t

structure Clean (s : St) (i : Ip) : Prop where
  same : (s.inode i).d = s.disk (s.inode i).key
  type : (s.inode i).d.type ≠ .none

structure Inv (s : St) : Prop where
  one : ∀ i j, 0 < (s.inode i).ref → 0 < (s.inode j).ref → (s.inode i).key = (s.inode j).key → i = j
  count : ∀ i, (s.inode i).ref = holders s i
  files : ∀ f, (s.file f).ref = ((List.finRange nproc).map (fun t => s.fds t f)).sum
  locks : ∀ i t, (s.inode i).lock = some t → Reach s t i ∧ (s.pc t = .load i ∨ (s.inode i).valid = true)
  stands : ∀ t, Stands s t (s.pc t)
  clean : ∀ i, 0 < (s.inode i).ref → (s.inode i).valid = true → (∀ t, ¬ Changes (s.pc t) i) → Clean s i
  disk : ∀ k, (s.disk k).type ≠ .none → Covered (s.disk k)

theorem own_le_holders (s : St) (t : Slot) (i : Ip) : s.own t i ≤ holders s i := by
  obtain ⟨r, hr⟩ := Sum.exists_rest (fun t => s.own t i) (nodup_finRange nproc) (mem_finRange t)
  have := hr (fun t => s.own t i) (fun _ _ _ => rfl)
  unfold holders
  omega

theorem Inv.ref_pos (h : Inv s) (hr : Reach s t i) : 0 < (s.inode i).ref := by
  rw [h.count]
  rcases hr with ho | ⟨f, hf, hip⟩
  · have := own_le_holders s t i
    omega
  obtain ⟨r, hr⟩ := Sum.exists_rest (fun t => s.fds t f) (nodup_finRange nproc) (mem_finRange t)
  have hsum := hr (fun t => s.fds t f) (fun _ _ _ => rfl)
  have hpos : 0 < (s.file f).ref := by
    have := h.files f
    omega
  obtain ⟨r', hr'⟩ := Sum.exists_rest (fun f => if 0 < (s.file f).ref ∧ (s.file f).ip = i then 1 else 0)
    (nodup_finRange 100) (mem_finRange f)
  have hsum' := hr' (fun f => if 0 < (s.file f).ref ∧ (s.file f).ip = i then 1 else 0) (fun _ _ _ => rfl)
  rw [if_pos ⟨hpos, hip⟩] at hsum'
  unfold holders
  omega

theorem Inv.ref_of_lock (h : Inv s) (hl : (s.inode i).lock = some t) : 0 < (s.inode i).ref := h.ref_pos (h.locks i t hl).1

variable {c : Pc} {s' a b : St} {x : Inode}

theorem Stands.lock (h : Stands s t c) (hc : Changes c i) : (s.inode i).lock = some t := by
  cases c with
  | write j off => cases hc; exact h.1.lock
  | trunc j n k => cases hc; exact h.1.lock
  | iupdate j k => cases hc; exact h.1
  | clearType j => cases hc; exact h.1.lock
  | clearValid j => cases hc; exact h.1
  | _ => exact hc.elim

theorem Inv.clean_of_lock (h : Inv s) (hl : (s.inode i).lock = some t ∨ (s.inode i).lock = none)
    (hr : 0 < (s.inode i).ref) (hv : (s.inode i).valid = true) (hn : ¬ Changes (s.pc t) i) : Clean s i := by
  refine h.clean i hr hv (fun u hu => ?_)
  have hlu := (h.stands u).lock hu
  rcases hl with hl | hl
  · rw [hl] at hlu
    obtain rfl := Option.some.inj hlu
    exact hn hu
  · rw [hl] at hlu
    cases hlu

theorem Inv.held (h : Inv s) (hl : (s.inode i).lock = some t) (hpc : s.pc t = .idle) : Held s t i ∧ Clean s i := by
  have hv : (s.inode i).valid = true := by
    refine (h.locks i t hl).2.resolve_left (fun hload => ?_)
    rw [hpc] at hload
    cases hload
  have hc : Clean s i := h.clean_of_lock (.inl hl) (h.ref_of_lock hl) hv (by rw [hpc]; exact id)
  exact ⟨⟨hl, hv, hc.type, hc.same ▸ hc.type⟩, hc⟩

theorem Clean.covered (hc : Clean s i) (h : Inv s) : Covered (s.inode i).d := by
  rw [hc.same]
  exact h.disk _ (hc.same ▸ hc.type)

theorem Stands.congr (h : Stands s t c) (hin : ∀ i, (s.inode i).lock = some t → (s'.inode i).lock = (s.inode i).lock ∧
      (s'.inode i).valid = (s.inode i).valid ∧ (s'.inode i).d = (s.inode i).d ∧
      ((s.disk (s.inode i).key).type ≠ .none → s'.disk (s'.inode i).key = s.disk (s.inode i).key))
    (hback : ∀ i, (s'.inode i).lock = some t → (s.inode i).lock = some t) (hown : ∀ i, s.own t i ≤ s'.own t i) :
    Stands s' t c := by
  have hheld : ∀ {i}, Held s t i → Held s' t i := by
    intro i hh
    obtain ⟨hl, hv, hd, hk⟩ := hin i hh.lock
    exact ⟨hl.trans hh.lock, hv.trans hh.valid, hd ▸ hh.type, hk hh.disk ▸ hh.disk⟩
  cases c with
  | idle => trivial
  | iget dev inum => trivial
  | load i => exact (hin i h).1.trans h
  | write i off =>
    obtain ⟨-, -, hd, -⟩ := hin i h.1.lock
    exact ⟨hheld h.1, hd ▸ h.2⟩
  | trunc i n k => exact ⟨hheld h.1, h.2.1, fun hk => lt_of_lt_of_le (h.2.2 hk) (hown i)⟩
  | iupdate i k =>
    obtain ⟨h1, h2, h3, h4, h5, h6⟩ := h
    obtain ⟨hl, hv, hd, hk⟩ := hin i h1
    exact ⟨hl.trans h1, hv.trans h2, hk h3 ▸ h3, hd ▸ h4, hd ▸ h5, fun hne => lt_of_lt_of_le (h6 hne) (hown i)⟩
  | clearType i =>
    obtain ⟨-, -, hd, -⟩ := hin i h.1.lock
    exact ⟨hheld h.1, hd ▸ h.2.1, lt_of_lt_of_le h.2.2 (hown i)⟩
  | clearValid i => exact ⟨(hin i h.1).1.trans h.1, lt_of_lt_of_le h.2 (hown i)⟩
  | drop i => exact ⟨lt_of_lt_of_le h.1 (hown i), fun hl => h.2 (hback i hl)⟩

/-! ## A thread's own steps -/

theorem Inv.own_step {D : Nat × Nat → Dinode} (h : Inv s)
    (hfree : (s.inode i).lock = some t ∨ (s.inode i).lock = none) (href : 0 < (s.inode i).ref)
    (hkey : x.key = (s.inode i).key) (hxref : x.ref = (s.inode i).ref)
    (hlock : x.lock = none ∨ (x.lock = some t ∧ Reach s t i ∧ (c = .load i ∨ x.valid = true)))
    (hpc : ∀ j, Changes (s.pc t) j ∨ s.pc t = .load j → j = i) (hc : ∀ j, Changes c j → j = i)
    (hdisk : ∀ k, k ≠ (s.inode i).key → D k = s.disk k)
    (hcov : (D (s.inode i).key).type ≠ .none → Covered (D (s.inode i).key))
    (hst : Stands { s with inode := update s.inode i x, disk := D, pc := update s.pc t c } t c)
    (hclean : ¬ Changes c i → x.valid = true → x.d = D (s.inode i).key ∧ x.d.type ≠ .none) :
    Inv { s with inode := update s.inode i x, disk := D, pc := update s.pc t c } := by
  -- the other entries in use are other inodes
  have hother : ∀ j, j ≠ i → 0 < (s.inode j).ref → (s.inode j).key ≠ (s.inode i).key := by
    intro j hj hr hk
    exact hj (h.one j i hr href hk)
  have hkeys : ∀ j, (update s.inode i x j).key = (s.inode j).key ∧
      (update s.inode i x j).ref = (s.inode j).ref := by
    intro j
    by_cases e : j = i
    · rw [e, update_self]
      exact ⟨hkey, hxref⟩
    · rw [update_of_ne e]
      exact ⟨rfl, rfl⟩
  refine ⟨fun a b ha hb hk => ?_, fun a => ?_, h.files, fun a u hl => ?_, fun u => ?_, fun a ha hv hno => ?_, fun k hk => ?_⟩
  · rw [(hkeys a).2] at ha
    rw [(hkeys b).2] at hb
    rw [(hkeys a).1, (hkeys b).1] at hk
    exact h.one a b ha hb hk
  · rw [(hkeys a).2, h.count a]
    rfl
  · dsimp only at hl ⊢
    by_cases e : a = i
    · subst e
      rw [update_self] at hl ⊢
      rcases hlock with hn | ⟨hs, hr, hv⟩
      · rw [hn] at hl
        cases hl
      · rw [hs] at hl
        obtain rfl := Option.some.inj hl
        rw [update_self]
        exact ⟨hr, hv⟩
    · rw [update_of_ne e] at hl ⊢
      obtain ⟨hr, hv⟩ := h.locks a u hl
      refine ⟨hr, ?_⟩
      by_cases eu : u = t
      · subst eu
        exact .inr (hv.resolve_left (fun hload => e (hpc a (.inr hload))))
      · rw [update_of_ne eu]
        exact hv
  · dsimp only
    by_cases eu : u = t
    · subst eu
      rw [update_self]
      exact hst
    rw [update_of_ne eu]
    refine (h.stands u).congr (fun a hl => ?_) (fun a hl => ?_) (fun _ => le_refl _)
    · have e : a ≠ i := by
        rintro rfl
        rcases hfree with hl' | hl'
        · rw [hl] at hl'
          exact eu (Option.some.inj hl')
        · rw [hl] at hl'
          cases hl'
      dsimp only
      rw [update_of_ne e]
      exact ⟨rfl, rfl, rfl, fun _ => hdisk _ (hother a e (h.ref_of_lock hl))⟩
    · dsimp only at hl
      by_cases e : a = i
      · rw [e, update_self] at hl
        rcases hlock with hn | ⟨hs, -⟩
        · rw [hn] at hl
          cases hl
        · rw [hs] at hl
          exact absurd (Option.some.inj hl).symm eu
      · rw [update_of_ne e] at hl
        exact hl
  · dsimp only at hv hno
    by_cases e : a = i
    · subst e
      have hn : ¬ Changes c a := by
        have := hno t
        rw [update_self] at this
        exact this
      rw [update_self] at hv
      obtain ⟨hsame, htype⟩ := hclean hn hv
      constructor
      · dsimp only
        rw [update_self, hkey]
        exact hsame
      · dsimp only
        rw [update_self]
        exact htype
    · rw [(hkeys a).2] at ha
      rw [update_of_ne e] at hv
      have hold : Clean s a := by
        refine h.clean a ha hv (fun u hu => ?_)
        by_cases eu : u = t
        · subst eu
          exact e (hpc a (.inl hu))
        · have := hno u
          rw [update_of_ne eu] at this
          exact this hu
      constructor
      · dsimp only
        rw [update_of_ne e, hdisk _ (hother a e ha)]
        exact hold.same
      · dsimp only
        rw [update_of_ne e]
        exact hold.type
  · dsimp only at hk ⊢
    by_cases e : k = (s.inode i).key
    · subst e
      exact hcov hk
    · rw [hdisk k e] at hk ⊢
      exact h.disk k hk

theorem Inv.mark {dev inum : Nat} {type : IType} (h : Inv s) (hpc : s.pc t = .idle)
    (hfree : (s.disk (dev, inum)).type = .none) :
    Inv ((s.setDisk (dev, inum) (newInode type)).goto t (.iget dev inum)) := by
  have hdisk : ∀ k, (s.disk k).type ≠ .none → update s.disk (dev, inum) (newInode type) k = s.disk k := by
    intro k hk
    refine update_of_ne ?_ _ _
    rintro rfl
    exact hk hfree
  refine ⟨h.one, h.count, h.files, fun i u hl => ?_, fun u => ?_, fun i hr hv hno => ?_, fun k hk => ?_⟩
  · obtain ⟨hr, hv⟩ := h.locks i u hl
    refine ⟨hr, ?_⟩
    dsimp only [St.goto]
    by_cases eu : u = t
    · subst eu
      refine .inr (hv.resolve_left (fun hload => ?_))
      rw [hpc] at hload
      cases hload
    · rw [update_of_ne eu]
      exact hv
  · dsimp only [St.goto]
    by_cases eu : u = t
    · subst eu
      rw [update_self]
      trivial
    · rw [update_of_ne eu]
      exact (h.stands u).congr (fun i _ => ⟨rfl, rfl, rfl, hdisk _⟩) (fun _ hl => hl) (fun _ => le_refl _)
  · have hold : Clean s i := by
      refine h.clean i hr hv (fun u hu => ?_)
      by_cases eu : u = t
      · subst eu
        rw [hpc] at hu
        exact hu
      · have := hno u
        dsimp only [St.goto] at this
        rw [update_of_ne eu] at this
        exact this hu
    refine ⟨?_, hold.type⟩
    have hsame := hdisk _ (hold.same ▸ hold.type)
    exact hold.same.trans hsame.symm
  · dsimp only [St.goto, St.setDisk] at hk ⊢
    by_cases e : k = (dev, inum)
    · subst e
      intro bn hbn
      simp [newInode] at hbn
    · rw [update_of_ne e] at hk ⊢
      exact h.disk k hk

/-! ## References change hands -/

def ownSum (s : St) (i : Ip) : Nat := ((List.finRange nproc).map (fun t => s.own t i)).sum

def fileHold (x : File) (i : Ip) : Nat := if 0 < x.ref ∧ x.ip = i then 1 else 0

def fileSum (s : St) (i : Ip) : Nat := ((List.finRange 100).map (fun f => fileHold (s.file f) i)).sum

theorem holders_eq (s : St) (i : Ip) : holders s i = ownSum s i + fileSum s i := rfl

theorem ownSum_change (h : ∀ u, u ≠ t → b.own u i = a.own u i) : ownSum b i + a.own t i = ownSum a i + b.own t i :=
  Sum.sum_map_change (nodup_finRange nproc) (mem_finRange t) (fun u _ => h u)

theorem fileSum_change (h : ∀ g, g ≠ f → b.file g = a.file g) :
    fileSum b i + fileHold (a.file f) i = fileSum a i + fileHold (b.file f) i :=
  Sum.sum_map_change (f := fun g => fileHold (a.file g) i) (nodup_finRange 100) (mem_finRange f) (fun g _ hg => by rw [h g hg])

theorem fdsSum_change (h : ∀ u, u ≠ t → b.fds u f = a.fds u f) :
    ((List.finRange nproc).map (fun u => b.fds u f)).sum + a.fds t f =
      ((List.finRange nproc).map (fun u => a.fds u f)).sum + b.fds t f :=
  Sum.sum_map_change (nodup_finRange nproc) (mem_finRange t) (fun u _ => h u)

theorem Inv.move (h : Inv s) (hdisk : s'.disk = s.disk) (hpc : ∀ u, u ≠ t → s'.pc u = s.pc u)
    (hidle : s'.pc t = .idle) (hnot : (∀ j, ¬ Changes (s.pc t) j) ∧ ∀ j, s.pc t ≠ .load j)
    (hin : ∀ j, (s'.inode j).lock = (s.inode j).lock ∧ (((s'.inode j).key = (s.inode j).key ∧
      (s'.inode j).valid = (s.inode j).valid ∧ (s'.inode j).d = (s.inode j).d ∧
      (0 < (s'.inode j).ref → 0 < (s.inode j).ref)) ∨ ((s.inode j).ref = 0 ∧ (s'.inode j).valid = false)))
    (hown : ∀ u, u ≠ t → ∀ j, s.own u j ≤ s'.own u j) (hreach : ∀ j u, (s.inode j).lock = some u → Reach s' u j)
    (hone : ∀ a b, 0 < (s'.inode a).ref → 0 < (s'.inode b).ref → (s'.inode a).key = (s'.inode b).key → a = b)
    (hcount : ∀ j, (s'.inode j).ref = holders s' j)
    (hfiles : ∀ f, (s'.file f).ref = ((List.finRange nproc).map (fun t => s'.fds t f)).sum) : Inv s' := by
  -- an entry in use and locked is as it was
  have hlocked : ∀ j u, (s.inode j).lock = some u → (s'.inode j).key = (s.inode j).key ∧
      (s'.inode j).valid = (s.inode j).valid ∧ (s'.inode j).d = (s.inode j).d := by
    intro j u hl
    rcases (hin j).2 with ⟨hk, hv, hd, -⟩ | ⟨h0, -⟩
    · exact ⟨hk, hv, hd⟩
    · have := h.ref_of_lock hl
      omega
  refine ⟨hone, hcount, hfiles, fun j u hl => ?_, fun u => ?_, fun j hr hv hno => ?_, fun k hk => ?_⟩
  · rw [(hin j).1] at hl
    refine ⟨hreach j u hl, ?_⟩
    rw [(hlocked j u hl).2.1]
    have hold := (h.locks j u hl).2
    by_cases eu : u = t
    · subst eu
      exact .inr (hold.resolve_left (hnot.2 j))
    · rw [hpc u eu]
      exact hold
  · by_cases eu : u = t
    · subst eu
      rw [hidle]
      trivial
    · rw [hpc u eu]
      refine (h.stands u).congr (fun j hl => ?_) (fun j hl => by rw [← (hin j).1]; exact hl) (hown u eu)
      obtain ⟨hk, hv, hd⟩ := hlocked j u hl
      exact ⟨(hin j).1, hv, hd, fun _ => by rw [hdisk, hk]⟩
  · rcases (hin j).2 with ⟨hk, hv', hd, hr'⟩ | ⟨-, hv'⟩
    · have hold : Clean s j := by
        refine h.clean j (hr' hr) (hv' ▸ hv) (fun u hu => ?_)
        by_cases eu : u = t
        · subst eu
          exact hnot.1 j hu
        · have := hno u
          rw [hpc u eu] at this
          exact this hu
      exact ⟨by rw [hd, hdisk, hk]; exact hold.same, by rw [hd]; exact hold.type⟩
    · rw [hv'] at hv
      cases hv
  · rw [hdisk] at hk ⊢
    exact h.disk k hk

theorem Reach.mono (h : Reach s u j) (hown : s.own u j ≤ s'.own u j) (hfds : ∀ f, s.fds u f ≤ s'.fds u f)
    (hip : ∀ f, 0 < s.fds u f → (s'.file f).ip = (s.file f).ip) : Reach s' u j := by
  rcases h with ho | ⟨f, hf, hip'⟩
  · exact .inl (lt_of_lt_of_le ho hown)
  · exact .inr ⟨f, lt_of_lt_of_le hf (hfds f), (hip f hf).trans hip'⟩

theorem setOwn_own (s : St) (t u : Slot) (i j : Ip) (n : Nat) :
    (s.setOwn t i n).own u j = if u = t ∧ j = i then n else s.own u j := by
  unfold St.setOwn
  by_cases eu : u = t
  · subst eu
    by_cases ej : j = i
    · subst ej
      simp
    · simp [ej]
  · simp [eu]

theorem Inv.gain (h : Inv s) (hpc : (∀ j, ¬ Changes (s.pc t) j) ∧ ∀ j, s.pc t ≠ .load j)
    (hlock : x.lock = (s.inode i).lock) (href : x.ref = (s.inode i).ref + 1)
    (hx : (0 < (s.inode i).ref ∧ x.key = (s.inode i).key ∧ x.valid = (s.inode i).valid ∧ x.d = (s.inode i).d) ∨
      ((s.inode i).ref = 0 ∧ x.valid = false ∧ ∀ j, 0 < (s.inode j).ref → (s.inode j).key ≠ x.key)) :
    Inv (((s.setInode i x).setOwn u i (s.own u i + 1)).goto t .idle) := by
  have hat : ∀ j, (((s.setInode i x).setOwn u i (s.own u i + 1)).goto t .idle).inode j = if j = i then x else s.inode j := by
    intro j
    by_cases e : j = i
    · subst e
      simp [St.goto, St.setOwn, St.setInode]
    · simp [St.goto, St.setOwn, St.setInode, e]
  have hown : ∀ v j, s.own v j ≤ (((s.setInode i x).setOwn u i (s.own u i + 1)).goto t .idle).own v j := by
    intro v j
    change _ ≤ ((s.setInode i x).setOwn u i (s.own u i + 1)).own v j
    rw [setOwn_own]
    split
    · rename_i e
      rw [e.1, e.2]
      exact Nat.le_succ _
    · exact Nat.le_refl _
  refine h.move rfl (fun v hv => update_of_ne hv _ _) (update_self ..) hpc (fun j => ?_)
    (fun v _ => hown v) (fun j v hl => ?_) (fun a b ha hb hk => ?_) (fun j => ?_) h.files
  · rw [hat]
    split
    · rename_i e
      subst e
      refine ⟨hlock, ?_⟩
      rcases hx with ⟨hpos, hk, hv, hd⟩ | ⟨h0, hv, -⟩
      · exact .inl ⟨hk, hv, hd, fun _ => hpos⟩
      · exact .inr ⟨h0, hv⟩
    · exact ⟨rfl, .inl ⟨rfl, rfl, rfl, id⟩⟩
  · exact (h.locks j v hl).1.mono (hown v j) (fun _ => le_refl _) (fun _ _ => rfl)
  · have hnew : ∀ c, c ≠ i → 0 < (s.inode c).ref → (s.inode c).key ≠ x.key := by
      intro c hc hr hk'
      rcases hx with ⟨hpos, hkey, -, -⟩ | ⟨-, -, hno⟩
      · exact hc (h.one c i hr hpos (hk'.trans hkey))
      · exact hno c hr hk'
    rw [hat] at ha hb
    rw [hat, hat] at hk
    by_cases ea : a = i
    · by_cases eb : b = i
      · rw [ea, eb]
      · rw [if_neg eb] at hb
        rw [if_pos ea, if_neg eb] at hk
        exact absurd hk.symm (hnew b eb hb)
    · rw [if_neg ea] at ha
      by_cases eb : b = i
      · rw [if_neg ea, if_pos eb] at hk
        exact absurd hk (hnew a ea ha)
      · rw [if_neg eb] at hb
        rw [if_neg ea, if_neg eb] at hk
        exact h.one a b ha hb hk
  · have hsum := ownSum_change (t := u) (a := s)
      (b := ((s.setInode i x).setOwn u i (s.own u i + 1)).goto t .idle) (fun v hv => by
        change ((s.setInode i x).setOwn u i (s.own u i + 1)).own v j = _
        rw [setOwn_own, if_neg (fun e => hv e.1)]
        rfl)
    have hu : (((s.setInode i x).setOwn u i (s.own u i + 1)).goto t .idle).own u j =
        if j = i then s.own u i + 1 else s.own u j := by
      change ((s.setInode i x).setOwn u i (s.own u i + 1)).own u j = _
      rw [setOwn_own]
      simp only [true_and]
      rfl
    have hold := h.count j
    have hfile : fileSum (((s.setInode i x).setOwn u i (s.own u i + 1)).goto t .idle) j = fileSum s j := rfl
    rw [hu] at hsum
    rw [hat, holders_eq, hfile]
    rw [holders_eq] at hold
    by_cases e : j = i
    · subst e
      rw [if_pos rfl] at hsum
      rw [if_pos rfl, href]
      omega
    · rw [if_neg e] at hsum
      rw [if_neg e]
      omega

theorem Inv.lose (h : Inv s) (hpc : (∀ j, ¬ Changes (s.pc t) j) ∧ ∀ j, s.pc t ≠ .load j) (hown : 0 < s.own t i)
    (hlock : (s.inode i).lock ≠ some t) : Inv (dropRef s t i) := by
  have hat : ∀ j, (dropRef s t i).inode j =
      if j = i then { s.inode i with ref := (s.inode i).ref - 1 } else s.inode j := by
    intro j
    by_cases e : j = i
    · subst e
      simp [dropRef, St.goto, St.setOwn, St.setInode]
    · simp [dropRef, St.goto, St.setOwn, St.setInode, e]
  have hat' : ∀ v j, (dropRef s t i).own v j = if v = t ∧ j = i then s.own t i - 1 else s.own v j := by
    intro v j
    change ((s.setInode i _).setOwn t i (s.own t i - 1)).own v j = _
    rw [setOwn_own]
    rfl
  refine h.move rfl (fun v hv => update_of_ne hv _ _) (update_self ..) hpc (fun j => ?_)
    (fun v hv j => ?_) (fun j v hl => ?_) (fun a b ha hb hk => ?_) (fun j => ?_) h.files
  · rw [hat]
    split
    · rename_i e
      subst e
      refine ⟨rfl, .inl ⟨rfl, rfl, rfl, fun hpos => ?_⟩⟩
      dsimp only at hpos
      omega
    · exact ⟨rfl, .inl ⟨rfl, rfl, rfl, id⟩⟩
  · rw [hat', if_neg (fun e => hv e.1)]
  · refine (h.locks j v hl).1.mono ?_ (fun _ => le_refl _) (fun _ _ => rfl)
    rw [hat', if_neg]
    rintro ⟨rfl, rfl⟩
    exact hlock hl
  · have hkeys : ∀ c, ((dropRef s t i).inode c).key = (s.inode c).key ∧
        (0 < ((dropRef s t i).inode c).ref → 0 < (s.inode c).ref) := by
      intro c
      rw [hat]
      split
      · rename_i e
        subst e
        refine ⟨rfl, fun hpos => ?_⟩
        dsimp only at hpos
        omega
      · exact ⟨rfl, id⟩
    rw [(hkeys a).1, (hkeys b).1] at hk
    exact h.one a b ((hkeys a).2 ha) ((hkeys b).2 hb) hk
  · have hsum := ownSum_change (t := t) (i := j) (a := s) (fun v hv => by
      rw [hat', if_neg (fun e => hv e.1)])
    have hold := h.count j
    have hfile : fileSum (dropRef s t i) j = fileSum s j := rfl
    rw [hat'] at hsum
    rw [hat, holders_eq, hfile]
    rw [holders_eq] at hold
    by_cases e : j = i
    · subst e
      rw [if_pos ⟨rfl, rfl⟩] at hsum
      rw [if_pos rfl]
      dsimp only
      omega
    · rw [if_neg (fun e' => e e'.2)] at hsum
      rw [if_neg e]
      omega

theorem inv_iget {dev inum : Nat} (h : Inv s) (hpc : (∀ j, ¬ Changes (s.pc t) j) ∧ ∀ j, s.pc t ≠ .load j)
    (hs : iget s t dev inum = some s') : Inv s' := by
  unfold iget at hs
  split at hs
  · rename_i i hi
    have hfound : 0 < (s.inode i).ref ∧ (s.inode i).key = (dev, inum) := by simpa using find?_some hi
    cases hs
    exact h.gain hpc rfl rfl (.inl ⟨hfound.1, rfl, rfl, rfl⟩)
  rename_i hno
  rw [find?_eq_none] at hno
  split at hs
  · cases hs
  rename_i i hi
  have hzero : (s.inode i).ref = 0 := by simpa using find?_some hi
  cases hs
  refine h.gain hpc rfl (by rw [hzero]) (.inr ⟨hzero, rfl, fun j hr hk => ?_⟩)
  exact hno j (mem_finRange j) (by simpa using ⟨hr, hk⟩)

end Xv6.Itab
