import Xv6.FsOp
/-!
# FsRes — the file table, descriptors and pipes

What a system holds: the working directories `C` and the open files reference inodes, the descriptors `U` reference files, and
the
files of a pipe keep its ends open (`Res`). A function of the file table says what it adds to these and what it takes away.
-/
namespace Xv6.Fs

open Function Multiset Wp
variable {s : FsState} {C R C' : Multiset Ip} {U U' : Multiset Fp} {F : Panic → Prop}

/-! ## References -/

def fileRef (x : File) : Multiset Ip :=
  match x.type with
  | .inode | .device => {x.ip}
  | .none | .pipe => 0

def fileIps (ftable : Fp → File) : Multiset Ip := (files.map (fun f => fileRef (ftable f))).sum

theorem mem_files (f : Fp) : f ∈ files := List.mem_finRange f

theorem nodup_files : files.Nodup := List.nodup_finRange 100

theorem fileIps_update (ftable : Fp → File) (f : Fp) (x : File) :
    fileIps (update ftable f x) + fileRef (ftable f) = fileIps ftable + fileRef x := by
  have h := Sum.sum_map_change (g := fun g => fileRef (update ftable f x g)) nodup_files
    (mem_files f) (fun g _ hne => by rw [update_of_ne hne])
  rwa [update_self] at h

variable {f : Fp} {x : File} {ftable ftable' : Fp → File}

theorem fileIps_same (h : fileRef x = fileRef (ftable f)) : fileIps (update ftable f x) = fileIps ftable := by
  have he := fileIps_update ftable f x
  rw [h] at he
  exact add_right_cancel he

theorem mem_fileIps (h : (ftable f).type = .inode ∨ (ftable f).type = .device) : (ftable f).ip ∈ fileIps ftable := by
  refine Sum.mem_sum_map.2 ⟨f, mem_files f, ?_⟩
  unfold fileRef
  rcases h with h | h
  · rw [h]
    exact Multiset.mem_singleton_self _
  · rw [h]
    exact Multiset.mem_singleton_self _

/-- The inode of an open file is in the table; a file open for writing is no directory. -/
def Opened (v : Vol) (x : File) : Prop :=
  x.type = .inode ∨ x.type = .device → (v.inode x.ip).valid = true ∧ (x.writable = true → (v.inode x.ip).din.type ≠ .dir)

/-! ## Pipes -/

def Pipe.isOpen (x : Pipe) (writable : Bool) : Bool := if writable then x.writeopen else x.readopen

def IsEnd (x : File) (i : Nat) (writable : Bool) : Prop := x.type = .pipe ∧ x.pipe = i ∧ x.writable = writable

/-- **An end of a pipe is open as long as a file is that end**, and the page is there as long as an end is open. -/
structure Pipes (ftable : Fp → File) (pipe : Nat → Pipe) (npipe : Nat) : Prop where
  lt : ∀ f, (ftable f).type = .pipe → (ftable f).pipe < npipe
  once : ∀ f g i w, IsEnd (ftable f) i w → IsEnd (ftable g) i w → f = g
  ends : ∀ i < npipe, ∀ w, (pipe i).isOpen w = true ↔ ∃ f, IsEnd (ftable f) i w
  page : ∀ i < npipe, (pipe i).page = ((pipe i).readopen || (pipe i).writeopen)

variable {npipe i : Nat} {v' v : Vol} {Q : PUnit → FsState → Prop} {p : Slot}

theorem Pipes.update {pipe : Nat → Pipe} (h : Pipes ftable pipe npipe)
    (hx : ∀ i w, IsEnd x i w ↔ IsEnd (ftable f) i w) : Pipes (Function.update ftable f x) pipe npipe := by
  have hend : ∀ g i w, IsEnd (Function.update ftable f x g) i w ↔ IsEnd (ftable g) i w := fun g i w => by
    by_cases e : g = f
    · rw [e, update_self]
      exact hx i w
    · rw [update_of_ne e]
  refine ⟨fun g hg => ?_, fun g g' i w hg hg' => h.once g g' i w ((hend g i w).1 hg) ((hend g' i w).1 hg'),
    fun i hi w => ?_, h.page⟩
  · obtain ⟨ht, hp, -⟩ := (hend g _ _).1 ⟨hg, rfl, rfl⟩
    rw [← hp]
    exact h.lt g ht
  · rw [h.ends i hi w]
    simp [hend]

theorem Pipe.isOpen_close (x : Pipe) (w w' : Bool) : (x.close w).isOpen w' = (x.isOpen w' && decide (w' ≠ w)) := by
  unfold Pipe.close Pipe.isOpen
  cases w <;> cases w' <;> simp

theorem Pipes.close {pipe : Nat → Pipe} {w : Bool}
    (h : Pipes ftable pipe npipe) (hf : IsEnd (ftable f) i w) (hx : x.type ≠ .pipe) :
    Pipes (Function.update ftable f x) (Function.update pipe i ((pipe i).close w)) npipe := by
  have hend : ∀ g j w', IsEnd (Function.update ftable f x g) j w' ↔ IsEnd (ftable g) j w' ∧ g ≠ f := fun g j w' => by
    by_cases e : g = f
    · rw [e, update_self]
      exact ⟨fun hh => absurd hh.1 hx, fun hh => absurd rfl hh.2⟩
    · rw [update_of_ne e]
      exact ⟨fun hh => ⟨hh, e⟩, fun hh => hh.1⟩
  constructor
  · intro g hg
    obtain ⟨⟨ht, hp, -⟩, -⟩ := (hend g _ _).1 ⟨hg, rfl, rfl⟩
    rw [← hp]
    exact h.lt g ht
  · intro g g' j w' hg hg'
    exact h.once g g' j w' ((hend g j w').1 hg).1 ((hend g' j w').1 hg').1
  · intro j hj w'
    simp only [hend]
    by_cases e : j = i
    · subst e
      rw [update_self, Pipe.isOpen_close, Bool.and_eq_true, h.ends j hj w', decide_eq_true_eq]
      constructor
      · rintro ⟨⟨g, hg⟩, hw⟩
        refine ⟨g, hg, fun hgf => hw ?_⟩
        rw [← hg.2.2, hgf]
        exact hf.2.2
      · rintro ⟨g, hg, hgf⟩
        refine ⟨⟨g, hg⟩, fun hw => hgf (h.once g f j w ?_ hf)⟩
        rw [← hw]
        exact hg
    · rw [update_of_ne e, h.ends j hj w']
      constructor
      · rintro ⟨g, hg⟩
        refine ⟨g, hg, fun hgf => e ?_⟩
        rw [← hg.2.1, hgf]
        exact hf.2.1
      · rintro ⟨g, hg, -⟩
        exact ⟨g, hg⟩
  · intro j hj
    by_cases e : j = i
    · subst e
      have hp := h.page j hj
      rw [update_self]
      unfold Pipe.close
      rw [hp]
      cases w <;> cases (pipe j).readopen <;> cases (pipe j).writeopen <;> rfl
    · rw [update_of_ne e]
      exact h.page j hj

theorem Pipes.add {pipe : Nat → Pipe} (f0 f1 : Fp) (h : Pipes ftable pipe npipe) (hends : ∀ g i w, IsEnd (ftable' g) i w ↔
      g = f0 ∧ i = npipe ∧ w = false ∨ g = f1 ∧ i = npipe ∧ w = true ∨ IsEnd (ftable g) i w) :
    Pipes ftable' (Function.update pipe npipe ⟨true, true, true⟩) (npipe + 1) := by
  have hold : ∀ g i w, IsEnd (ftable g) i w → i < npipe := fun g i w hg => hg.2.1 ▸ h.lt g hg.1
  constructor
  · intro g hg
    rcases (hends g _ _).1 ⟨hg, rfl, rfl⟩ with ⟨-, hi, -⟩ | ⟨-, hi, -⟩ | hg
    · omega
    · omega
    · have := hold g _ _ hg
      omega
  · intro g g' i w hg hg'
    rcases (hends g i w).1 hg with ⟨rfl, hi, rfl⟩ | ⟨rfl, hi, rfl⟩ | hg
    · rcases (hends g' i _).1 hg' with ⟨rfl, -, -⟩ | ⟨-, -, hw⟩ | hg'
      · rfl
      · cases hw
      · exact absurd (hold g' i _ hg') (by omega)
    · rcases (hends g' i _).1 hg' with ⟨-, -, hw⟩ | ⟨rfl, -, -⟩ | hg'
      · cases hw
      · rfl
      · exact absurd (hold g' i _ hg') (by omega)
    · have hlt := hold g i w hg
      rcases (hends g' i w).1 hg' with ⟨-, hi, -⟩ | ⟨-, hi, -⟩ | hg'
      · omega
      · omega
      · exact h.once g g' i w hg hg'
  · intro i hi w
    simp only [hends]
    by_cases e : i = npipe
    · subst e
      rw [update_self]
      cases w
      · exact ⟨fun _ => ⟨f0, .inl ⟨rfl, rfl, rfl⟩⟩, fun _ => rfl⟩
      · exact ⟨fun _ => ⟨f1, .inr (.inl ⟨rfl, rfl, rfl⟩)⟩, fun _ => rfl⟩
    · rw [update_of_ne e, h.ends i (by omega) w]
      simp [e]
  · intro i hi
    by_cases e : i = npipe
    · rw [e, update_self]
      rfl
    · rw [update_of_ne e]
      exact h.page i (by omega)

/-! ## The system -/

/-- **What the system holds** between two calls, when the working directories are `C` and the descriptors `U`. -/
structure Res (s : FsState) (C : Multiset Ip) (U : Multiset Fp) : Prop where
  mid : Mid s.vol (C + fileIps s.ftable) []
  base : Base s.vol (C + fileIps s.ftable)
  idle : Idle s.vol
  files : ∀ f, (s.ftable f).ref = U.count f
  typed : ∀ f, (s.ftable f).type = .none ↔ (s.ftable f).ref = 0
  opened : ∀ f, Opened s.vol (s.ftable f)
  pipes : Pipes s.ftable s.pipe s.npipe

theorem wp_onVol {α : Type} {m : FM α} {Q : α → FsState → Prop} :
    wp (onVol m) Q F s ↔ wp m (fun a v => Q a { s with vol := v }) F s.vol := by
  unfold wp onVol
  simp only [StateT.run]
  cases m s.vol with
  | ok r => rfl
  | error e => rfl

theorem Did.opened (h : Did R v v') (ho : Opened v x)
    (hm : x.type = .inode ∨ x.type = .device → x.ip ∈ R) : Opened v' x := by
  intro ht
  obtain ⟨h1, h2⟩ := ho ht
  obtain ⟨h3, h4⟩ := h.valid x.ip (hm ht) h1
  exact ⟨h3, fun hw => by rw [h4]; exact h2 hw⟩

theorem Res.move (h : Res s C U) (hm : Mid v' (C' + fileIps s.ftable) [])
    (hb : Base v' (C' + fileIps s.ftable)) (hi : Idle v') (hd : Did (fileIps s.ftable) s.vol v') :
    Res { s with vol := v' } C' U :=
  ⟨hm, hb, hi, h.files, h.typed, fun f => hd.opened (h.opened f) mem_fileIps, h.pipes⟩

theorem Res.vol (h : Res s C U) (hm : Mid v' (C + fileIps s.ftable) []) (hb : Base v' (C + fileIps s.ftable))
    (hi : Idle v') (hd : Did (C + fileIps s.ftable) s.vol v') : Res { s with vol := v' } C U :=
  h.move hm hb hi (hd.mono (Multiset.le_add_left _ _))

/-! ## `file.c` -/

@[simp] theorem wp_setFile : wp (setFile f x) Q F s ↔ Q ⟨⟩ { s with ftable := update s.ftable f x } := Iff.rfl

@[simp] theorem wp_setProc {x : Option Proc} :
    wp (setProc p x) Q F s ↔ Q ⟨⟩ { s with proc := update s.proc p x } := Iff.rfl

theorem wp_filealloc {Q : Option Fp → FsState → Prop} (hnone : Q none s)
    (hsome : ∀ f, (s.ftable f).ref = 0 → Q (some f) { s with ftable := update s.ftable f { s.ftable f with ref := 1 } }) :
    wp filealloc Q F s := by
  unfold filealloc
  rw [wp_bind, wp_get]
  split
  · exact hnone
  · rename_i f hf
    have hp := List.find?_some hf
    rw [decide_eq_true_eq] at hp
    exact hsome f hp

theorem Res.recount (h : Res s C U)
    (hx : x = { s.ftable f with ref := x.ref, off := x.off }) (h0 : x.ref = 0 ↔ (s.ftable f).ref = 0)
    (href : ∀ g, (update s.ftable f x g).ref = U'.count g) : Res { s with ftable := update s.ftable f x } C U' := by
  have hips : fileIps (update s.ftable f x) = fileIps s.ftable := fileIps_same (by rw [hx]; rfl)
  refine ⟨?_, ?_, h.idle, href, fun g => ?_, fun g => ?_, h.pipes.update (fun i w => by rw [hx]; exact Iff.rfl)⟩
  · rw [hips]
    exact h.mid
  · rw [hips]
    exact h.base
  · by_cases e : g = f
    · subst e
      dsimp only
      rw [update_self, h0, ← h.typed g, hx]
    · dsimp only
      rw [update_of_ne e]
      exact h.typed g
  · by_cases e : g = f
    · subst e
      dsimp only
      rw [update_self, hx]
      exact h.opened g
    · dsimp only
      rw [update_of_ne e]
      exact h.opened g

theorem ref_pos (h : Res s C U) (hf : f ∈ U) : 0 < (s.ftable f).ref := by
  rw [h.files f]
  exact count_pos.2 hf

theorem filedup_spec (h : Res s C U) (hf : f ∈ U) :
    wp (filedup f) (fun _ s' => Res s' C (f ::ₘ U) ∧ s'.vol = s.vol ∧ s'.proc = s.proc ∧ s'.panic = s.panic) F s := by
  have hpos := ref_pos h hf
  unfold filedup
  rw [wp_bind, wp_get, if_neg (by omega), wp_setFile]
  refine ⟨h.recount rfl ⟨fun e => (by cases e), fun e => (by omega)⟩ (fun g => ?_), rfl, rfl, rfl⟩
  by_cases e : g = f
  · subst e
    rw [update_self, count_cons_self, ← h.files g]
  · rw [update_of_ne e, count_cons_of_ne e]
    exact h.files g

theorem Res.drop {pipe' : Nat → Pipe} (h : Res s C (f ::ₘ U)) (hf : f ∉ U)
    (hm : Mid v' (C + fileIps (update s.ftable f { s.ftable f with ref := 0, type := .none })) [])
    (hb : Base v' (C + fileIps (update s.ftable f { s.ftable f with ref := 0, type := .none })))
    (hi : Idle v') (hd : Did (C + fileIps (update s.ftable f { s.ftable f with ref := 0, type := .none })) s.vol v')
    (hp : Pipes (update s.ftable f { s.ftable f with ref := 0, type := .none }) pipe' s.npipe) :
    Res { s with vol := v', ftable := update s.ftable f { s.ftable f with ref := 0, type := .none }, pipe := pipe' } C U := by
  refine ⟨hm, hb, hi, fun g => ?_, fun g => ?_, fun g => ?_, hp⟩
  · by_cases e : g = f
    · subst e
      dsimp only
      rw [update_self, Multiset.count_eq_zero_of_notMem hf]
    · dsimp only
      rw [update_of_ne e, h.files g, count_cons_of_ne e]
  · by_cases e : g = f
    · subst e
      simp [update_self]
    · simp only [update_of_ne e]
      exact h.typed g
  · refine hd.opened ?_ (fun ht => mem_add.2 (.inr (mem_fileIps ht)))
    by_cases e : g = f
    · subst e
      simp only [update_self]
      rintro (ht | ht)
      · cases ht
      · cases ht
    · simp only [update_of_ne e]
      exact h.opened g

theorem fileclose_spec (h : Res s C (f ::ₘ U)) : wp (fileclose f) (fun _ s' => Res s' C U ∧ Did C s.vol s'.vol ∧
    Shrinks (tree s.vol) (tree s'.vol) ∧ s'.proc = s.proc ∧ s'.panic = s.panic) F s := by
  have href := h.files f
  rw [count_cons_self] at href
  unfold fileclose
  rw [wp_bind, wp_get, if_neg (by omega)]
  apply wp_ite
  · intro hlt
    refine ⟨h.recount rfl ⟨fun e => by dsimp only at e; omega, fun e => by omega⟩ (fun g => ?_), Did.refl _ _,
      Shrinks.refl _, rfl, rfl⟩
    by_cases e : g = f
    · subst e
      rw [update_self]
      dsimp only
      omega
    · rw [update_of_ne e, h.files g, count_cons_of_ne e]
  intro hle
  have hfU : f ∉ U := fun hm => by
    have := count_pos.2 hm
    omega
  rw [wp_bind, wp_setFile]
  obtain ⟨y, hy⟩ : ∃ y : File, y = { s.ftable f with ref := 0, type := .none } := ⟨_, rfl⟩
  have hips := fileIps_update s.ftable f y
  have hyref : fileRef y = 0 := by rw [hy]; rfl
  rw [hyref, add_zero] at hips
  -- the inode, if there is one, is given up in an operation of its own
  have hput : fileRef (s.ftable f) = {(s.ftable f).ip} → (s.ftable f).type ≠ .pipe →
      wp (do onVol beginOp; onVol (iput (s.ftable f).ip); onVol endOp) (fun _ s' => Res s' C U ∧ Did C s.vol s'.vol ∧
        Shrinks (tree s.vol) (tree s'.vol) ∧ s'.proc = s.proc ∧ s'.panic = s.panic) F
        { s with ftable := update s.ftable f y } := by
    intro hr ht
    have hall : C + fileIps s.ftable = (s.ftable f).ip ::ₘ (C + fileIps (update s.ftable f y)) := by
      rw [← hips, hr, ← Multiset.singleton_add, add_comm {(s.ftable f).ip}, add_assoc]
    have hm := h.mid
    have hb := h.base
    rw [hall] at hm hb
    simp only [wp_bind, wp_onVol]
    apply wp_putOp hm hb h.idle
    intro v' hm' hb' hi' hd hsh
    rw [hy] at hm' hb' hd ⊢
    exact ⟨h.drop hfU hm' hb' hi' hd (h.pipes.update (fun i w => ⟨fun hh => (by cases hh.1), fun hh => absurd hh.1 ht⟩)),
      hd.mono (Multiset.le_add_right _ _), hsh, trivial, trivial⟩
  rw [← hy]
  unfold closeFile
  cases ht : (s.ftable f).type with
  | none =>
    have := (h.typed f).1 ht
    omega
  | pipe =>
    have hr : fileRef (s.ftable f) = 0 := by
      unfold fileRef
      rw [ht]
    rw [hr, add_zero] at hips
    unfold pipeclose
    have hp := h.pipes.close (x := y) ⟨ht, rfl, rfl⟩ (by rw [hy]; exact fun e => by cases e)
    have hm := h.mid
    have hb := h.base
    rw [← hips] at hm hb
    rw [hy] at hm hb hp ⊢
    exact ⟨h.drop hfU hm hb h.idle (Did.refl _ _) hp, Did.refl _ _, Shrinks.refl _, rfl, rfl⟩
  | inode =>
    exact hput (by unfold fileRef; rw [ht]) (by rw [ht]; exact fun e => by cases e)
  | device =>
    exact hput (by unfold fileRef; rw [ht]) (by rw [ht]; exact fun e => by cases e)

/-! ## New files -/

theorem fileclose_new (h0 : (s.ftable f).ref = 0) (ht : (s.ftable f).type = .none)
    (hQ : Q ⟨⟩ s) : wp (fileclose f) Q F { s with ftable := update s.ftable f { s.ftable f with ref := 1 } } := by
  have hself : update s.ftable f { s.ftable f with ref := 0, type := .none } = s.ftable := by
    rw [← h0, ← ht]
    exact update_eq_self f s.ftable
  unfold fileclose
  rw [wp_bind, wp_get]
  simp only [update_self]
  rw [if_neg (by decide), if_neg (by decide), wp_bind, wp_setFile]
  simp only [update_idem, hself]
  simp only [ht]
  exact hQ

theorem wp_fdalloc {x : Proc} {Q : Option (Fin 16) → FsState → Prop} (hnone : Q none s) (hsome : ∀ fd, x.ofile fd = none →
      Q (some fd) { s with proc := update s.proc p (some { x with ofile := update x.ofile fd (some f) }) }) :
    wp (fdalloc p x f) Q F s := by
  unfold fdalloc
  split
  · exact hnone
  rename_i fd hfd
  have hp := List.find?_some hfd
  rw [decide_eq_true_eq] at hp
  unfold setOfile
  exact hsome fd hp

theorem wp_openFile {x : Proc} {Q : Option (Fp × Fin 16) → FsState → Prop}
    (htyped : ∀ f, (s.ftable f).type = .none ↔ (s.ftable f).ref = 0) (hnone : Q none s)
    (hsome : ∀ f fd, (s.ftable f).ref = 0 → x.ofile fd = none → Q (some (f, fd)) { s with
      ftable := update s.ftable f { s.ftable f with ref := 1 },
      proc := update s.proc p (some { x with ofile := update x.ofile fd (some f) }) }) :
    wp (openFile p x) Q F s := by
  unfold openFile
  rw [wp_bind]
  apply wp_filealloc hnone
  intro f h0
  rw [wp_bind]
  apply wp_fdalloc
  · rw [wp_bind]
    exact fileclose_new h0 ((htyped f).2 h0) hnone
  · intro fd hfd
    exact hsome f fd h0 hfd

theorem files_new (h : ∀ g, (ftable g).ref = U.count g) (h0 : (ftable f).ref = 0)
    (hx : x.ref = 1) (g : Fp) : (update ftable f x g).ref = (f ::ₘ U).count g := by
  by_cases e : g = f
  · rw [e, update_self, count_cons_self, ← h f, h0, hx]
  · rw [update_of_ne e, count_cons_of_ne e]
    exact h g

/-! ## `pipealloc` -/

def withPipe (s : FsState) (f0 f1 : Fp) : FsState :=
  { s with
    ftable := update (update s.ftable f0 (pipeFile s.npipe false { s.ftable f0 with ref := 1 })) f1
      (pipeFile s.npipe true { s.ftable f1 with ref := 1 })
    pipe := update s.pipe s.npipe ⟨true, true, true⟩
    npipe := s.npipe + 1 }

theorem update_pair (g : Fp → File) (a b : Fp) (x y x' y' : File) :
    update (update (update (update g a x) b y) a x') b y' = update (update g a x') b y' := by
  funext c
  simp only [update_apply]
  split
  · rfl
  · split <;> rfl

theorem wp_pipealloc {page : Bool} {Q : Option (Fp × Fp) → FsState → Prop} (h : Res s C U) (hnone : Q none s)
    (hsome : ∀ f0 f1, f0 ≠ f1 → (s.ftable f0).ref = 0 → (s.ftable f1).ref = 0 → Q (some (f0, f1)) (withPipe s f0 f1)) :
    wp (pipealloc page) Q F s := by
  unfold pipealloc
  rw [wp_bind]
  apply wp_filealloc hnone
  intro f0 h0
  have ht0 := (h.typed f0).2 h0
  rw [wp_bind]
  apply wp_filealloc
  · rw [wp_bind]
    exact fileclose_new h0 ht0 hnone
  intro f1 h1
  have hne : f1 ≠ f0 := by
    rintro rfl
    dsimp only at h1
    rw [update_self] at h1
    cases h1
  dsimp only at h1 ⊢
  rw [update_of_ne hne] at h1
  have ht1 := (h.typed f1).2 h1
  rw [update_of_ne hne]
  apply wp_ite
  · intro _
    rw [update_comm hne.symm, wp_bind]
    have hf0 : update s.ftable f1 { s.ftable f1 with ref := 1 } f0 = s.ftable f0 := update_of_ne hne.symm _ _
    have hput : wp (fileclose f0) (fun _ => wp (do fileclose f1; return none) Q F) F { s with
        ftable := update (update s.ftable f1 { s.ftable f1 with ref := 1 }) f0
          { update s.ftable f1 { s.ftable f1 with ref := 1 } f0 with ref := 1 } } := by
      apply fileclose_new (s := { s with ftable := update s.ftable f1 { s.ftable f1 with ref := 1 } })
      · dsimp only
        rw [hf0, h0]
      · dsimp only
        rw [hf0, ht0]
      · rw [wp_bind]
        exact fileclose_new h1 ht1 hnone
    rwa [hf0] at hput
  · intro _
    rw [wp_bind, wp_get, wp_bind, wp_set, wp_bind, wp_setFile, wp_bind, wp_setFile]
    have hQ := hsome f0 f1 hne.symm h0 h1
    simp only [update_self, update_of_ne hne.symm]
    rwa [update_pair]

theorem Res.pipe {f0 f1 : Fp} (h : Res s C U) (hne : f0 ≠ f1) (h0 : (s.ftable f0).ref = 0) (h1 : (s.ftable f1).ref = 0) :
    Res (withPipe s f0 f1) C (f1 ::ₘ f0 ::ₘ U) := by
  have ht0 := (h.typed f0).2 h0
  have ht1 := (h.typed f1).2 h1
  have href : ∀ i w (x : File), fileRef (pipeFile i w x) = 0 := fun i w x => rfl
  have hnone : ∀ f, (s.ftable f).type = .none → fileRef (s.ftable f) = 0 := fun f hf => by
    unfold fileRef
    rw [hf]
  have hips : fileIps (withPipe s f0 f1).ftable = fileIps s.ftable := by
    unfold withPipe
    rw [fileIps_same, fileIps_same]
    · rw [href, hnone f0 ht0]
    · rw [update_of_ne hne.symm, href, hnone f1 ht1]
  have hself0 : (withPipe s f0 f1).ftable f0 = pipeFile s.npipe false { s.ftable f0 with ref := 1 } := by
    unfold withPipe
    dsimp only
    rw [update_of_ne hne, update_self]
  have hself1 : (withPipe s f0 f1).ftable f1 = pipeFile s.npipe true { s.ftable f1 with ref := 1 } := by
    unfold withPipe
    dsimp only
    rw [update_self]
  have hother : ∀ g, g ≠ f0 → g ≠ f1 → (withPipe s f0 f1).ftable g = s.ftable g := fun g hg0 hg1 => by
    unfold withPipe
    dsimp only
    rw [update_of_ne hg1, update_of_ne hg0]
  have hcases : ∀ g, g = f0 ∨ g = f1 ∨ g ≠ f0 ∧ g ≠ f1 := fun g => by
    by_cases e0 : g = f0
    · exact .inl e0
    · by_cases e1 : g = f1
      · exact .inr (.inl e1)
      · exact .inr (.inr ⟨e0, e1⟩)
  constructor
  · rw [hips]
    exact h.mid
  · rw [hips]
    exact h.base
  · exact h.idle
  · refine files_new (files_new h.files h0 rfl) ?_ rfl
    rw [update_of_ne hne.symm, h1]
  · intro g
    rcases hcases g with rfl | rfl | ⟨e0, e1⟩
    · rw [hself0]
      simp [pipeFile]
    · rw [hself1]
      simp [pipeFile]
    · rw [hother g e0 e1]
      exact h.typed g
  · intro g
    rcases hcases g with rfl | rfl | ⟨e0, e1⟩
    · rw [hself0]
      rintro (ht | ht) <;> cases ht
    · rw [hself1]
      rintro (ht | ht) <;> cases ht
    · rw [hother g e0 e1]
      exact h.opened g
  · refine Pipes.add f0 f1 h.pipes (fun g i w => ?_)
    rcases hcases g with rfl | rfl | ⟨e0, e1⟩
    · rw [hself0]
      unfold IsEnd pipeFile
      simp [ht0, hne, eq_comm]
    · rw [hself1]
      unfold IsEnd pipeFile
      simp [ht1, hne.symm, eq_comm]
    · rw [hother g e0 e1]
      simp [e0, e1]

end Xv6.Fs
