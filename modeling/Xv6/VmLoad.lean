import Xv6.VmCopy
/-!
# VmLoad — `exec`: the new image and the old one

A program is loaded into pages nobody else uses, so that what is written into it shows there and nowhere else; the
process's own table is left alone until the new one is complete. Either everything of the new image is given back, or
everything of the old one.
-/
namespace Xv6.Vm

open Multiset (coe_add coe_nil le_add_left le_add_right)
open Wp
variable [Link] {F : Panic → Prop} {k k1 k2 : Kmem} {E : Multiset Nat} {im im1 im2 : Image}
  {file bs : List UInt8} {sz va : Nat}

omit [Link] in
theorem length_readi_le (file : List UInt8) (off n : Nat) : (readi file off n).length ≤ n := by
  unfold readi
  split
  · exact Nat.zero_le n
  · exact List.length_take_le _ _

omit [Link] in
theorem writeAll_append (m : Nat → UInt8) (a b : List (Nat × List UInt8)) :
    writeAll m (a ++ b) = writeAll (writeAll m a) b := List.foldl_append

structure Filled (E : Multiset Nat) (k : Kmem) (k' : Kmem) (t : Pt) (n : Nat) (writes : List (Nat × List UInt8)) : Prop where
  acc : Acc k' (E + uses t)
  keeps : Keeps E k k'
  user : User true k' t n (writeAll (fun _ => 0) writes)

theorem loadsegLoop_spec {t : Pt} {n : Nat} {offset : Nat} (hva : va % 4096 = 0)
    (hmap : Mapped t 0 (va / 4096 + pgs sz)) :
    ∀ (m : Nat) {i : Nat} {writes : List (Nat × List UInt8)} {k : Kmem} {W : List (Nat × List UInt8)}, i % 4096 = 0 →
    i / 4096 + m ≤ pgs sz → Filled E k k t n (W ++ writes) →
    wp (loadsegLoop t va file offset sz i writes m) (fun r k' => Filled E k k' t n (W ++ r.2)) F k
  | 0, _, _, _, _, _, _, h => h
  | m + 1, i, writes, k, W, hi, hm, h => by
    unfold loadsegLoop
    cases hpa : walkaddr t ((va + i) / 4096) with
    | none =>
      obtain ⟨e, he, hue⟩ := hmap ((va + i) / 4096) (Nat.zero_le _) (by omega)
      have hsome := h.user.wf.walkaddr_of he hue
      rw [hpa] at hsome
      cases hsome
    | some pa =>
      obtain ⟨-, e, he, hue, hep⟩ := walkaddr_some hpa
      subst hep
      have hv := h.user.lt_trap he hue
      have hs := h.user.shows _ hv
      rw [he] at hs
      have haddr : (va + i) / 4096 * 4096 + 0 = va + i := by omega
      have hlen : (readi file ((offset + i) % 2 ^ 32) (if sz - i < 4096 then sz - i else 4096)).length ≤ 4096 := by
        refine le_trans (length_readi_le ..) ?_
        split <;> omega
      refine wp_then (poke_spec 0 _ h.user h.acc he hv (hs.1 (.inl rfl)) (by omega)) (fun _ k1 ⟨ha1, hk1, hu1⟩ => ?_)
      rw [haddr] at hu1
      have h1 : Filled E k k1 t n (W ++ (writes ++
          [(va + i, readi file ((offset + i) % 2 ^ 32) (if sz - i < 4096 then sz - i else 4096))])) := by
        refine ⟨ha1, hk1, ?_⟩
        rw [← List.append_assoc, writeAll_append]
        exact hu1
      refine wp_ite (fun _ => ?_) (fun _ => h1)
      refine wp_use (loadsegLoop_spec hva hmap m (by omega) (by omega) ⟨h1.acc, Keeps.refl _ _, h1.user⟩) (fun r k2 h2 => ?_)
      exact ⟨h2.acc, hk1.trans h2.keeps, h2.user⟩

variable {t own own1 own2 : Pt} {b psz sp tf uargv : Nat} {R : Nat → UInt8} {argv : List (List UInt8)}

theorem loadseg_spec {n : Nat} {offset : Nat} {W : List (Nat × List UInt8)}
    (hva : va % 4096 = 0) (hmap : Mapped t 0 (va / 4096 + pgs sz)) (h : Filled E k k t n W) :
    wp (loadseg t va file offset sz) (fun r k' => Filled E k k' t n (W ++ r.2)) F k :=
  loadsegLoop_spec hva hmap _ rfl (by omega) (by rw [List.append_nil]; exact h)

/-- **The segments of a file**, loaded or given up on. No page is left out, so that memory runs out before the trapframe
is reached, whatever sizes the file asks for. -/
theorem loadSegments_spec : ∀ (m : Nat) {im : Image} {off : Nat} {k : Kmem},
    Filled E k k im.pt (pgs im.sz) im.writes → Mapped im.pt 0 (pgs im.sz) →
    wp (loadSegments file im off m) (fun r k' => Filled E k k' r.2.pt (pgs r.2.sz) r.2.writes ∧
      (r.1 = true → Mapped r.2.pt 0 (pgs r.2.sz))) F k
  | 0, _, _, _, h, hf => ⟨h, fun _ => hf⟩
  | m + 1, im, off, k, h, hf => by
    have hfail : Filled E k k im.pt (pgs im.sz) im.writes ∧ (false = true → Mapped im.pt 0 (pgs im.sz)) := ⟨h, nofun⟩
    refine wp_ite (fun _ => hfail) (fun _ => ?_)
    refine wp_ite (fun _ => loadSegments_spec m h hf) (fun _ => ?_)
    refine wp_ite (fun _ => hfail) (fun hsz => wp_ite (fun _ => hfail) (fun _ => wp_ite (fun _ => hfail) (fun hal => ?_)))
    refine wp_then (uvmalloc_spec h.user (.inr (.inr ⟨rfl, hf.solid⟩)) h.acc) (fun r k1 ⟨ha1, hk1, hr⟩ => ?_)
    refine wp_ite (fun h0 => ?_) (fun h0 => ?_)
    · rw [if_pos h0] at hr
      exact ⟨⟨ha1, hk1, hr⟩, nofun⟩
    rw [if_neg h0] at hr
    obtain ⟨hsz1, hu1, hm1, hlow⟩ := hr
    have hall := hf.grow hlow hm1
    refine wp_then (loadseg_spec (by simpa using hal) (fun v h1 h2 => hall v h1 ?_) ⟨ha1, Keeps.refl _ _, hu1⟩)
      (fun r k2 h2 => ?_)
    · unfold pgs at h2 ⊢
      omega
    refine wp_ite (fun _ => ?_) (fun _ => ⟨⟨h2.acc, hk1.trans h2.keeps, h2.user⟩, nofun⟩)
    refine wp_use (loadSegments_spec m ⟨h2.acc, Keeps.refl _ _, h2.user⟩ hall) (fun r k3 ⟨h3, hf3⟩ => ?_)
    exact ⟨⟨h3.acc, (hk1.trans h2.keeps).trans h3.keeps, h3.user⟩, hf3⟩

/-- What the pushes onto the new stack keep, page `b` being the stack's: on success the image shows what was pushed. -/
structure Pushed (E : Multiset Nat) (k k' : Kmem) (b : Nat) (im im' : Image) (own own' : Pt) (ok : Bool) : Prop where
  own : own' = own
  sz : im'.sz = im.sz
  mapped : Mapped im'.pt b (b + 1)
  acc : Acc k' (E + uses im'.pt)
  keeps : Keeps E k k'
  shows : ∃ R, User true k' im'.pt (pgs im.sz) R
  full : ok = true → User true k' im'.pt (pgs im.sz) (writeAll (fun _ => 0) im'.writes)

theorem Pushed.refl (ok : Bool) (h : Filled E k k im.pt (pgs im.sz) im.writes)
    (hm : Mapped im.pt b (b + 1)) : Pushed E k k b im im own own ok :=
  ⟨rfl, rfl, hm, h.acc, Keeps.refl _ _, ⟨_, h.user⟩, fun _ => h.user⟩

theorem Pushed.trans {ok ok' : Bool}
    (h : Pushed E k k1 b im im1 own own1 ok) (h' : Pushed E k1 k2 b im1 im2 own1 own2 ok') :
    Pushed E k k2 b im im2 own own2 ok' :=
  ⟨h'.own.trans h.own, h'.sz.trans h.sz, h'.mapped, h'.acc, h.keeps.trans h'.keeps, h.sz ▸ h'.shows, h.sz ▸ h'.full⟩

theorem Pushed.filled (h : Pushed E k k1 b im im1 own own1 true) : Filled E k1 k1 im1.pt (pgs im1.sz) im1.writes :=
  ⟨h.acc, Keeps.refl _ _, h.sz ▸ h.full rfl⟩

theorem pushBytes_spec (h : Filled E k k im.pt (pgs im.sz) im.writes) (hm : Mapped im.pt b (b + 1)) (hlo : b * 4096 ≤ sp)
    (hhi : sp + bs.length ≤ (b + 1) * 4096) :
    wp (pushBytes im own psz sp bs) (fun r k' => Pushed E k k' b im r.2.1 own r.2.2 r.1) F k := by
  unfold pushBytes
  rw [wp_bind]
  have hr : Reach ⟨im.pt, some own⟩ psz (pgs im.sz) (sp / 4096) ((sp + bs.length + 4095) / 4096) :=
    .inr (fun v h1 h2 => hm v (by omega) (by omega))
  refine wp_use (copyout_spec h.user h.acc hr) (fun r k' ⟨hk, hfull⟩ => ?_)
  obtain ⟨ok, a, c⟩ := r
  have hown : a.mine = own := by
    rw [Tabs.mine, hk.own]
    rfl
  refine ⟨hown, rfl, hk.still.mapped hm, hk.acc, hk.keeps, ⟨_, hk.user⟩, fun hok => ?_⟩
  have hu := hk.user
  rw [hfull hok] at hu
  rw [writeAll_append]
  exact hu

theorem pushArgs_spec (hb : 0 < b) : ∀ (argv : List (List UInt8)) (im : Image) {own : Pt} {sp : Nat}
    {ustack : List Nat} {k : Kmem}, Filled E k k im.pt (pgs im.sz) im.writes → Mapped im.pt b (b + 1) →
    sp ≤ (b + 1) * 4096 →
    wp (pushArgs psz (b * 4096) im own sp ustack argv) (fun r k' => Pushed E k k' b im r.2.1 own r.2.2.1 r.1 ∧
      r.2.2.2.1 ≤ (b + 1) * 4096) F k
  | [], im, own, sp, ustack, k, h, hm, hsp => ⟨Pushed.refl true h hm, hsp⟩
  | arg :: argv, im, own, sp, ustack, k, h, hm, hsp => by
    refine wp_ite (fun _ => ⟨Pushed.refl false h hm, hsp⟩) (fun _ => ?_)
    refine wp_ite (fun _ => ⟨Pushed.refl false h hm, by dsimp only; omega⟩) (fun hge => ?_)
    refine wp_then (pushBytes_spec h hm (by omega) ?_) (fun r k1 hp => ?_)
    · rw [List.length_append, List.length_singleton]
      omega
    obtain ⟨ok, im1, own1⟩ := r
    refine wp_ite (fun hok => ?_) (fun hok => ?_)
    · subst hok
      refine wp_use (pushArgs_spec hb argv im1 hp.filled hp.mapped (by omega)) (fun r k2 ⟨hp2, hsp2⟩ => ?_)
      exact ⟨hp.trans hp2, hsp2⟩
    · have hok : ok = false := by simpa using hok
      subst hok
      exact ⟨hp, by dsimp only; omega⟩

theorem setupStack_spec (h : Filled E k k im.pt (pgs im.sz) im.writes) (hf : Solid im.pt (pgs im.sz)) :
    wp (setupStack im own psz argv) (fun r k' => r.2.2 = own ∧ Acc k' (E + uses r.2.1.pt) ∧ Keeps E k k' ∧
      (∃ R, User true k' r.2.1.pt (pgs r.2.1.sz) R) ∧
      (r.1 = true → User true k' r.2.1.pt (pgs r.2.1.sz) (writeAll (fun _ => 0) r.2.1.writes))) F k := by
  unfold setupStack
  rw [wp_bind]
  have hpg : pgs (pgs im.sz * 4096) = pgs im.sz := pgs_mul _
  have hu0 : User true k im.pt (pgs (pgs im.sz * 4096)) (writeAll (fun _ => 0) im.writes) := hpg.symm ▸ h.user
  have hf0 : Solid im.pt (pgs (pgs im.sz * 4096)) := hpg.symm ▸ hf
  refine wp_use (uvmalloc_spec hu0 (.inr (.inr ⟨rfl, hf0⟩)) h.acc) ?_
  rintro r k1 ⟨ha1, hk1, hr⟩
  obtain ⟨sz1, t⟩ := r
  refine wp_ite (fun h0 => ?_) (fun h0 => ?_)
  · rw [if_pos h0] at hr
    exact ⟨rfl, ha1, hk1, ⟨_, hr⟩, by simp⟩
  rw [if_neg h0] at hr
  obtain ⟨hsz1, hu1, hm1, -⟩ := hr
  have hsz : sz1 = (pgs im.sz + 2) * 4096 := by omega
  subst hsz
  rw [hpg, pgs_mul] at hm1
  rw [pgs_mul] at hu1
  have hguard : ((pgs im.sz + 2) * 4096 - 2 * 4096) / 4096 = pgs im.sz := by omega
  have hbase : (pgs im.sz + 2) * 4096 - 4096 = (pgs im.sz + 1) * 4096 := by omega
  obtain ⟨e, he, hue⟩ := hm1 (pgs im.sz) le_rfl (by omega)
  have hv : pgs im.sz < trapVpn := hu1.lt_trap he hue
  rw [hguard, hbase, uvmclear, wp_bind, wp_bind]
  refine hu1.wf.walk (.inl (lt_maxVpn hv)) (fun e' he' => ?_) (fun hnone => by rw [he] at hnone; cases hnone)
  rw [he] at he'
  cases he'
  rw [wp_pure, wp_bind]
  -- the guard page is out of reach, the page above it is the stack
  have hm2 : Mapped (t.setPte (pgs im.sz) (some { e with u := false })) (pgs im.sz + 1) (pgs im.sz + 1 + 1) := by
    intro v h1 h2
    obtain ⟨e', he', hu'⟩ := hm1 v (by omega) (by omega)
    exact ⟨e', by rw [Pt.setPte]; dsimp only; rw [Function.update_of_ne (by omega)]; exact he', hu'⟩
  have h2 : Filled E k1 k1 (t.setPte (pgs im.sz) (some { e with u := false })) (pgs ((pgs im.sz + 2) * 4096)) im.writes :=
    ⟨by rw [uses_setFlags (f := { e with u := false }) he rfl]; exact ha1, Keeps.refl _ _,
      by rw [pgs_mul]; exact hu1.setFlags hv he (fun hs => hs)⟩
  refine wp_use (pushArgs_spec (Nat.succ_pos _) argv
    { im with pt := t.setPte (pgs im.sz) (some { e with u := false }), sz := (pgs im.sz + 2) * 4096 } h2 hm2
    le_rfl) ?_
  rintro r k2 ⟨hp, hsp⟩
  obtain ⟨ok, im2, own2, sp, ustack⟩ := r
  dsimp only at hp hsp ⊢
  have hsz2 : pgs im2.sz = pgs ((pgs im.sz + 2) * 4096) := by rw [hp.sz]
  refine wp_ite (fun _ => ?_) (fun hok => ?_)
  · exact ⟨hp.own, hp.acc, hk1.trans hp.keeps, hsz2.symm ▸ hp.shows, by simp⟩
  have hok : ok = true := by simpa using hok
  subst hok
  refine wp_ite (fun _ => ?_) (fun hge => ?_)
  · exact ⟨hp.own, hp.acc, hk1.trans hp.keeps, hsz2.symm ▸ hp.shows, by simp⟩
  have hlen : (ustack.flatMap bytes64 ++ bytes64 0).length = (ustack.length + 1) * 8 := by
    simp [bytes64]
    omega
  refine wp_use (pushBytes_spec hp.filled hp.mapped (by omega) (by omega)) (fun r k3 hp3 => ?_)
  have hall := hp.trans hp3
  exact ⟨hall.own, hall.acc, hk1.trans hall.keeps, hall.sz ▸ hall.shows, hall.sz ▸ hall.full⟩

/-! ## `kexec` -/

/-- `setupStack` with the stack pointer and the number of arguments. -/
def setupStackSp (im : Image) (own : Pt) (psz : Nat) (argv : List (List UInt8)) : KM (Bool × Image × Pt × Nat × Nat) := do
  let sz := pgs im.sz * 4096
  let (sz1, t) ← uvmalloc im.pt sz (sz + 2 * 4096) true false
  if sz1 = 0 then return (false, { im with pt := t, sz := sz }, own, 0, 0)
  let t ← uvmclear t ((sz1 - 2 * 4096) / 4096)
  let (ok, im, own, sp, ustack) ← pushArgs psz (sz1 - 4096) { im with pt := t, sz := sz1 } own sz1 [] argv
  if ¬ ok then return (false, im, own, 0, 0)
  let sp := sp - (ustack.length + 1) * 8
  let sp := sp - sp % 16
  if sp < sz1 - 4096 then return (false, im, own, 0, 0)
  let (ok, im, own) ← pushBytes im own psz sp (ustack.flatMap bytes64 ++ bytes64 0)
  return (ok, im, own, sp, ustack.length)

theorem setupStack_eq (im : Image) (own : Pt) (psz : Nat) (argv : List (List UInt8)) :
    setupStack im own psz argv = (fun r => (r.1, r.2.1, r.2.2.1)) <$> setupStackSp im own psz argv := by
  unfold setupStack setupStackSp
  simp only [map_bind]
  congr 1
  funext r
  split
  · rfl
  simp only [map_bind]
  congr 1
  funext t
  congr 1
  funext r
  split
  · rfl
  split
  · rfl
  · simp

/-- `kexec` up to the point where nothing can fail any more: it also returns the process's own table, the stack pointer and
the number of arguments. -/
def kexecLoad (file : Option (List UInt8)) (argv : List (List UInt8)) (own : Pt) (psz trapframe : Nat) :
    KM (Pt ⊕ (Image × Pt × Nat × Nat)) := do
  match file with
  | none => return .inl own
  | some file =>
    let elf := readi file 0 64
    if elf.length ≠ 64 then return .inl own
    if le elf 0 4 ≠ 0x464C457F then return .inl own
    match ← procPagetable trapframe with
    | none => return .inl own
    | some t =>
      let (ok, im) ← loadSegments file ⟨t, 0, []⟩ (le elf 32 8 % 2 ^ 32) (le elf 56 2)
      if ¬ ok then
        procFreepagetable im.pt im.sz
        return .inl own
      let (ok, im, own, sp, argc) ← setupStackSp im own psz argv
      if ok then return .inr (im, own, sp, argc)
      else
        procFreepagetable im.pt im.sz
        return .inl own

theorem kexec_eq (file : Option (List UInt8)) (argv : List (List UInt8)) (own : Pt) (psz tf : Nat) :
    kexec file argv own psz tf = kexecLoad file argv own psz tf >>= fun r => match r with
      | .inl t => return .inl t
      | .inr (im, own, _, _) => do
        procFreepagetable own psz
        return .inr im := by
  unfold kexec kexecLoad
  cases file with
  | none => rfl
  | some file =>
    dsimp only
    split
    · rfl
    split
    · rfl
    rw [bind_assoc]
    congr 1
    funext r
    cases r with
    | none => rfl
    | some t =>
      dsimp only
      rw [bind_assoc]
      congr 1
      funext r
      split
      · simp
      rw [setupStack_eq, map_eq_pure_bind, bind_assoc, bind_assoc]
      congr 1
      funext r
      rw [pure_bind]
      split
      · rfl
      · simp

theorem kexecLoad_spec {file : Option (List UInt8)} {argv : List (List UInt8)} {tf : Nat} (ha : Acc k (E + uses own)) :
    wp (kexecLoad file argv own psz tf) (fun r k' => Keeps (E + uses own) k k' ∧ match r with
      | .inl t => t = own ∧ Acc k' (E + uses own)
      | .inr x => x.2.1 = own ∧ Acc k' (E + uses own + uses x.1.pt) ∧
        User true k' x.1.pt (pgs x.1.sz) (writeAll (fun _ => 0) x.1.writes)) F k := by
  unfold kexecLoad
  cases file with
  | none => exact ⟨Keeps.refl _ _, rfl, ha⟩
  | some file =>
    refine wp_ite (fun _ => ⟨Keeps.refl _ _, rfl, ha⟩) (fun _ => wp_ite (fun _ => ⟨Keeps.refl _ _, rfl, ha⟩) (fun _ => ?_))
    refine wp_then (procPagetable_spec ha) (fun r k1 ⟨hk1, hr⟩ => ?_)
    cases r with
    | none => exact ⟨hk1, rfl, hr⟩
    | some t =>
      obtain ⟨ha1, hu1⟩ := hr
      have h1 : Filled (E + uses own) k1 k1 t (pgs 0) [] := ⟨ha1, Keeps.refl _ _, hu1⟩
      have hf1 : Mapped t 0 (pgs 0) := fun u _ hlt => absurd hlt (Nat.not_lt_zero u)
      refine wp_then (loadSegments_spec _ h1 hf1) (fun r k2 ⟨h2, hf2⟩ => ?_)
      obtain ⟨ok, im⟩ := r
      refine wp_ite (fun _ => ?_) (fun hok => ?_)
      · refine wp_then (procFreepagetable_spec h2.user h2.acc) (fun _ k3 ⟨ha3, hk3⟩ => ?_)
        exact ⟨(hk1.trans h2.keeps).trans hk3, rfl, ha3⟩
      have hstack : wp (setupStack im own psz argv) _ F k2 := setupStack_spec ⟨h2.acc, Keeps.refl _ _, h2.user⟩
        (hf2 (by simpa using hok)).solid
      rw [setupStack_eq, wp_map] at hstack
      refine wp_then hstack (fun r k3 ⟨hown, ha3, hk3, hsome, hfull⟩ => ?_)
      subst hown
      have hk13 := (hk1.trans h2.keeps).trans hk3
      refine wp_ite (fun hok => ⟨hk13, rfl, ha3, hfull hok⟩) (fun _ => ?_)
      obtain ⟨R', hu3⟩ := hsome
      refine wp_then (procFreepagetable_spec hu3 ha3) (fun _ k4 ⟨ha4, hk4⟩ => ?_)
      exact ⟨hk13.trans hk4, rfl, ha4⟩

theorem kexec_spec {file : Option (List UInt8)} (hu : User false k own (pgs psz) R) (ha : Acc k (E + uses own)) :
    wp (kexec file argv own psz tf) (fun r k' => Keeps E k k' ∧ match r with
      | .inl t => Acc k' (E + uses t) ∧ User false k' t (pgs psz) R
      | .inr im => Acc k' (E + uses im.pt) ∧ User false k' im.pt (pgs im.sz) (writeAll (fun _ => 0) im.writes)) F k := by
  have hle : leaves own.pte ≤ E + uses own := le_trans (le_add_left _ _) (le_add_left _ _)
  rw [kexec_eq]
  refine wp_then (kexecLoad_spec ha) (fun r k1 ⟨hk1, hr⟩ => ?_)
  have hkE : Keeps E k k1 := hk1.mono (le_add_right _ _)
  cases r with
  | inl t =>
    obtain ⟨rfl, ha1⟩ := hr
    exact ⟨hkE, ha1, hu.frame hk1 hle⟩
  | inr x =>
    obtain ⟨rfl, ha1, hu1⟩ := hr
    refine wp_then (procFreepagetable_spec (hu.frame hk1 hle) (ha1.of_eq (add_right_comm ..))) (fun _ k2 ⟨ha2, hk2⟩ => ?_)
    exact ⟨hkE.trans (hk2.mono (le_add_right _ _)), ha2,
      (hu1.frame hk2 (le_trans (le_add_left _ _) (le_add_left _ _))).weaken⟩

/-! ## `sys_exec` -/

theorem fetchArgs_spec : ∀ (n : Nat) {t : Pt} {pages : List Nat}
    {argv : List (List UInt8)} {k : Kmem}, User false k t (pgs sz) R → Acc k (E + (pages : Multiset Nat) + uses t) →
    wp (fetchArgs sz uargv t pages argv n) (fun r k' => Acc k' (E + (r.2.2.1 : Multiset Nat) + uses r.2.1) ∧ Keeps E k k' ∧
      User false k' r.2.1 (pgs sz) R) F k
  | 0, t, pages, argv, k, hu, ha => ⟨ha, Keeps.refl _ _, hu⟩
  | n + 1, t, pages, argv, k, hu, ha => by
    refine wp_ite (fun _ => ⟨ha, Keeps.refl _ _, hu⟩) (fun _ => ?_)
    refine wp_then (copyin_spec hu ha) (fun r k1 ⟨h1, _⟩ => ?_)
    obtain ⟨b, a⟩ := r
    have hk1 : Keeps E k k1 := h1.keeps.mono (le_add_right _ _)
    have hsame : Acc k1 (E + (pages : Multiset Nat) + uses a.pt) ∧ Keeps E k k1 ∧ User false k1 a.pt (pgs sz) R :=
      ⟨h1.acc, hk1, h1.user⟩
    cases b with
    | none => exact hsame
    | some b =>
      refine wp_ite (fun _ => hsame) (fun _ => ?_)
      refine kalloc_use h1.acc hsame (fun p k2 ha2 hk2 _ _ => ?_)
      have ha2' : Acc k2 (E + ((pages ++ [p] : List Nat) : Multiset Nat) + uses a.pt) := by
        refine ha2.of_eq ?_
        rw [← coe_add, Multiset.coe_singleton, ← add_assoc, ← Multiset.singleton_add, add_comm ({p} : Multiset Nat),
          add_right_comm]
      have hu2 := h1.user.frame hk2 (le_trans (le_add_left _ _) (le_add_left _ _))
      have hk02 : Keeps E k k2 := hk1.trans (hk2.mono (le_trans (le_add_right _ _) (le_add_right _ _)))
      rw [wp_bind, wp_get]
      split
      · exact ⟨ha2', hk02, hu2⟩
      · refine wp_use (fetchArgs_spec n hu2 ha2') (fun r k3 ⟨ha3, hk3, hu3⟩ => ⟨ha3, hk02.trans hk3, hu3⟩)

theorem kfreeAll_spec (pages : List Nat) (ha : Acc k (E + (pages : Multiset Nat))) :
    wp (pages.forM kfree) (fun _ k' => Acc k' E ∧ Keeps E k k') F k := by
  have hloop := wp_forM (f := kfree) (F := F) (I := fun l k' => Acc k' (E + (l : Multiset Nat)) ∧ Keeps E k k')
    (fun p ps k1 ⟨ha1, hk1⟩ => ?_) pages k ⟨ha, Keeps.refl _ _⟩
  · refine wp_use hloop (fun _ k' ⟨ha', hk'⟩ => ⟨ha'.of_eq (add_zero E), hk'⟩)
  · have ha1' : Acc k1 (p ::ₘ (E + (ps : Multiset Nat))) := ha1.of_eq (by rw [← Multiset.cons_coe, Multiset.add_cons])
    exact wp_use (kfree_spec ha1') (fun _ k2 ⟨ha2, hk2⟩ => ⟨ha2, hk1.trans (hk2.mono (le_add_right _ _))⟩)

theorem sysExec_spec {file : Option (List UInt8)} (hu : User false k own (pgs psz) R) (ha : Acc k (E + uses own)) :
    wp (sysExec file own psz tf uargv) (fun r k' => Keeps E k k' ∧ match r with
      | .inl t => Acc k' (E + uses t) ∧ User false k' t (pgs psz) R
      | .inr im => Acc k' (E + uses im.pt) ∧ User false k' im.pt (pgs im.sz) (writeAll (fun _ => 0) im.writes)) F k := by
  unfold sysExec
  rw [wp_bind]
  have ha0 : Acc k (E + (([] : List Nat) : Multiset Nat) + uses own) := ha.of_eq (by rw [coe_nil, add_zero])
  refine wp_use (fetchArgs_spec 32 hu ha0) (fun r k1 ⟨ha1, hk1, hu1⟩ => ?_)
  obtain ⟨ok, t1, pages, argv⟩ := r
  rw [wp_bind]
  have hexec : wp (if ok then kexec file argv t1 psz tf else pure (.inl t1)) (fun r k' =>
      Keeps (E + (pages : Multiset Nat)) k1 k' ∧ match r with
      | .inl t => Acc k' (E + (pages : Multiset Nat) + uses t) ∧ User false k' t (pgs psz) R
      | .inr im => Acc k' (E + (pages : Multiset Nat) + uses im.pt) ∧
          User false k' im.pt (pgs im.sz) (writeAll (fun _ => 0) im.writes)) F k1 :=
    wp_ite (fun _ => kexec_spec hu1 ha1) (fun _ => ⟨Keeps.refl _ _, ha1, hu1⟩)
  refine wp_use hexec (fun r k2 ⟨hk2, hr⟩ => ?_)
  have hk12 := hk1.trans (hk2.mono (le_add_right _ _))
  -- the table the process has now is not among the buffers
  have hfree : ∀ {t : Pt} {n : Nat} {R' : Nat → UInt8}, Acc k2 (E + (pages : Multiset Nat) + uses t) → User false k2 t n R' →
      wp (pages.forM kfree) (fun _ k' => Keeps E k k' ∧ Acc k' (E + uses t) ∧ User false k' t n R') F k2 := by
    intro t n R' ha2 hu2
    refine wp_use (kfreeAll_spec pages (ha2.of_eq (add_right_comm _ _ _))) (fun _ k3 ⟨ha3, hk3⟩ => ?_)
    exact ⟨hk12.trans (hk3.mono (le_add_right _ _)), ha3,
      hu2.frame hk3 (le_trans (le_add_left _ _) (le_add_left _ _))⟩
  rw [wp_bind]
  cases r with
  | inl t => exact wp_use (hfree hr.1 hr.2) (fun _ _ h => h)
  | inr im => exact wp_use (hfree hr.1 hr.2) (fun _ _ h => h)

end Xv6.Vm
