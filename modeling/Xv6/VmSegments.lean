import Xv6.VmTrack
/-!
# VmSegments — the permissions `exec` gives the pages of a program

`imageBits` reads off a file which segment a page is mapped for and with which flags; a program that is loaded has the
page with those flags (`kexec_tables`). A process whose `exec` fails keeps its table, up to pages that came in.
-/
namespace Xv6.Vm

open Wp

/-- The write and execute flags of the segment that page `v` is mapped for, with the program headers from `off` on still to
come and a program of size `sz` so far. -/
def segmentBits (file : List UInt8) (v off sz : Nat) : Nat → Option (Bool × Bool)
  | 0 => none
  | n + 1 =>
    let ph := readi file off 56
    if le ph 0 4 ≠ 1 then segmentBits file v ((off + 56) % 2 ^ 32) sz n
    else if pgs sz ≤ v ∧ v < pgs (le ph 16 8 + le ph 40 8) then
      some (decide (le ph 4 4 / 2 % 2 = 1), decide (le ph 4 4 % 2 = 1))
    else segmentBits file v ((off + 56) % 2 ^ 32) (max sz (le ph 16 8 + le ph 40 8)) n

def imageBits (file : List UInt8) (v : Nat) : Option (Bool × Bool) :=
  segmentBits file v (le (readi file 0 64) 32 8 % 2 ^ 32) 0 (le (readi file 0 64) 56 2)

variable {k : Kmem}

structure Loaded (im im' : Image) (v : Nat) (bits : Option (Bool × Bool)) : Prop where
  sz : im.sz ≤ im'.sz
  same : ∀ u, u < pgs im.sz → im'.pt.pte u = im.pt.pte u
  has : ∀ w x, bits = some (w, x) → v < pgs im'.sz ∧ ∃ pa, im'.pt.pte v = some ⟨⟨true, w, x, true⟩, pa⟩

structure Pushing (im im' : Image) (own own' : Pt) : Prop where
  pt : Evolves im.pt im'.pt
  own : Evolves own own'
  sz : im'.sz = im.sz

variable {own own' t : Pt} {file : Option (List UInt8)} {psz v sp b tf uargv sz : Nat} {im : Image}

theorem Pushing.refl (hp : Wf im.pt) (ho : Wf own) : Pushing im im own own := ⟨.refl hp, .refl ho, rfl⟩

theorem Pushing.trans {im1 im2 : Image} {own1 own2 : Pt} (h : Pushing im im1 own own1)
    (h' : Pushing im1 im2 own1 own2) : Pushing im im2 own own2 :=
  ⟨h.pt.trans h'.pt, h.own.trans h'.own, h'.sz.trans h.sz⟩

/-- **What `exec` does to the tables.** -/
def ExecTables (file : Option (List UInt8)) (own : Pt) : Pt ⊕ Image → Prop
  | .inl t => Evolves own t
  | .inr im => ∀ f, file = some f → ∀ v w x, imageBits f v = some (w, x) →
    v < pgs im.sz ∧ ∃ pa, Ages (some ⟨⟨true, w, x, true⟩, pa⟩) (im.pt.pte v)

theorem ExecTables.before {r : Pt ⊕ Image} (h : Evolves own own')
    (hr : ExecTables file own' r) : ExecTables file own r := by
  cases r with
  | inl t => exact h.trans hr
  | inr im => exact hr

theorem uvmclear_pte (hw : Wf t) : wp (uvmclear t v) (fun r _ => Wf r ∧ ∀ u, u ≠ v → r.pte u = t.pte u) Any k := by
  unfold uvmclear
  rw [wp_bind]
  refine walk_spec (.inr trivial) (fun _ => ?_)
  split
  · trivial
  · exact ⟨hw, fun _ _ => rfl⟩
  · rename_i e hslot
    exact ⟨hw.setPte _ (pte_of_slot hslot), fun u hu => Function.update_of_ne hu _ _⟩

variable [Link] {argv : List (List UInt8)}

theorem loadSegments_loaded {file : List UInt8} {v : Nat} : ∀ (n : Nat) {im : Image} {off : Nat} {k : Kmem}, Wf im.pt →
    wp (loadSegments file im off n) (fun r _ => Wf r.2.pt ∧
      (r.1 = true → Loaded im r.2 v (segmentBits file v off im.sz n))) Any k
  | 0, im, off, k, hw => ⟨hw, fun _ => ⟨le_refl _, fun _ _ => rfl, nofun⟩⟩
  | n + 1, im, off, k, hw => by
    unfold segmentBits
    refine wp_ite (fun _ => ⟨hw, nofun⟩) (fun _ => ?_)
    by_cases hty : le (readi file off 56) 0 4 ≠ 1
    · rw [if_pos hty, if_pos hty]
      exact loadSegments_loaded n hw
    rw [if_neg hty, if_neg hty]
    refine wp_ite (fun _ => ⟨hw, nofun⟩) (fun _ => wp_ite (fun _ => ⟨hw, nofun⟩) (fun _ => ?_))
    refine wp_ite (fun _ => ⟨hw, nofun⟩) (fun _ => ?_)
    generalize hflags : le (readi file off 56) 4 4 = flags
    generalize htop : le (readi file off 56) 16 8 + le (readi file off 56) 40 8 = top
    refine wp_then (uvmalloc_laid hw) (fun r k1 ⟨hw1, hr⟩ => ?_)
    obtain ⟨sz1, t⟩ := r
    refine wp_ite (fun _ => ⟨hw1, nofun⟩) (fun h0 => ?_)
    refine wp_skip any (fun r k2 => ?_)
    refine wp_ite (fun _ => ?_) (fun _ => ⟨hw1, nofun⟩)
    -- the size after this segment, and what it has laid out
    have hsz1 : sz1 = max im.sz top := by
      rcases hr with ⟨h, _⟩ | ⟨h, _, _⟩ | ⟨h, _, _⟩ <;> omega
    have hlow : ∀ u, u < pgs im.sz → t.pte u = im.pt.pte u := by
      intro u hu
      rcases hr with ⟨h, _⟩ | ⟨_, _, hp⟩ | ⟨_, _, hl⟩
      · exact absurd h h0
      · rw [hp]
      · exact hl.same u (by omega)
    have hmono : pgs im.sz ≤ pgs sz1 := pgs_mono (by omega)
    refine wp_use (loadSegments_loaded (v := v) n hw1) (fun r _ ⟨hwr, hrec⟩ => ⟨hwr, fun hok => ?_⟩)
    have hl := hrec hok
    constructor
    · have := hl.sz
      dsimp only at this
      omega
    · intro u hu
      rw [hl.same u (by dsimp only; omega)]
      exact hlow u hu
    intro w x hb
    split at hb
    · rename_i hv
      obtain ⟨rfl, rfl⟩ := Prod.mk.inj (Option.some.inj hb)
      rcases hr with ⟨h, _⟩ | ⟨_, hlt, _⟩ | ⟨hsz, _, hlaid⟩
      · exact absurd h h0
      · have := pgs_mono (le_of_lt hlt)
        omega
      · subst hsz
        refine ⟨lt_of_lt_of_le hv.2 (pgs_mono hl.sz), ?_⟩
        rw [hl.same v hv.2]
        exact hlaid.laid v hv.1 hv.2
    · exact hl.has w x (by rw [hsz1]; exact hb)

theorem pushBytes_pushing {bs : List UInt8} (hp : Wf im.pt) (ho : Wf own) :
    wp (pushBytes im own psz sp bs) (fun r _ => Pushing im r.2.1 own r.2.2) Any k := by
  have hmove : wp (copyout ⟨im.pt, some own⟩ psz sp bs) (fun r _ => Moves ⟨im.pt, some own⟩ r.2.1) Any k :=
    copyout_moves hp ho
  exact wp_then hmove (fun r _ h => ⟨h.pt, h.mine, rfl⟩)

theorem pushArgs_pushing : ∀ (argv : List (List UInt8)) {im : Image} {own : Pt} {sp : Nat}
    {ustack : List Nat} {k : Kmem}, Wf im.pt → Wf own →
    wp (pushArgs psz b im own sp ustack argv) (fun r _ => Pushing im r.2.1 own r.2.2.1) Any k
  | [], im, own, sp, ustack, k, hp, ho => .refl hp ho
  | arg :: argv, im, own, sp, ustack, k, hp, ho => by
    refine wp_ite (fun _ => .refl hp ho) (fun _ => wp_ite (fun _ => .refl hp ho) (fun _ => ?_))
    refine wp_then (pushBytes_pushing hp ho) (fun r k1 h1 => ?_)
    refine wp_ite (fun _ => ?_) (fun _ => h1)
    exact wp_use (pushArgs_pushing argv h1.pt.wf h1.own.wf) (fun r _ => h1.trans)

theorem setupStack_tables (hp : Wf im.pt) (ho : Wf own) :
    wp (setupStack im own psz argv) (fun r _ => Evolves own r.2.2 ∧ (r.1 = true →
      pgs im.sz ≤ pgs r.2.1.sz ∧ ∀ v, v < pgs im.sz → Ages (im.pt.pte v) (r.2.1.pt.pte v))) Any k := by
  have hpgs : pgs (pgs im.sz * 4096) = pgs im.sz := pgs_mul _
  unfold setupStack
  refine wp_then (uvmalloc_laid hp) (fun r k1 ⟨hw1, hr⟩ => ?_)
  obtain ⟨sz1, t1⟩ := r
  refine wp_ite (fun _ => ⟨.refl ho, nofun⟩) (fun h0 => ?_)
  have hlaid : sz1 = pgs im.sz * 4096 + 2 * 4096 ∧ ∀ u, u < pgs im.sz → t1.pte u = im.pt.pte u := by
    rcases hr with ⟨h, _⟩ | ⟨_, h, _⟩ | ⟨h, _, hl⟩
    · exact absurd h h0
    · omega
    · exact ⟨h, fun u hu => hl.same u (by rw [hpgs]; omega)⟩
  obtain ⟨hsz1, hsame⟩ := hlaid
  have hbase : sz1 - 4096 = (pgs im.sz + 1) * 4096 := by omega
  rw [hbase]
  refine wp_then (uvmclear_pte hw1) (fun t2 k2 ⟨hw2, hclear⟩ => ?_)
  refine wp_then (pushArgs_pushing argv hw2 ho) (fun r k3 h3 => ?_)
  obtain ⟨ok, im3, own3, sp, ustack⟩ := r
  -- whatever is pushed from here on, the program's pages are those of the image
  have hdone : ∀ {im' : Image} {own' : Pt}, Pushing im3 im' own3 own' → Evolves own own' ∧
      (true = true → pgs im.sz ≤ pgs im'.sz ∧ ∀ v, v < pgs im.sz → Ages (im.pt.pte v) (im'.pt.pte v)) := by
    intro im' own' h
    have hall := h3.trans h
    refine ⟨hall.own, fun _ => ⟨?_, fun v hv => ?_⟩⟩
    · rw [hall.sz]
      unfold pgs at hsz1 ⊢
      dsimp only
      omega
    · have hage := hall.pt.ages v
      rwa [hclear v (by omega), hsame v hv] at hage
  have hstop : Evolves own own3 ∧ (false = true → pgs im.sz ≤ pgs im3.sz ∧
      ∀ v, v < pgs im.sz → Ages (im.pt.pte v) (im3.pt.pte v)) := ⟨h3.own, nofun⟩
  refine wp_ite (fun _ => ?_) (fun _ => ?_)
  · exact hstop
  refine wp_ite (fun _ => ?_) (fun _ => ?_)
  · exact hstop
  refine wp_use (pushBytes_pushing h3.pt.wf h3.own.wf) (fun r _ h4 => ?_)
  exact ⟨(hdone h4).1, fun _ => (hdone h4).2 rfl⟩

theorem kexec_tables (ho : Wf own) : wp (kexec file argv own psz tf) (fun r _ => ExecTables file own r) Any k := by
  have hkeep : ExecTables file own (.inl own) := Evolves.refl ho
  unfold kexec
  cases file with
  | none => exact hkeep
  | some file =>
    refine wp_ite (fun _ => hkeep) (fun _ => wp_ite (fun _ => hkeep) (fun _ => ?_))
    refine wp_then procPagetable_blank (fun r k1 hblank => ?_)
    cases r with
    | none => exact hkeep
    | some t =>
      obtain ⟨hwt, -⟩ := hblank t rfl
      rw [wp_bind]
      -- the segments are known for every page at once
      have hload : wp (loadSegments file ⟨t, 0, []⟩ (le (readi file 0 64) 32 8 % 2 ^ 32) (le (readi file 0 64) 56 2))
          (fun r _ => Wf r.2.pt ∧ (r.1 = true → ∀ v, Loaded ⟨t, 0, []⟩ r.2 v (imageBits file v))) Any k1 := by
        unfold wp
        split
        · rename_i r k2 hm
          refine ⟨(wp_of_ok (loadSegments_loaded (v := 0) _ hwt) hm).1, fun hok v => ?_⟩
          exact (wp_of_ok (loadSegments_loaded (v := v) _ hwt) hm).2 hok
        · trivial
      refine wp_use hload (fun r k2 ⟨hwr, hl⟩ => ?_)
      obtain ⟨ok, im⟩ := r
      refine wp_ite (fun _ => wp_skip any (fun _ _ => hkeep)) (fun hok => ?_)
      have hok : ok = true := by simpa using hok
      refine wp_then (setupStack_tables hwr ho) (fun r k3 ⟨hown, hst⟩ => ?_)
      obtain ⟨ok2, im2, own2⟩ := r
      refine wp_ite (fun hok2 => wp_skip any (fun _ _ => ?_)) (fun _ => wp_skip any (fun _ _ => hown))
      rintro f ⟨⟩ v w x hb
      obtain ⟨hv, pa, he⟩ := (hl hok v).has w x hb
      obtain ⟨hsz, hages⟩ := hst hok2
      refine ⟨Nat.lt_of_lt_of_le hv hsz, pa, ?_⟩
      rw [← he]
      exact hages v hv

theorem fetchArgs_evolves : ∀ (n : Nat) {t : Pt} {pages : List Nat} {argv : List (List UInt8)} {k : Kmem},
    Wf t → wp (fetchArgs sz uargv t pages argv n) (fun r _ => Evolves t r.2.1) Any k
  | 0, t, pages, argv, k, hw => .refl hw
  | n + 1, t, pages, argv, k, hw => by
    have hmove : wp (copyin ⟨t, none⟩ sz ((uargv + 8 * argv.length) % 2 ^ 64) 8)
        (fun r _ => Moves ⟨t, none⟩ r.2) Any k := copyin_moves hw hw
    refine wp_ite (fun _ => .refl hw) (fun _ => ?_)
    refine wp_then hmove (fun r k1 h1 => ?_)
    obtain ⟨b, a⟩ := r
    have he : Evolves t a.pt := h1.pt
    cases b with
    | none => exact he
    | some b =>
      refine wp_ite (fun _ => he) (fun _ => ?_)
      refine wp_skip any (fun r k2 => ?_)
      cases r with
      | none => exact he
      | some p =>
        rw [wp_bind, wp_get]
        split
        · exact he
        · exact wp_use (fetchArgs_evolves n he.wf) (fun r _ => he.trans)

theorem sysExec_tables (ho : Wf own) : wp (sysExec file own psz tf uargv) (fun r _ => ExecTables file own r) Any k := by
  refine wp_then (fetchArgs_evolves 32 ho) (fun r k1 h1 => ?_)
  obtain ⟨ok, own1, pages, argv⟩ := r
  rw [wp_bind]
  have hexec : wp (if ok then kexec file argv own1 psz tf else pure (.inl own1))
      (fun r _ => ExecTables file own r) Any k1 := by
    refine wp_ite (fun _ => ?_) (fun _ => h1)
    exact wp_use (kexec_tables h1.wf) (fun r _ => .before h1)
  exact wp_use hexec (fun r _ hr => wp_skip any (fun _ _ => hr))

end Xv6.Vm
