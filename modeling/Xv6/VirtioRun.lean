import Xv6.VirtioFlight
import Xv6.LibFifo
/-!
# VirtioRun — the request protocol over whole runs

Every step keeps `Inv`, so that in every run the descriptors are free or in the chain of one request, no completion is lost or
consumed twice, a call returns after its own completion and nothing panics (`virtio_protocol`).
-/
namespace Xv6.Virtio

open Function List Wp

/-- **What is in the rings**: `A` is published and not fetched, `U` is completed and not consumed. -/
structure Rings (d : Disk) (seen : Nat) (A U : List Nat) : Prop where
  avail : ∃ t, Fifo.Holds num (2 ^ 16) d.availRing seen d.availIdx t A
  used : ∃ t, Fifo.Holds num (2 ^ 16) d.usedRing d.seenIdx d.usedIdx t U

/-- **A call holds the sleep-lock of its buffer.** -/
def Owners (owner : Buf → Option Pid) (pc : Pid → Pc) : Prop := ∀ p b, (pc p).buf = some b → owner b = some p

/-- **No wakeup is lost**: a call sleeps on its buffer only while the disk has it. -/
def Sleeps (bdisk : Buf → Bool) (pc : Pid → Pc) : Prop := ∀ p r, pc p = .sleepBuf r → bdisk r.b = true

structure Inv (s : St) : Prop where
  owners : Owners s.owner s.pc
  sleeps : Sleeps s.bdisk s.pc
  panic : s.panic = none
  flying : ∃ A U, Rings s.disk s.dev.seen A U ∧
    Flying (fun p => (s.pc p).flight) s.disk s.bdisk s.hist (A ++ s.dev.work) U

/-- **What a step may do with a process**: a call returns with its own request completed and consumed, a request is made for
the buffer of the call and with a number that no completion has, and it stays until the call returns. -/
structure Proper (hist : Hist) (pc pc' : Pc) : Prop where
  returns : pc ≠ .idle → pc' = .idle →
    ∃ r, pc.flight = some r ∧ pc.buf = some r.b ∧ (r.id, some r.b) ∈ hist.completed ∧ (r.id, some r.b) ∈ hist.consumed
  makes : ∀ r, pc.flight = none → pc'.flight = some r → pc.buf = some r.b ∧ r.id ∉ hist.completed.map Prod.fst
  keeps : pc' ≠ .idle → pc ≠ .idle → pc'.buf = pc.buf ∧ ∀ r, pc.flight = some r → pc'.flight = some r

/-- **A turn of the handler** consumes the oldest completion that is left; it returns only when none is. -/
def Handles (s s' : St) : Prop :=
  if s'.intr = true then
    ∃ e left, s.hist.completed = s.hist.consumed ++ e :: left ∧ s'.hist.consumed = s.hist.consumed ++ [e]
  else s.hist.completed = s.hist.consumed

/-- A step from a state that keeps the protocol. -/
def Kept (s s' : St) : Prop := Inv s' ∧ ∀ p, Proper s.hist (s.pc p) (s'.pc p)

variable {s s' : St} {i : Nat} {p q : Pid} {r : Req} {hist : Hist} {pc pc' : Pc} {write : Bool}

theorem buf_eq_none : pc.buf = none ↔ pc = .idle := by cases pc <;> simp [Pc.buf]

theorem buf_of_flight (h : pc.flight = some r) : pc.buf = some r.b := by
  cases pc with
  | wait r' =>
    cases h
    rfl
  | sleepBuf r' =>
    cases h
    rfl
  | _ => cases h

theorem Proper.same (hfl : pc'.flight = pc.flight) (hbuf : pc'.buf = pc.buf) : Proper hist pc pc' := by
  constructor
  · intro hne he
    rw [← buf_eq_none, hbuf, buf_eq_none] at he
    exact absurd he hne
  · intro r hn hs
    rw [hfl, hn] at hs
    cases hs
  · exact fun _ _ => ⟨hbuf, fun r hr => hfl.trans hr⟩

theorem Proper.call (hfl : pc'.flight = none) : Proper hist .idle pc' := by
  constructor
  · exact fun hne => absurd rfl hne
  · intro r _ hs
    rw [hfl] at hs
    cases hs
  · exact fun _ hne => absurd rfl hne

theorem proper_of (hp : Proper hist (s.pc p) (s'.pc p))
    (ho : ∀ q, q ≠ p → (s'.pc q).flight = (s.pc q).flight ∧ (s'.pc q).buf = (s.pc q).buf) (q : Pid) :
    Proper hist (s.pc q) (s'.pc q) := by
  by_cases e : q = p
  · rw [e]
    exact hp
  · exact Proper.same (ho q e).1 (ho q e).2

theorem proper_update (hp : Proper hist (s.pc p) pc') (q : Pid) : Proper hist (s.pc q) (update s.pc p pc' q) := by
  by_cases e : q = p
  · rw [e, update_self]
    exact hp
  · rw [update_of_ne e]
    exact Proper.same rfl rfl

/-! ## Steps that move processes only -/

theorem Owners.keep {owner : Buf → Option Pid} {f g : Pid → Pc} (h : Owners owner f)
    (hbuf : ∀ p, (g p).buf = (f p).buf ∨ (g p).buf = none) : Owners owner g := by
  intro p b hp
  rcases hbuf p with e | e
  · exact h p b (e.symm.trans hp)
  · rw [e] at hp
    cases hp

theorem buf_update (hpc : pc'.buf = (s.pc p).buf) (q : Pid) :
    (update s.pc p pc' q).buf = (s.pc q).buf ∨ (update s.pc p pc' q).buf = none := by
  left
  by_cases e : q = p
  · rw [e, update_self]
    exact hpc
  · rw [update_of_ne e]

theorem flight_update (s : St) (p : Pid) (pc' : Pc) :
    (fun q => (update s.pc p pc' q).flight) = update (fun q => (s.pc q).flight) p pc'.flight := by
  funext q
  by_cases e : q = p
  · rw [e, update_self, update_self]
  · rw [update_of_ne e, update_of_ne e]

theorem flight_update_same (hpc : pc'.flight = (s.pc p).flight) :
    (fun q => (update s.pc p pc' q).flight) = fun q => (s.pc q).flight := by
  rw [flight_update, hpc]
  exact update_eq_self p _

theorem Sleeps.update {bdisk : Buf → Bool} {f : Pid → Pc} (h : Sleeps bdisk f)
    (hpc : ∀ r, pc' = .sleepBuf r → bdisk r.b = true) : Sleeps bdisk (update f p pc') := by
  intro q r hq
  by_cases e : q = p
  · rw [e, update_self] at hq
    exact hpc r hq
  · rw [update_of_ne e] at hq
    exact h q r hq

theorem Inv.move (h : Inv s) (hown : Owners s'.owner s'.pc) (hsleep : Sleeps s.bdisk s'.pc) (hpanic : s'.panic = none)
    (hdisk : s'.disk = s.disk) (hdev : s'.dev = s.dev) (hbdisk : s'.bdisk = s.bdisk) (hhist : s'.hist = s.hist)
    (hfl : (fun p => (s'.pc p).flight) = fun p => (s.pc p).flight) : Inv s' := by
  refine ⟨hown, hbdisk ▸ hsleep, hpanic, ?_⟩
  rw [hdisk, hdev, hbdisk, hhist, hfl]
  exact h.flying

theorem Inv.idled (h : Inv s) (hi : Idled s s') : Inv s' := by
  obtain ⟨hown, hsleep, hpanic, A, U, hr, hf⟩ := h
  have hrest := hi.rest
  have howner : s'.owner = s.owner := by rw [hrest]
  have hdev : s'.dev = s.dev := by rw [hrest]
  have hbdisk : s'.bdisk = s.bdisk := by rw [hrest]
  have hhist : s'.hist = s.hist := by rw [hrest]
  have hpan : s'.panic = s.panic := by rw [hrest]
  refine ⟨howner ▸ hown.keep (fun p => .inl (hi.buf p)), fun p r hp => ?_, hpan.trans hpanic, A, U, ?_, ?_⟩
  · rw [hbdisk]
    exact hsleep p r (hi.sleeps p r hp)
  · rw [hdev, hi.disk]
    exact ⟨hr.avail, hr.used⟩
  · have hfl : (fun p => (s'.pc p).flight) = fun p => (s.pc p).flight := funext hi.flight
    rw [hfl, hdev, hbdisk, hhist]
    exact hf.congr (by rw [hi.disk]) hi.desc (by rw [hi.disk])

variable {b : Buf} {blockno k : Nat} {d : Disk}

theorem Owners.pass {o : Option Pid} (h : Owners s.owner s.pc) (hb : ∀ q, (s.pc q).buf ≠ some b) :
    Owners (update s.owner b o) s.pc := by
  intro q c hq
  have hcb : c ≠ b := fun e => hb q (e ▸ hq)
  rw [update_of_ne hcb]
  exact h q c hq

theorem Owners.call (h : Owners s.owner s.pc) (hb : s.owner b = some p) (hpc : pc'.buf = some b) :
    Owners s.owner (update s.pc p pc') := by
  intro q c hq
  by_cases e : q = p
  · rw [e, update_self, hpc] at hq
    rw [← Option.some.inj hq, hb, e]
  · rw [update_of_ne e] at hq
    exact h q c hq

/-! ## `virtio_disk_rw` -/

theorem locking_spec {m : DM Unit} {P : St → Prop} (h : wp m (fun _ s' => P s') (fun _ => False) s)
    (hs : locking m s = some s') : P s' := by
  obtain ⟨_, s1, hm, hP⟩ := wp_run h
  unfold locking at hs
  rw [hm] at hs
  cases hs
  exact hP

theorem freed_free (s : St) (r : Req) (i : Nat) :
    (freed (freed (freed s r.i0) r.i1) r.i2).disk.free i = if i ∈ r.chain then true else s.disk.free i := by
  simp only [freed, Req.chain, update_apply]
  split_ifs <;> simp_all

theorem freed_desc (s : St) (r : Req) (h : i ∉ r.chain) :
    (freed (freed (freed s r.i0) r.i1) r.i2).disk.desc i = s.disk.desc i := by
  simp only [Req.chain, mem_cons, not_mem_nil, or_false, not_or] at h
  simp [freed, update_of_ne h.1, update_of_ne h.2.1, update_of_ne h.2.2]

def cleared (s : St) (r : Req) : St :=
  { s with disk := { s.disk with info := update s.disk.info r.i0 { s.disk.info r.i0 with b := none } } }

def returned (s : St) (p : Pid) (r : Req) : St :=
  { freed (freed (freed (cleared s r) r.i0) r.i1) r.i2 with
    pc := update (freed (freed (freed (cleared s r) r.i0) r.i1) r.i2).pc p .idle }

theorem returned_pc (s : St) (p : Pid) (r : Req) : (returned s p r).pc p = .idle := update_self ..

theorem returned_other (s : St) (r : Req) (h : q ≠ p) :
    (returned s p r).pc q = (((s.pc q).wake .free).wake .free).wake .free := update_of_ne h _ _

theorem returned_kept (h : Inv s) (hp : s.pc p = .wait r) (hdone : s.bdisk r.b = false) : Kept s (returned s p r) := by
  have hflp : (s.pc p).flight = some r := by rw [hp]; rfl
  have hbuf : ∀ q, ((returned s p r).pc q).buf = (s.pc q).buf ∨ ((returned s p r).pc q).buf = none := by
    intro q
    by_cases e : q = p
    · rw [e, returned_pc]
      exact .inr rfl
    · rw [returned_other s r e, buf_wake, buf_wake, buf_wake]
      exact .inl rfl
  obtain ⟨hown, hsleep, hpanic, A, U, hr, hf⟩ := h
  constructor
  · have hsl : Sleeps s.bdisk (returned s p r).pc := by
      refine Sleeps.update (fun q r' hq => ?_) nofun
      exact hsleep q r' (sleeps_of_wake (sleeps_of_wake (sleeps_of_wake hq).1).1).1
    refine ⟨hown.keep hbuf, hsl, hpanic, A, U, ⟨hr.avail, hr.used⟩, ?_⟩
    have hfl : (fun q => ((returned s p r).pc q).flight) = update (fun q => (s.pc q).flight) p none := by
      funext q
      by_cases e : q = p
      · rw [e, returned_pc, update_self]
        rfl
      · rw [returned_other s r e, flight_wake, flight_wake, flight_wake, update_of_ne e]
    rw [hfl]
    exact hf.remove hflp hdone (freed_free _ r) (fun i => freed_desc _ r) (fun i hi => update_of_ne hi _ _)
  · apply proper_of
    · rw [returned_pc]
      constructor
      · exact fun _ _ => ⟨r, hflp, buf_of_flight hflp, hf.returned hflp hdone⟩
      · intro r' hn
        rw [hflp] at hn
        cases hn
      · exact fun hne => absurd rfl hne
    · intro q e
      rw [returned_other s r e]
      simp [flight_wake, buf_wake, and_self]

theorem rwWait_spec (h : Inv s) (hp : s.pc p = .wait r) : wp (rwWait p r) (fun _ s' => Kept s s') (fun _ => False) s := by
  unfold rwWait
  apply wp_ite
  · intro hb
    constructor
    · have hsl : Sleeps s.bdisk (update s.pc p (.sleepBuf r)) := h.sleeps.update (fun r' e => by cases e; exact hb)
      exact h.move (h.owners.keep (buf_update (by rw [hp]; rfl))) hsl h.panic rfl rfl rfl rfl
        (flight_update_same (by rw [hp]; rfl))
    · exact proper_update (Proper.same (by rw [hp]; rfl) (by rw [hp]; rfl))
  intro hb
  obtain ⟨A, U, -, hf⟩ := h.flying
  have hc := hf.chain p r (by rw [hp]; rfl)
  rw [wp_bind]
  unfold modifyDisk
  rw [wp_modify, wp_bind]
  apply freeChain_spec
  · exact ⟨hc.lt, hc.nodup, hc.taken, hc.first, hc.second, hc.third⟩
  · exact returned_kept h hp (Bool.eq_false_iff.2 hb)

def requested (d : Disk) (blockno : Nat) (write : Bool) (r : Req) : Disk :=
  { d with
    ops := update d.ops r.i0 ⟨if write then 1 else 0, 0, blockno * 2⟩
    desc := update (update (update d.desc r.i0 ⟨.op r.i0, 16, fNext, r.i1⟩)
      r.i1 ⟨.data r.b, 1024, (if write then 0 else fWrite) ||| fNext, r.i2⟩) r.i2 ⟨.status r.i0, 1, fWrite, 0⟩
    info := update (update d.info r.i0 { d.info r.i0 with status := 0xff }) r.i0 ⟨some r.b, 0xff⟩
    availRing := update d.availRing (d.availIdx % num) r.i0
    availIdx := (d.availIdx + 1) % 2 ^ 16 }

def submitted (s : St) (p : Pid) (blockno : Nat) (write : Bool) (r : Req) : St :=
  { s with
    disk := requested s.disk blockno write r
    bdisk := update s.bdisk r.b true
    pc := update s.pc p (.sleepBuf r)
    hist := { s.hist with next := s.hist.next + 1, tag := update s.hist.tag r.i0 s.hist.next } }

theorem rwSubmit_spec {i0 i1 i2 : Nat} {Q : Unit → St → Prop} {F : Panic → Prop}
    (h : Q () (submitted s p blockno write ⟨b, i0, i1, i2, s.hist.next⟩)) :
    wp (rwSubmit p b blockno write i0 i1 i2) Q F s := by
  unfold rwSubmit format publish number rwWait modifyDisk
  simp only [wp_bind, wp_get, wp_set, wp_modify, wp_pure]
  simp only [update_self]
  exact h

theorem requested_linked (hlt : ∀ i ∈ r.chain, i < num) (hnd : r.chain.Nodup)
    (hfree : ∀ i ∈ r.chain, d.free i = false) : Chained (requested d blockno write r) r := by
  have hne := hnd
  simp only [Req.chain, nodup_cons, mem_cons, not_mem_nil, or_false, not_or, not_false_eq_true, nodup_nil,
    and_true] at hne
  obtain ⟨⟨h01, h02⟩, h12⟩ := hne
  have hd0 : (requested d blockno write r).desc r.i0 = ⟨.op r.i0, 16, fNext, r.i1⟩ := by
    simp [requested, update_of_ne h02, update_of_ne h01, update_self]
  have hd1 : (requested d blockno write r).desc r.i1 = ⟨.data r.b, 1024, (if write then 0 else fWrite) ||| fNext, r.i2⟩ := by
    simp only [requested, update_of_ne h12, update_self]
  have hd2 : (requested d blockno write r).desc r.i2 = ⟨.status r.i0, 1, fWrite, 0⟩ := update_self ..
  refine ⟨⟨hlt, hnd, hfree, ?_, ?_, ?_⟩, ?_⟩
  · rw [hd0]
    exact ⟨decide_eq_true (show fNext &&& fNext ≠ 0 by decide), rfl⟩
  · have hflags : ((if write then 0 else fWrite) ||| fNext) &&& fNext ≠ 0 := by cases write <;> decide
    rw [hd1]
    exact ⟨decide_eq_true hflags, rfl, rfl⟩
  · rw [hd2]
    exact ⟨decide_eq_false (show ¬ fWrite &&& fNext ≠ 0 by decide), rfl⟩
  · simp [requested, update_self]

def taken3 (s : St) (r : Req) : St := taken (taken (taken s r.i0) r.i1) r.i2

theorem taken3_free (s : St) (r : Req) (i : Nat) :
    (taken3 s r).disk.free i = if i ∈ r.chain then false else s.disk.free i := by
  simp only [taken3, taken, Req.chain, update_apply]
  split_ifs <;> simp_all

theorem requested_desc (h : i ∉ r.chain) : (requested d blockno write r).desc i = d.desc i := by
  simp only [Req.chain, mem_cons, not_mem_nil, or_false, not_or] at h
  simp [requested, update_of_ne h.1, update_of_ne h.2.1, update_of_ne h.2.2]

section
variable (h : Inv s)
include h

theorem submitted_kept (hp : s.pc p = .alloc r.b blockno write) (hnd : r.chain.Nodup)
    (hwas : ∀ i ∈ r.chain, i < num ∧ s.disk.free i = true) (hid : r.id = s.hist.next) :
    Kept s (submitted (taken3 s r) p blockno write r) := by
  obtain ⟨hown, hsleep, hpanic, A, U, hr, hf⟩ := h
  have hpb : (s.pc p).buf = some r.b := by rw [hp]; rfl
  have hpf : (s.pc p).flight = none := by rw [hp]; rfl
  have hfresh : r.id ∉ s.hist.completed.map Prod.fst := by
    intro hm
    obtain ⟨e, he, hide⟩ := mem_map.1 hm
    have hlt := hf.numbers e he
    omega
  -- the sleep-lock of the buffer is held, so that no other request has it
  have hbne : ∀ q r', (s.pc q).flight = some r' → r'.b ≠ r.b := by
    intro q r' hq he
    have hqo := hown q r'.b (buf_of_flight hq)
    rw [he, hown p r.b hpb] at hqo
    rw [← Option.some.inj hqo, hpf] at hq
    cases hq
  have hchain : Chained (requested (taken3 s r).disk blockno write r) r := by
    refine requested_linked (fun i hi => (hwas i hi).1) hnd (fun i hi => ?_)
    rw [taken3_free, if_pos hi]
  have hadd := hf.add (p := p) hpf hchain (fun i hi => (hwas i hi).2)
    (fun i hi => (taken3_free s r i).trans (if_neg hi)) (fun i hi => requested_desc hi)
    (fun i hi => by simp only [requested, update_of_ne hi]; rfl) hbne hid
  have hperm : (A ++ [r.i0] ++ s.dev.work).Perm (r.i0 :: (A ++ s.dev.work)) := by
    rw [append_assoc]
    exact perm_middle
  have hroom : A.length < num := by
    have hle := hadd.length_le
    rw [length_cons, length_append] at hle
    omega
  obtain ⟨t, ht⟩ := hr.avail
  constructor
  · have hsl : Sleeps (update s.bdisk r.b true) (update s.pc p (.sleepBuf r)) := by
      refine Sleeps.update (fun q r' hq => ?_) (fun r' e => by cases e; exact update_self ..)
      rw [update_of_ne (hbne q r' (by rw [hq]; rfl))]
      exact hsleep q r' hq
    refine ⟨hown.keep (buf_update hpb.symm), hsl, hpanic, A ++ [r.i0], U, ⟨⟨t, ht.push (by decide) hroom r.i0⟩, hr.used⟩, ?_⟩
    have hfl : (fun q => ((submitted (taken3 s r) p blockno write r).pc q).flight) =
        update (fun q => (s.pc q).flight) p (some r) := flight_update s p (.sleepBuf r)
    rw [hfl]
    exact hadd.perm hperm
  · apply proper_update
    constructor
    · exact fun _ he => nomatch he
    · intro r' _ hr'
      obtain rfl : r = r' := Option.some.inj hr'
      exact ⟨hpb, hfresh⟩
    · refine fun _ _ => ⟨hpb.symm, fun r' hr' => ?_⟩
      rw [hpf] at hr'
      cases hr'

theorem rwAlloc_spec (hp : s.pc p = .alloc b blockno write) :
    wp (rwAlloc p b blockno write) (fun _ s' => Kept s s') (fun _ => False) s := by
  unfold rwAlloc
  rw [wp_bind]
  apply alloc3Desc_spec
  · intro s1 hi
    have hbuf : (s1.pc p).buf = some b := by rw [hi.buf, hp]; rfl
    have hfl : (s1.pc p).flight = none := by rw [hi.flight, hp]; rfl
    constructor
    · have h1 := h.idled hi
      exact h1.move (h1.owners.keep (buf_update hbuf.symm)) (h1.sleeps.update nofun) h1.panic rfl rfl rfl rfl
        (flight_update_same hfl.symm)
    apply proper_of
    · dsimp only
      rw [hp, update_self]
      exact Proper.same rfl rfl
    · intro q e
      dsimp only
      rw [update_of_ne e]
      exact ⟨hi.flight q, hi.buf q⟩
  · intro i0 i1 i2 hnd hwas
    apply rwSubmit_spec
    exact submitted_kept (r := ⟨b, i0, i1, i2, s.hist.next⟩) h hp hnd hwas rfl

/-! ## `virtio_disk_intr` and the device -/

theorem intrTurn_spec : wp intrTurn (fun _ s' => Kept s s' ∧ (s.intr = true → Handles s s')) (fun _ => False) s := by
  unfold intrTurn
  apply wp_ite
  · intro heq
    refine ⟨⟨h.move h.owners h.sleeps h.panic rfl rfl rfl rfl rfl, fun p => Proper.same rfl rfl⟩, fun _ => ?_⟩
    obtain ⟨A, U, ⟨-, t, ht⟩, hf⟩ := h.flying
    have hq := hf.queue
    rw [(ht.empty_iff (by decide)).1 heq, map_nil, append_nil] at hq
    exact hq
  intro hne
  obtain ⟨hown, hsleep, hpanic, A, U, hr, hf⟩ := h
  obtain ⟨t, ht⟩ := hr.used
  cases U with
  | nil => exact absurd ((ht.empty_iff (by decide)).2 rfl) hne
  | cons i U =>
    obtain ⟨hid, hpop⟩ := ht.pop (by decide)
    obtain ⟨b, hstatus, hb, hcons⟩ := hf.consume
    rw [hid]
    rw [if_neg (not_not.2 hstatus), hb]
    refine ⟨⟨?_, fun p => Proper.same (flight_wake _ _) (buf_wake _ _)⟩, fun hintr => ?_⟩
    · refine ⟨hown.keep (fun p => .inl (buf_wake _ _)), fun p r hp => ?_, hpanic, A, U, ⟨hr.avail, t + 1, hpop⟩, ?_⟩
      · -- who slept on the buffer of the completion has been woken
        obtain ⟨hslept, hother⟩ := sleeps_of_wake hp
        have hbne : r.b ≠ b := fun e => hother (e ▸ rfl)
        exact (update_of_ne hbne _ _).trans (hsleep p r hslept)
      · simp only [flight_wake]
        exact hcons.congr rfl (fun _ _ => rfl) rfl
    · have hq := hf.queue
      rw [map_cons, hb] at hq
      exact (if_pos hintr).mpr ⟨_, _, hq, rfl⟩

theorem fetch_spec (hs : fetch s = some s') : Kept s s' := by
  unfold fetch at hs
  split at hs
  · cases hs
  rename_i hne
  cases hs
  refine ⟨⟨h.owners, h.sleeps, h.panic, ?_⟩, fun p => Proper.same rfl rfl⟩
  obtain ⟨A, U, hr, hf⟩ := h.flying
  obtain ⟨t, ht⟩ := hr.avail
  cases A with
  | nil => exact absurd ((ht.empty_iff (by decide)).2 rfl) hne
  | cons i A =>
    obtain ⟨hi, hpop⟩ := ht.pop (by decide)
    refine ⟨A, U, ⟨⟨t + 1, hpop⟩, hr.used⟩, ?_⟩
    rw [hi]
    apply hf.perm
    rw [← append_assoc]
    exact perm_append_comm

theorem complete_spec (hs : complete s k = some s') : Kept s s' := by
  unfold complete at hs
  split at hs
  · cases hs
  rename_i i hi
  cases hs
  refine ⟨⟨h.owners, h.sleeps, h.panic, ?_⟩, fun p => Proper.same rfl rfl⟩
  obtain ⟨A, U, hr, hf⟩ := h.flying
  obtain ⟨hk, hget⟩ := List.getElem?_eq_some_iff.1 hi
  have hperm : (i :: (A ++ s.dev.work.eraseIdx k)).Perm (A ++ s.dev.work) := by
    have hwork : (i :: s.dev.work.eraseIdx k).Perm s.dev.work := by
      rw [← hget]
      exact List.getElem_cons_eraseIdx_perm hk
    exact List.perm_middle.symm.trans (hwork.append_left A)
  have hdone : Flying _ { s.disk with
      info := writeStatus s.disk i
      usedRing := update s.disk.usedRing (s.disk.usedIdx % num) i
      usedIdx := (s.disk.usedIdx + 1) % 2 ^ 16 } _ _ _ _ := (hf.perm hperm).complete rfl rfl rfl
  have hroom : U.length < num := by
    have hle := hdone.length_le
    rw [List.length_append, List.length_append, List.length_singleton] at hle
    omega
  obtain ⟨t, ht⟩ := hr.used
  exact ⟨A, U ++ [i], ⟨hr.avail, t, ht.push (by decide) hroom i⟩, hdone⟩

/-! ## Runs -/

theorem step_kept {a : Act} (hs : step s a = some s') : Kept s s' := by
  unfold step at hs
  rw [if_neg (not_not.2 h.panic)] at hs
  cases a with
  | lockBuf p b =>
    dsimp only at hs
    split at hs
    · rename_i hc
      cases hs
      have hno : ∀ q, (s.pc q).buf ≠ some b := by
        intro q hq
        rw [h.owners q b hq] at hc
        cases hc.2
      exact ⟨h.move (h.owners.pass hno) h.sleeps h.panic rfl rfl rfl rfl rfl, fun p => Proper.same rfl rfl⟩
    · cases hs
  | unlockBuf p b =>
    dsimp only at hs
    split at hs
    · rename_i hc
      cases hs
      have hno : ∀ q, (s.pc q).buf ≠ some b := by
        intro q hq
        rw [h.owners q b hq] at hc
        rw [Option.some.inj hc.2, hc.1] at hq
        cases hq
      exact ⟨h.move (h.owners.pass hno) h.sleeps h.panic rfl rfl rfl rfl rfl, fun p => Proper.same rfl rfl⟩
    · cases hs
  | call p b blockno write =>
    dsimp only at hs
    split at hs
    · rename_i hc
      cases hs
      have hfl : (s.pc p).flight = none := by rw [hc.1]; rfl
      constructor
      · exact h.move (h.owners.call hc.2 rfl) (h.sleeps.update nofun) h.panic rfl rfl rfl rfl (flight_update_same hfl.symm)
      · apply proper_update
        rw [hc.1]
        exact Proper.call rfl
    · cases hs
  | run p =>
    dsimp only at hs
    split at hs
    · cases hs
    split at hs
    · rename_i b blockno write hpc
      exact locking_spec (rwAlloc_spec h hpc) hs
    · rename_i r hpc
      exact locking_spec (rwWait_spec h hpc) hs
    · cases hs
  | kill p =>
    cases hs
    constructor
    · have hsl : Sleeps s.bdisk (update s.pc p (s.pc p).rouse) := h.sleeps.update (fun r e => absurd e (rouse_ne _ r))
      exact h.move (h.owners.keep (buf_update (buf_rouse _))) hsl h.panic rfl rfl rfl rfl (flight_update_same (flight_rouse _))
    · exact proper_update (Proper.same (flight_rouse _) (buf_rouse _))
  | intr =>
    dsimp only at hs
    split at hs
    · cases hs
    · cases hs
      exact ⟨h.move h.owners h.sleeps h.panic rfl rfl rfl rfl rfl, fun p => Proper.same rfl rfl⟩
  | turn =>
    dsimp only at hs
    split at hs
    · exact (locking_spec (intrTurn_spec h) hs).1
    · cases hs
  | fetch => exact fetch_spec h hs
  | complete k => exact complete_spec h hs

theorem turn_handles (hs : step s .turn = some s') : Handles s s' := by
  unfold step at hs
  rw [if_neg (not_not.2 h.panic)] at hs
  dsimp only at hs
  split at hs
  · rename_i hintr
    exact (locking_spec (intrTurn_spec h) hs).2 hintr
  · cases hs

end

theorem start_inv : Inv start := by
  have hown : Owners start.owner start.pc := fun p b hp => nomatch hp
  refine ⟨hown, nofun, rfl, [], [], ⟨⟨0, Fifo.holds_nil ..⟩, 0, Fifo.holds_nil ..⟩, ?_⟩
  constructor
  case taken =>
    intro i hi hf
    exact absurd hi (of_decide_eq_false hf)
  case nodup => exact nodup_nil
  case once => exact nodup_nil
  case queue => rfl
  case numbers => intro e he; cases he
  case head => intro i hi; cases hi
  case status => intro i hi; cases hi
  all_goals
    intro p
    intros
    contradiction

/-- **The request protocol holds**: the descriptors are free or in the chain of one request in flight, the completions are
consumed once each and in order, what is left of them is in the used ring, no call sleeps whose completion has been consumed,
and there is no panic. -/
structure Safe (s : St) : Prop where
  panic : s.panic = none
  partition : ∀ i < num, s.disk.free i = false ↔ ∃ p r, (s.pc p).flight = some r ∧ i ∈ r.chain
  apart : ∀ p q r r' i, (s.pc p).flight = some r → (s.pc q).flight = some r' → i ∈ r.chain → i ∈ r'.chain → p = q
  chain : ∀ p r, (s.pc p).flight = some r → Linked s.disk r
  once : (s.hist.completed.map Prod.fst).Nodup
  queue : ∃ left, s.hist.completed = s.hist.consumed ++ left ∧
    left.length = (s.disk.usedIdx + 2 ^ 16 - s.disk.seenIdx) % 2 ^ 16
  woken : ∀ p r, s.pc p = .sleepBuf r → (r.id, some r.b) ∉ s.hist.consumed

theorem Inv.safe (h : Inv s) : Safe s := by
  obtain ⟨A, U, hr, hf⟩ := h.flying
  refine ⟨h.panic, fun i hi => ⟨hf.taken i hi, ?_⟩, hf.apart, fun p r hp => (hf.chain p r hp).toLinked, hf.once,
    ⟨_, hf.queue, ?_⟩, fun p r hp => ?_⟩
  · rintro ⟨p, r, hp, hir⟩
    exact (hf.chain p r hp).taken i hir
  · obtain ⟨t, ht⟩ := hr.used
    rw [length_map, ht.count (by decide)]
  · exact hf.pending (by rw [hp]; rfl) (h.sleeps p r hp)

/-- **Every run keeps the protocol**: every step moves the processes as `Proper` says, and the handler as `Handles` does. -/
theorem virtio_protocol (acts : List Act) :
    Run.allStates step Safe start acts ∧
      Run.allSteps step (fun s a => ∀ s', step s a = some s' →
        (∀ p, Proper s.hist (s.pc p) (s'.pc p)) ∧ (a = .turn → Handles s s')) start acts := by
  constructor
  · exact Run.allStates_mono (fun _ h => h.safe) acts start
      (Run.allStates_of_allSteps (fun s a s' h _ hs => (step_kept h hs).1) acts start start_inv (Run.allSteps_true acts start))
  · have hiff : ∀ s a, Inv s → ((∀ s', step s a = some s' →
        (∀ p, Proper s.hist (s.pc p) (s'.pc p)) ∧ (a = .turn → Handles s s')) ↔ True) := by
      refine fun s a h => iff_true_intro (fun s' hs => ⟨(step_kept h hs).2, ?_⟩)
      rintro rfl
      exact turn_handles h hs
    exact (Run.allSteps_iff (fun s a s' h _ hs => (step_kept h hs).1) hiff acts start start_inv).2
      (Run.allSteps_true acts start)

end Xv6.Virtio
