import Xv6.VirtioModel
/-!
# VirtioFlight — the requests in flight

`Flying` relates the requests in flight to the descriptors, to the two rings and to the history: `W` are the heads that the
device
has still to complete and `U` those in the used ring. A request is made, completed by the device, consumed by
`virtio_disk_intr`
and given back, and each of these keeps it.
-/
namespace Xv6.Virtio

open Function List Wp

def Pc.flight : Pc → Option Req
  | .wait r => some r
  | .sleepBuf r => some r
  | _ => none

def Pc.buf : Pc → Option Buf
  | .idle => none
  | .alloc b _ _ => some b
  | .sleepFree b _ _ => some b
  | .wait r => some r.b
  | .sleepBuf r => some r.b

/-- **A chain of three descriptors.** -/
structure Linked (d : Disk) (r : Req) : Prop where
  lt : ∀ i ∈ r.chain, i < num
  nodup : r.chain.Nodup
  taken : ∀ i ∈ r.chain, d.free i = false
  first : (d.desc r.i0).hasNext = true ∧ (d.desc r.i0).next = r.i1
  second : (d.desc r.i1).hasNext = true ∧ (d.desc r.i1).next = r.i2 ∧ (d.desc r.i1).addr = .data r.b
  third : (d.desc r.i2).hasNext = false ∧ (d.desc r.i2).addr = .status r.i0

/-- The chain of a request in flight, with its buffer in `disk.info`. -/
structure Chained (d : Disk) (r : Req) : Prop extends Linked d r where
  info : (d.info r.i0).b = some r.b

/-- **The requests in flight** `fl`: what they have of the descriptors and the history. -/
structure Flying (fl : Pid → Option Req) (d : Disk) (bdisk : Buf → Bool) (hist : Hist) (W U : List Nat) : Prop where
  chain : ∀ p r, fl p = some r → Chained d r
  apart : ∀ p q r r' i, fl p = some r → fl q = some r' → i ∈ r.chain → i ∈ r'.chain → p = q
  taken : ∀ i < num, d.free i = false → ∃ p r, fl p = some r ∧ i ∈ r.chain
  bufs : ∀ p q r r', fl p = some r → fl q = some r' → r.b = r'.b → p = q
  nodup : (W ++ U).Nodup
  busy : ∀ p r, fl p = some r → (bdisk r.b = true ↔ r.i0 ∈ W ++ U)
  head : ∀ i ∈ W ++ U, ∃ p r, fl p = some r ∧ r.i0 = i
  status : ∀ i ∈ U, (d.info i).status = 0
  tag : ∀ p r, fl p = some r → hist.tag r.i0 = r.id ∧ r.id < hist.next
  ids : ∀ p q r r', fl p = some r → fl q = some r' → r.id = r'.id → p = q
  numbers : ∀ e ∈ hist.completed, e.1 < hist.next
  once : (hist.completed.map Prod.fst).Nodup
  done : ∀ p r, fl p = some r →
    r.i0 ∈ W ∧ r.id ∉ hist.completed.map Prod.fst ∨ r.i0 ∉ W ∧ (r.id, some r.b) ∈ hist.completed
  queue : hist.completed = hist.consumed ++ U.map (fun i => (hist.tag i, (d.info i).b))

/-! ## Waking -/

@[simp] theorem flight_wake (chan : Chan) (pc : Pc) : (pc.wake chan).flight = pc.flight := by
  cases pc with
  | sleepFree b blockno write =>
    simp only [Pc.wake]
    split <;> rfl
  | sleepBuf r =>
    simp only [Pc.wake]
    split <;> rfl
  | _ => rfl

@[simp] theorem buf_wake (chan : Chan) (pc : Pc) : (pc.wake chan).buf = pc.buf := by
  cases pc with
  | sleepFree b blockno write =>
    simp only [Pc.wake]
    split <;> rfl
  | sleepBuf r =>
    simp only [Pc.wake]
    split <;> rfl
  | _ => rfl

/-- A process that still sleeps on its buffer slept before, and was not meant. -/
theorem sleeps_of_wake {chan : Chan} {pc : Pc} {r : Req} (h : pc.wake chan = .sleepBuf r) :
    pc = .sleepBuf r ∧ chan ≠ .buf r.b := by
  cases pc with
  | sleepFree b blockno write =>
    simp only [Pc.wake] at h
    split at h <;> cases h
  | sleepBuf r' =>
    simp only [Pc.wake] at h
    split at h
    · cases h
    · rename_i hne
      cases h
      exact ⟨rfl, hne⟩
  | _ => cases h

@[simp] theorem flight_rouse (pc : Pc) : pc.rouse.flight = pc.flight := by cases pc <;> rfl

theorem rouse_ne (pc : Pc) (r : Req) : pc.rouse ≠ .sleepBuf r := by cases pc <;> exact nofun

@[simp] theorem buf_rouse (pc : Pc) : pc.rouse.buf = pc.buf := by cases pc <;> rfl

/-! ## Descriptors -/

variable {s s' : St} {i n : Nat} {p q : Pid} {r r' : Req} {F : Panic → Prop} {Q : Unit → St → Prop}

def freed (s : St) (i : Nat) : St :=
  { s with
    disk := { s.disk with desc := update s.disk.desc i zeroDesc, free := update s.disk.free i true }
    pc := fun p => (s.pc p).wake .free }

theorem freeDesc_spec (hi : i < num) (hf : s.disk.free i = false) (h : Q () (freed s i)) : wp (freeDesc i) Q F s := by
  unfold freeDesc
  rw [wp_bind, wp_get]
  rw [if_neg (by omega), hf]
  exact h

def taken (s : St) (i : Nat) : St := { s with disk := { s.disk with free := update s.disk.free i false } }

theorem allocDesc_spec {Q : Option Nat → St → Prop} (hnone : (∀ i < num, s.disk.free i = false) → Q none s)
    (hsome : ∀ i < num, s.disk.free i = true → Q (some i) (taken s i)) : wp allocDesc Q F s := by
  unfold allocDesc
  rw [wp_bind, wp_get]
  split
  · rename_i hno
    refine hnone (fun i hi => ?_)
    have hfalse := find?_eq_none.1 hno i (mem_range.2 hi)
    exact Bool.eq_false_iff.2 hfalse
  · rename_i i hi
    exact hsome i (mem_range.1 (mem_of_find?_eq_some hi)) (find?_some hi)

/-- **Nothing in flight has changed**: descriptors that were free, and processes that slept on `&disk.free[0]`. -/
structure Idled (s s' : St) : Prop where
  disk : s'.disk = { s.disk with desc := s'.disk.desc }
  desc : ∀ i, s.disk.free i = false → s'.disk.desc i = s.disk.desc i
  rest : s' = { s with disk := s'.disk, pc := s'.pc }
  flight : ∀ p, (s'.pc p).flight = (s.pc p).flight
  buf : ∀ p, (s'.pc p).buf = (s.pc p).buf
  sleeps : ∀ p r, s'.pc p = .sleepBuf r → s.pc p = .sleepBuf r

theorem Idled.refl (s : St) : Idled s s := ⟨rfl, fun _ _ => rfl, rfl, fun _ => rfl, fun _ => rfl, fun _ _ h => h⟩

theorem update_back {f : Nat → Bool} (h : f i = true) : update (update f i false) i true = f := by
  rw [update_idem, ← h, update_eq_self]

theorem alloc3Desc_spec {Q : Option (Nat × Nat × Nat) → St → Prop} (hnone : ∀ s', Idled s s' → Q none s')
    (hsome : ∀ i0 i1 i2, [i0, i1, i2].Nodup → (∀ i ∈ [i0, i1, i2], i < num ∧ s.disk.free i = true) →
      Q (some (i0, i1, i2)) (taken (taken (taken s i0) i1) i2)) : wp alloc3Desc Q F s := by
  unfold alloc3Desc
  rw [wp_bind]
  apply allocDesc_spec
  · exact fun _ => hnone s (Idled.refl s)
  intro i0 hi0 hf0
  rw [wp_bind]
  apply allocDesc_spec
  · intro _
    rw [wp_bind]
    apply freeDesc_spec hi0 (update_self _ _ _)
    refine hnone _ ⟨?_, fun i hi => ?_, rfl, fun p => flight_wake _ _, fun p => buf_wake _ _, fun p r h =>
      (sleeps_of_wake h).1⟩
    · simp only [freed, taken, update_back hf0]
    have hne : i ≠ i0 := by
      rintro rfl
      rw [hf0] at hi
      cases hi
    simp only [freed, taken, update_of_ne hne]
  intro i1 hi1 hf1
  have hne1 : i1 ≠ i0 := by
    rintro rfl
    simp only [taken, update_self] at hf1
    cases hf1
  simp only [taken, update_of_ne hne1] at hf1
  rw [wp_bind]
  apply allocDesc_spec
  · intro _
    rw [wp_bind]
    apply freeDesc_spec hi0
    · simp only [taken, update_of_ne hne1.symm, update_self]
    rw [wp_bind]
    apply freeDesc_spec hi1
    · simp only [freed, taken, update_of_ne hne1, update_self]
    refine hnone _ ⟨?_, fun i hi => ?_, rfl, fun p => ?_, fun p => ?_, fun p r h => ?_⟩
    · have hback : update (update (update (update s.disk.free i0 false) i1 false) i0 true)
          i1 true = s.disk.free := by
        have hcomm : update (update (update s.disk.free i0 false) i1 false) i0 true =
            update (update (update s.disk.free i0 false) i0 true) i1 false :=
          update_comm hne1 _ _ _
        rw [hcomm, update_back hf0, update_back hf1]
      simp only [freed, taken, hback]
    · have hne : i ≠ i0 ∧ i ≠ i1 := by
        constructor
        · rintro rfl
          rw [hf0] at hi
          cases hi
        · rintro rfl
          rw [hf1] at hi
          cases hi
      simp only [freed, taken, update_of_ne hne.1, update_of_ne hne.2]
    · simp only [freed, taken, flight_wake]
    · simp only [freed, taken, buf_wake]
    · exact (sleeps_of_wake (sleeps_of_wake h).1).1
  intro i2 hi2 hf2
  have hne20 : i2 ≠ i0 := by
    rintro rfl
    simp only [taken, update_of_ne hne1.symm, update_self] at hf2
    cases hf2
  have hne21 : i2 ≠ i1 := by
    rintro rfl
    simp only [taken, update_self] at hf2
    cases hf2
  simp only [taken, update_of_ne hne21, update_of_ne hne20] at hf2
  apply hsome
  · simp only [nodup_cons, mem_cons, not_mem_nil, or_false, not_or, not_false_eq_true, nodup_nil, and_true]
    exact ⟨⟨hne1.symm, hne20.symm⟩, hne21.symm⟩
  intro i hi
  simp only [mem_cons, not_mem_nil, or_false] at hi
  rcases hi with rfl | rfl | rfl
  · exact ⟨hi0, hf0⟩
  · exact ⟨hi1, hf1⟩
  · exact ⟨hi2, hf2⟩

theorem freeChain_spec (h : Linked s.disk r) (hQ : Q () (freed (freed (freed s r.i0) r.i1) r.i2)) :
    wp (freeChain (n + 3) r.i0) Q F s := by
  have hnd := h.nodup
  simp only [Req.chain, nodup_cons, mem_cons, not_mem_nil, or_false, not_or, not_false_eq_true, nodup_nil,
    and_true] at hnd
  obtain ⟨⟨h01, h02⟩, h12⟩ := hnd
  have hin0 : r.i0 ∈ r.chain := mem_cons_self
  have hin1 : r.i1 ∈ r.chain := mem_cons_of_mem _ mem_cons_self
  have hin2 : r.i2 ∈ r.chain := mem_cons_of_mem _ (mem_cons_of_mem _ mem_cons_self)
  unfold freeChain
  rw [wp_bind, wp_get, wp_bind]
  apply freeDesc_spec (h.lt _ hin0) (h.taken _ hin0)
  rw [if_pos h.first.1, h.first.2]
  unfold freeChain
  rw [wp_bind, wp_get, wp_bind]
  have hd1 : (freed s r.i0).disk.desc r.i1 = s.disk.desc r.i1 := update_of_ne (Ne.symm h01) _ _
  rw [hd1]
  apply freeDesc_spec (h.lt _ hin1)
  · simp only [freed, update_of_ne (Ne.symm h01)]
    exact h.taken _ hin1
  rw [if_pos h.second.1, h.second.2.1]
  unfold freeChain
  rw [wp_bind, wp_get, wp_bind]
  have hd2 : (freed (freed s r.i0) r.i1).disk.desc r.i2 = s.disk.desc r.i2 := by
    simp only [freed, update_of_ne (Ne.symm h12), update_of_ne (Ne.symm h02)]
  rw [hd2]
  apply freeDesc_spec (h.lt _ hin2)
  · simp only [freed, update_of_ne (Ne.symm h12), update_of_ne (Ne.symm h02)]
    exact h.taken _ hin2
  rw [h.third.1]
  exact hQ

/-! ## Requests in flight -/

variable {fl : Pid → Option Req} {d d' : Disk} {bdisk : Buf → Bool} {hist : Hist} {W W' U : List Nat}

theorem Req.head_mem (r : Req) : r.i0 ∈ r.chain := List.mem_cons_self

theorem Chained.congr (h : Chained d r) (hfree : ∀ i ∈ r.chain, d'.free i = d.free i)
    (hdesc : ∀ i ∈ r.chain, d'.desc i = d.desc i) (hinfo : (d'.info r.i0).b = (d.info r.i0).b) : Chained d' r := by
  have h1 : r.i1 ∈ r.chain := mem_cons_of_mem _ mem_cons_self
  have h2 : r.i2 ∈ r.chain := mem_cons_of_mem _ (mem_cons_of_mem _ mem_cons_self)
  refine ⟨⟨h.lt, h.nodup, fun i hi => (hfree i hi).trans (h.taken i hi), ?_, ?_, ?_⟩, hinfo.trans h.info⟩
  · rw [hdesc _ r.head_mem]
    exact h.first
  · rw [hdesc _ h1]
    exact h.second
  · rw [hdesc _ h2]
    exact h.third

section
variable (h : Flying fl d bdisk hist W U)
include h

theorem Flying.head_inj (hp : fl p = some r) (hq : fl q = some r') (he : r.i0 = r'.i0) : p = q :=
  h.apart p q r r' r.i0 hp hq r.head_mem (he ▸ r'.head_mem)

theorem Flying.congr (hfree : d'.free = d.free) (hdesc : ∀ i, d.free i = false → d'.desc i = d.desc i)
    (hinfo : d'.info = d.info) : Flying fl d' bdisk hist W U := by
  refine ⟨fun p r hp => ?_, h.apart, fun i hi hf => ?_, h.bufs, h.nodup, h.busy, h.head, fun i hi => ?_, h.tag,
    h.ids, h.numbers, h.once, h.done, ?_⟩
  · have hc := h.chain p r hp
    exact hc.congr (fun i _ => by rw [hfree]) (fun i hi => hdesc i (hc.taken i hi)) (by rw [hinfo])
  · rw [hfree] at hf
    exact h.taken i hi hf
  · rw [hinfo]
    exact h.status i hi
  · rw [hinfo]
    exact h.queue

theorem Flying.perm (hW : W'.Perm W) : Flying fl d bdisk hist W' U := by
  have hWU : (W' ++ U).Perm (W ++ U) := hW.append_right U
  refine ⟨h.chain, h.apart, h.taken, h.bufs, hWU.nodup_iff.2 h.nodup, fun p r hp => ?_, fun i hi =>
    h.head i (hWU.mem_iff.1 hi), h.status, h.tag, h.ids, h.numbers, h.once, fun p r hp => ?_, h.queue⟩
  · rw [hWU.mem_iff]
    exact h.busy p r hp
  · rw [hW.mem_iff]
    exact h.done p r hp

theorem Flying.add (hp : fl p = none) (hc : Chained d' r) (hwas : ∀ i ∈ r.chain, d.free i = true)
    (hfree : ∀ i, i ∉ r.chain → d'.free i = d.free i) (hdesc : ∀ i, i ∉ r.chain → d'.desc i = d.desc i)
    (hinfo : ∀ i, i ≠ r.i0 → d'.info i = d.info i) (hb : ∀ q r', fl q = some r' → r'.b ≠ r.b) (hid : r.id = hist.next) :
    Flying (update fl p (some r)) d' (update bdisk r.b true)
      { hist with next := hist.next + 1, tag := update hist.tag r.i0 hist.next } (r.i0 :: W) U := by
  -- the other requests have none of its descriptors
  have hother : ∀ q r', fl q = some r' → ∀ i ∈ r'.chain, i ∉ r.chain := by
    intro q r' hq i hi hir
    have hf := (h.chain q r' hq).taken i hi
    rw [hwas i hir] at hf
    cases hf
  have hne : ∀ q r', fl q = some r' → r'.i0 ≠ r.i0 := fun q r' hq e => hother q r' hq _ r'.head_mem (e ▸ r.head_mem)
  have hnew : r.i0 ∉ W ++ U := by
    intro hm
    obtain ⟨q, r', hq, he⟩ := h.head _ hm
    exact hne q r' hq he
  have hsplit : ∀ q r', update fl p (some r) q = some r' → q = p ∧ r' = r ∨ q ≠ p ∧ fl q = some r' := by
    intro q r' hq
    by_cases e : q = p
    · rw [e, update_self] at hq
      exact .inl ⟨e, (Option.some.inj hq).symm⟩
    · rw [update_of_ne e] at hq
      exact .inr ⟨e, hq⟩
  have hold : ∀ q r', fl q = some r' → update fl p (some r) q = some r' := by
    intro q r' hq
    have hqp : q ≠ p := by
      rintro rfl
      rw [hp] at hq
      cases hq
    rw [update_of_ne hqp]
    exact hq
  have hU : ∀ i ∈ U, i ≠ r.i0 := fun i hi e => hnew (e ▸ mem_append_right W hi)
  refine ⟨fun q r' hq => ?_, fun q q' r' r'' i hq hq' hi hi' => ?_, fun i hi hf => ?_, fun q q' r' r'' hq hq' he => ?_, ?_,
    fun q r' hq => ?_, fun i hi => ?_, fun i hi => ?_, fun q r' hq => ?_, fun q q' r' r'' hq hq' he => ?_,
    fun e he => ?_, h.once, fun q r' hq => ?_, ?_⟩
  · rcases hsplit q r' hq with ⟨rfl, rfl⟩ | ⟨-, hq⟩
    · exact hc
    · exact (h.chain q r' hq).congr (fun i hi => hfree i (hother q r' hq i hi)) (fun i hi => hdesc i (hother q r' hq i hi))
        (by rw [hinfo _ (hne q r' hq)])
  · rcases hsplit q r' hq with ⟨rfl, rfl⟩ | ⟨-, hqo⟩
    · rcases hsplit q' r'' hq' with ⟨rfl, rfl⟩ | ⟨-, hq'⟩
      · rfl
      · exact absurd hi (hother q' r'' hq' i hi')
    · rcases hsplit q' r'' hq' with ⟨rfl, rfl⟩ | ⟨-, hq'⟩
      · exact absurd hi' (hother q r' hqo i hi)
      · exact h.apart q q' r' r'' i hqo hq' hi hi'
  · by_cases hir : i ∈ r.chain
    · exact ⟨p, r, update_self _ _ _, hir⟩
    · rw [hfree i hir] at hf
      obtain ⟨q, r', hq, hir'⟩ := h.taken i hi hf
      exact ⟨q, r', hold q r' hq, hir'⟩
  · rcases hsplit q r' hq with ⟨rfl, rfl⟩ | ⟨-, hqo⟩
    · rcases hsplit q' r'' hq' with ⟨rfl, rfl⟩ | ⟨-, hq'⟩
      · rfl
      · exact absurd he.symm (hb q' r'' hq')
    · rcases hsplit q' r'' hq' with ⟨rfl, rfl⟩ | ⟨-, hq'⟩
      · exact absurd he (hb q r' hqo)
      · exact h.bufs q q' r' r'' hqo hq' he
  · exact nodup_cons.2 ⟨hnew, h.nodup⟩
  · rcases hsplit q r' hq with ⟨rfl, rfl⟩ | ⟨-, hq⟩
    · rw [update_self]
      exact ⟨fun _ => mem_cons_self, fun _ => rfl⟩
    · rw [update_of_ne (hb q r' hq), h.busy q r' hq, cons_append, mem_cons]
      exact ⟨.inr, fun hm => hm.resolve_left (hne q r' hq)⟩
  · rcases mem_cons.1 hi with rfl | hi
    · exact ⟨p, r, update_self _ _ _, rfl⟩
    · obtain ⟨q, r', hq, he⟩ := h.head i hi
      exact ⟨q, r', hold q r' hq, he⟩
  · rw [hinfo i (hU i hi)]
    exact h.status i hi
  · rcases hsplit q r' hq with ⟨rfl, rfl⟩ | ⟨-, hq⟩
    · dsimp only
      rw [update_self, hid]
      exact ⟨rfl, Nat.lt_succ_self _⟩
    · dsimp only
      rw [update_of_ne (hne q r' hq)]
      exact ⟨(h.tag q r' hq).1, Nat.lt_succ_of_lt (h.tag q r' hq).2⟩
  · rcases hsplit q r' hq with ⟨rfl, rfl⟩ | ⟨-, hqo⟩
    · rcases hsplit q' r'' hq' with ⟨rfl, rfl⟩ | ⟨-, hq'⟩
      · rfl
      · have hlt := (h.tag q' r'' hq').2
        omega
    · rcases hsplit q' r'' hq' with ⟨rfl, rfl⟩ | ⟨-, hq'⟩
      · have hlt := (h.tag q r' hqo).2
        omega
      · exact h.ids q q' r' r'' hqo hq' he
  · exact Nat.lt_succ_of_lt (h.numbers e he)
  · rcases hsplit q r' hq with ⟨rfl, rfl⟩ | ⟨-, hq⟩
    · refine .inl ⟨mem_cons_self, fun hm => ?_⟩
      obtain ⟨e, he, heid⟩ := mem_map.1 hm
      have hlt := h.numbers e he
      omega
    · rw [mem_cons, or_iff_right (hne q r' hq)]
      exact h.done q r' hq
  · dsimp only
    rw [h.queue]
    congr 1
    refine map_congr_left (fun i hi => ?_)
    rw [update_of_ne (hU i hi), hinfo i (hU i hi)]

theorem Flying.remove (hp : fl p = some r) (hdone : bdisk r.b = false)
    (hfree : ∀ i, d'.free i = if i ∈ r.chain then true else d.free i) (hdesc : ∀ i, i ∉ r.chain → d'.desc i = d.desc i)
    (hinfo : ∀ i, i ≠ r.i0 → d'.info i = d.info i) : Flying (update fl p none) d' bdisk hist W U := by
  have hnot : r.i0 ∉ W ++ U := by
    rw [← h.busy p r hp, hdone]
    decide
  have hold : ∀ q r', update fl p none q = some r' → q ≠ p ∧ fl q = some r' := by
    intro q r' hq
    by_cases e : q = p
    · rw [e, update_self] at hq
      cases hq
    · rw [update_of_ne e] at hq
      exact ⟨e, hq⟩
  have hother : ∀ q r', q ≠ p → fl q = some r' → ∀ i ∈ r'.chain, i ∉ r.chain := fun q r' hqp hq i hi hir =>
    hqp (h.apart q p r' r i hq hp hi hir)
  have hU : ∀ i ∈ U, i ≠ r.i0 := fun i hi e => hnot (e ▸ mem_append_right W hi)
  refine ⟨fun q r' hq => ?_, fun q q' r' r'' i hq hq' => h.apart q q' r' r'' i (hold q r' hq).2 (hold q' r'' hq').2,
    fun i hi hf => ?_, fun q q' r' r'' hq hq' => h.bufs q q' r' r'' (hold q r' hq).2 (hold q' r'' hq').2, h.nodup,
    fun q r' hq => h.busy q r' (hold q r' hq).2, fun i hi => ?_, fun i hi => ?_, fun q r' hq => h.tag q r' (hold q r' hq).2,
    fun q q' r' r'' hq hq' => h.ids q q' r' r'' (hold q r' hq).2 (hold q' r'' hq').2, h.numbers, h.once,
    fun q r' hq => h.done q r' (hold q r' hq).2, ?_⟩
  · obtain ⟨hqp, hq⟩ := hold q r' hq
    have hout := hother q r' hqp hq
    refine (h.chain q r' hq).congr (fun i hi => ?_) (fun i hi => hdesc i (hout i hi)) ?_
    · rw [hfree, if_neg (hout i hi)]
    · have hne : r'.i0 ≠ r.i0 := fun e => hout r'.i0 r'.head_mem (by rw [e]; exact r.head_mem)
      rw [hinfo _ hne]
  · rw [hfree] at hf
    by_cases hir : i ∈ r.chain
    · rw [if_pos hir] at hf
      cases hf
    rw [if_neg hir] at hf
    obtain ⟨q, r', hq, hir'⟩ := h.taken i hi hf
    have hqp : q ≠ p := by
      rintro rfl
      rw [hp] at hq
      cases hq
      exact hir hir'
    exact ⟨q, r', (update_of_ne hqp _ _).trans hq, hir'⟩
  · obtain ⟨q, r', hq, he⟩ := h.head i hi
    have hqp : q ≠ p := by
      rintro rfl
      rw [hp] at hq
      cases hq
      exact hnot (he ▸ hi)
    exact ⟨q, r', (update_of_ne hqp _ _).trans hq, he⟩
  · rw [hinfo i (hU i hi)]
    exact h.status i hi
  · rw [h.queue]
    congr 1
    refine map_congr_left (fun i hi => ?_)
    rw [hinfo i (hU i hi)]

end

theorem Flying.consume (h : Flying fl d bdisk hist W (i :: U)) : ∃ b, (d.info i).status = 0 ∧ (d.info i).b = some b ∧
    Flying fl d (update bdisk b false) { hist with consumed := hist.consumed ++ [(hist.tag i, some b)] } W U := by
  obtain ⟨p, r, hp, rfl⟩ := h.head i (mem_append_right W mem_cons_self)
  have hb := (h.chain p r hp).info
  obtain ⟨hnot, hnd⟩ := nodup_cons.1 (perm_middle.nodup_iff.1 h.nodup)
  have hmem : ∀ j, j ≠ r.i0 → (j ∈ W ++ r.i0 :: U ↔ j ∈ W ++ U) := by
    intro j hj
    rw [perm_middle.mem_iff, mem_cons, or_iff_right hj]
  refine ⟨r.b, h.status _ mem_cons_self, hb, h.chain, h.apart, h.taken, h.bufs, hnd, fun q r' hq => ?_,
    fun j hj => h.head j (perm_middle.mem_iff.2 (mem_cons_of_mem _ hj)),
    fun j hj => h.status j (mem_cons_of_mem _ hj), h.tag, h.ids, h.numbers, h.once, h.done, ?_⟩
  · by_cases e : q = p
    · subst e
      rw [hp] at hq
      cases hq
      rw [update_self]
      exact iff_of_false Bool.false_ne_true hnot
    · have hbne : r'.b ≠ r.b := fun he => e (h.bufs q p r' r hq hp he)
      have hine : r'.i0 ≠ r.i0 := fun he => e (h.head_inj hq hp he)
      rw [update_of_ne hbne, h.busy q r' hq, hmem _ hine]
  · rw [h.queue, map_cons, hb, append_assoc]
    rfl

theorem Flying.complete (h : Flying fl d bdisk hist (i :: W) U) (hinfo : d'.info = writeStatus d i) (hfree : d'.free = d.free)
    (hdesc : d'.desc = d.desc) :
    Flying fl d' bdisk { hist with completed := hist.completed ++ [(hist.tag i, bufferOf d i)] } W (U ++ [i]) := by
  obtain ⟨p, r, hp, rfl⟩ := h.head i mem_cons_self
  have hc := h.chain p r hp
  have hbuf : bufferOf d r.i0 = some r.b := by
    unfold bufferOf
    rw [hc.first.2, hc.second.2.2]
  have hstat : d'.info = update d.info r.i0 { d.info r.i0 with status := 0 } := by
    rw [hinfo]
    unfold writeStatus
    rw [hc.first.2, hc.second.2.1, hc.third.2]
  have hinfob : ∀ j, (d'.info j).b = (d.info j).b := by
    intro j
    rw [hstat]
    by_cases e : j = r.i0
    · rw [e, update_self]
    · rw [update_of_ne e]
  have hperm : (W ++ (U ++ [r.i0])).Perm (r.i0 :: W ++ U) := by
    rw [← append_assoc]
    exact perm_append_comm
  obtain ⟨hnot, hnd⟩ := nodup_cons.1 h.nodup
  have hW : r.i0 ∉ W := fun hm => hnot (mem_append_left U hm)
  obtain ⟨htag, hlt⟩ := h.tag p r hp
  have hfresh : r.id ∉ hist.completed.map Prod.fst := by
    rcases h.done p r hp with ⟨-, hid⟩ | ⟨hout, -⟩
    · exact hid
    · exact absurd mem_cons_self hout
  rw [hbuf, htag]
  refine ⟨fun q r' hq => ?_, h.apart, fun j hj hf => ?_, h.bufs, hperm.nodup_iff.2 h.nodup, fun q r' hq => ?_,
    fun j hj => h.head j (hperm.mem_iff.1 hj), fun j hj => ?_, h.tag, h.ids, fun e he => ?_, ?_, fun q r' hq => ?_, ?_⟩
  · exact (h.chain q r' hq).congr (fun j _ => by rw [hfree]) (fun j _ => by rw [hdesc]) (hinfob _)
  · rw [hfree] at hf
    exact h.taken j hj hf
  · rw [hperm.mem_iff]
    exact h.busy q r' hq
  · rw [hstat]
    rcases mem_append.1 hj with hj | hj
    · have hne : j ≠ r.i0 := fun e => hnot (e ▸ mem_append_right W hj)
      rw [update_of_ne hne]
      exact h.status j hj
    · rw [mem_singleton.1 hj, update_self]
  · rcases mem_append.1 he with he | he
    · exact h.numbers e he
    · rw [mem_singleton.1 he]
      exact hlt
  · rw [map_append, map_singleton]
    exact perm_append_comm.nodup_iff.1 (nodup_cons.2 ⟨hfresh, h.once⟩)
  · by_cases e : q = p
    · subst e
      rw [hp] at hq
      cases hq
      exact .inr ⟨hW, mem_append_right _ mem_cons_self⟩
    · have hine : r'.i0 ≠ r.i0 := fun he => e (h.head_inj hq hp he)
      rcases h.done q r' hq with ⟨hin, hid⟩ | ⟨hout, hid⟩
      · refine .inl ⟨(mem_cons.1 hin).resolve_left hine, fun hm => ?_⟩
        rw [map_append, mem_append] at hm
        rcases hm with hm | hm
        · exact hid hm
        · exact e (h.ids q p r' r hq hp (mem_singleton.1 hm))
      · exact .inr ⟨fun hm => hout (mem_cons_of_mem _ hm), mem_append_left _ hid⟩
  · rw [h.queue, map_append, map_singleton, append_assoc, hinfob, hc.info, htag]
    simp only [hinfob]

theorem Flying.length_le (h : Flying fl d bdisk hist W U) : W.length + U.length ≤ num := by
  have hsub : W ++ U ⊆ range num := by
    intro i hi
    obtain ⟨p, r, hp, rfl⟩ := h.head i hi
    exact mem_range.2 ((h.chain p r hp).lt _ r.head_mem)
  have hle := (subperm_of_subset h.nodup hsub).length_le
  rwa [length_append, length_range] at hle

theorem Flying.returned (h : Flying fl d bdisk hist W U) (hp : fl p = some r) (hdone : bdisk r.b = false) :
    (r.id, some r.b) ∈ hist.completed ∧ (r.id, some r.b) ∈ hist.consumed := by
  have hnot : r.i0 ∉ W ++ U := by
    rw [← h.busy p r hp, hdone]
    decide
  have hin : (r.id, some r.b) ∈ hist.completed := by
    rcases h.done p r hp with ⟨hW, -⟩ | ⟨-, hin⟩
    · exact absurd (mem_append_left U hW) hnot
    · exact hin
  have hcons := hin
  rw [h.queue, mem_append] at hcons
  refine ⟨hin, hcons.resolve_right (fun hU => ?_)⟩
  -- an entry of the used ring with its number would be its own
  obtain ⟨i, hi, he⟩ := mem_map.1 hU
  obtain ⟨q, r', hq, rfl⟩ := h.head i (mem_append_right W hi)
  have hid : r'.id = r.id := (h.tag q r' hq).1.symm.trans (Prod.mk.inj he).1
  have hqp := h.ids q p r' r hq hp hid
  subst hqp
  rw [hp] at hq
  cases hq
  exact hnot (mem_append_right W hi)

theorem Flying.pending (h : Flying fl d bdisk hist W U) (hp : fl p = some r) (hbusy : bdisk r.b = true) :
    (r.id, some r.b) ∉ hist.consumed := by
  intro hin
  have hfst : r.id ∈ hist.consumed.map Prod.fst := mem_map_of_mem hin
  have hall := congrArg (map Prod.fst) h.queue
  rw [map_append] at hall
  rcases mem_append.1 ((h.busy p r hp).1 hbusy) with hW | hU
  · rcases h.done p r hp with ⟨-, hnot⟩ | ⟨hnot, -⟩
    · exact hnot (hall ▸ mem_append_left _ hfst)
    · exact hnot hW
  · have honce := h.once
    rw [hall, nodup_append] at honce
    refine honce.2.2 _ hfst _ (mem_map_of_mem (mem_map_of_mem hU)) ?_
    exact (h.tag p r hp).1.symm

end Xv6.Virtio
