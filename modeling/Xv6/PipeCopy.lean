import Xv6.PipeModel
/-!
# PipeCopy — `piperead` into memory that can be written in part

`room` is how many bytes can be stored from the address passed on. `piperead` moves `nread` on before it copies the byte out,
so that a `copyout` that fails has taken a byte that nobody gets (`byte_lost`). A read that finds room for every byte it can
take takes what it delivers (`read_takes_delivered`).
-/
namespace Xv6.PipeBuf

open List

def copyLoop (room : Nat) : Nat → Pipe → List UInt8 → Pipe × List UInt8
  | 0, pi, bytes => (pi, bytes)
  | n + 1, pi, bytes =>
    if pi.nread = pi.nwrite then (pi, bytes)
    -- `copyout` fails when `nread` has been moved on
    else if room ≤ bytes.length then (pi.get, bytes)
    else copyLoop room n pi.get (bytes ++ [pi.next])

/-- What `piperead` does in one go. -/
def piperead (killed : Bool) (room : Nat) (pi : Pipe) (n : Int) : Pipe × ReadEnd :=
  if pi.nread = pi.nwrite ∧ pi.writeopen = true then (pi, if killed then .fail else .sleep)
  else
    let r := copyLoop room n.toNat pi []
    (r.1, .ret r.2)

variable {pi pi' : Pipe}

/-- The bytes stored in user memory; `piperead` returns their number. -/
def ReadEnd.delivered : ReadEnd → List UInt8
  | .ret bytes => bytes
  | .fail | .sleep => []

theorem length_copyLoop_le (room : Nat) : ∀ (n : Nat) (pi : Pipe) (bytes : List UInt8),
    (copyLoop room n pi bytes).2.length ≤ bytes.length + n
  | 0, pi, bytes => le_refl _
  | n + 1, pi, bytes => by
    unfold copyLoop
    split
    · exact Nat.le_add_right _ _
    split
    · exact Nat.le_add_right _ _
    · have := length_copyLoop_le room n pi.get (bytes ++ [pi.next])
      rw [length_append, length_singleton] at this
      omega

theorem length_delivered_le (killed : Bool) (room : Nat) (pi : Pipe) (n : Int) :
    (piperead killed room pi n).2.delivered.length ≤ n.toNat := by
  unfold piperead
  split
  · cases killed <;> exact Nat.zero_le _
  · have := length_copyLoop_le room n.toNat pi []
    rwa [length_nil, zero_add] at this

def Pipe.unread (pi : Pipe) : List UInt8 := pi.stored.drop pi.taken.length

theorem Pipe.Holds.unread (h : pi.Holds) :
    pi.stored = pi.taken ++ pi.unread ∧ Fifo.Holds pipesize (2 ^ 32) pi.data pi.nread pi.nwrite pi.taken.length pi.unread := by
  obtain ⟨u, hs, hr⟩ := h
  have hu : pi.unread = u := by
    unfold Pipe.unread
    rw [hs, drop_left]
  rw [hu]
  exact ⟨hs, hr⟩

theorem Pipe.Holds.empty_iff (h : pi.Holds) : pi.nread = pi.nwrite ↔ pi.unread = [] :=
  h.unread.2.empty_iff pipesize_lt

theorem Pipe.Holds.unread_get (h : pi.Holds) (hne : pi.nread ≠ pi.nwrite) : pi.unread = pi.next :: pi.get.unread := by
  obtain ⟨hs, -⟩ := h.unread
  obtain ⟨hs', -⟩ := (h.get hne).unread
  have heq : pi.taken ++ pi.unread = pi.taken ++ (pi.next :: pi.get.unread) := by
    rw [← hs]
    unfold Pipe.get at hs'
    rwa [append_assoc] at hs'
  exact append_cancel_left heq

theorem copyLoop_eq (room : Nat) : ∀ (n : Nat) (pi : Pipe) (bytes : List UInt8), pi.Holds →
    bytes.length + min n pi.unread.length ≤ room →
    (copyLoop room n pi bytes).1.Holds ∧ (copyLoop room n pi bytes).2 = bytes ++ pi.unread.take n ∧
      (copyLoop room n pi bytes).1.unread = pi.unread.drop n ∧
      (copyLoop room n pi bytes).1.taken = pi.taken ++ pi.unread.take n
  | 0, pi, bytes, h, _ => by
    simp only [copyLoop, take_zero, append_nil, drop_zero, and_true]
    exact h
  | n + 1, pi, bytes, h, hroom => by
    unfold copyLoop
    by_cases he : pi.nread = pi.nwrite
    · rw [if_pos he]
      have hu := h.empty_iff.1 he
      rw [hu]
      simp only [take_nil, append_nil, drop_nil, and_true]
      exact h
    have hu := h.unread_get he
    rw [hu, length_cons] at hroom
    rw [if_neg he, if_neg (by omega)]
    have hroom' : (bytes ++ [pi.next]).length + min n pi.get.unread.length ≤ room := by
      rw [length_append, length_singleton]
      omega
    obtain ⟨h', hb, hd, ht⟩ := copyLoop_eq room n pi.get (bytes ++ [pi.next]) (h.get he) hroom'
    have htaken : pi.get.taken = pi.taken ++ [pi.next] := rfl
    rw [htaken] at ht
    rw [hu, take_succ_cons, drop_succ_cons]
    refine ⟨h', ?_, hd, ?_⟩
    · rw [hb, append_assoc]
      rfl
    · rw [ht, append_assoc]
      rfl

theorem copyLoop_short (room : Nat) : ∀ (n : Nat) (pi : Pipe) (bytes : List UInt8), pi.Holds → bytes.length ≤ room →
    room < bytes.length + min n pi.unread.length → (copyLoop room n pi bytes).1.Holds ∧
    (copyLoop room n pi bytes).2.length = room ∧
      (copyLoop room n pi bytes).1.taken = pi.taken ++ pi.unread.take (room - bytes.length + 1)
  | 0, pi, bytes, _, _, hroom => by omega
  | n + 1, pi, bytes, h, hle, hroom => by
    have he : pi.nread ≠ pi.nwrite := fun e => by
      rw [h.empty_iff.1 e, length_nil] at hroom
      omega
    have hu := h.unread_get he
    have htaken : pi.get.taken = pi.taken ++ [pi.next] := rfl
    rw [hu, length_cons] at hroom
    unfold copyLoop
    rw [if_neg he, hu, take_succ_cons]
    by_cases hfull : room ≤ bytes.length
    · rw [if_pos hfull, Nat.sub_eq_zero_of_le hfull]
      exact ⟨h.get he, le_antisymm hle hfull, htaken⟩
    rw [if_neg hfull]
    have hlen : (bytes ++ [pi.next]).length = bytes.length + 1 := length_append
    obtain ⟨h', hb, ht⟩ := copyLoop_short room n pi.get (bytes ++ [pi.next]) (h.get he) (by omega) (by omega)
    refine ⟨h', hb, ?_⟩
    rw [ht, htaken, append_assoc, hlen, ← Nat.sub_sub, Nat.sub_add_cancel (by omega)]
    rfl

def advanced (pi pi' : Pipe) : Nat := (pi'.nread + 2 ^ 32 - pi.nread) % 2 ^ 32

theorem advanced_eq {bytes : List UInt8} (h : pi.Holds) (h' : pi'.Holds) (ht : pi'.taken = pi.taken ++ bytes)
    (hlen : bytes.length ≤ pipesize) : advanced pi pi' = bytes.length := by
  have hr := h.unread.2.read
  have hr' := h'.unread.2.read
  rw [ht, length_append] at hr'
  have hlt := pipesize_lt
  unfold advanced
  omega

theorem piperead_valid {n : Int} {room : Nat} (killed : Bool) (h : pi.Holds) (hne : pi.unread ≠ [])
    (hroom : n.toNat ≤ room) : (piperead killed room pi n).2 = .ret (pi.unread.take n.toNat) := by
  have he : pi.nread ≠ pi.nwrite := fun e => hne (h.empty_iff.1 e)
  have hlen : ([] : List UInt8).length + min n.toNat pi.unread.length ≤ room := by
    rw [length_nil]
    omega
  obtain ⟨-, hb, -⟩ := copyLoop_eq room n.toNat pi [] h hlen
  unfold piperead
  rw [if_neg (fun hc => he hc.1)]
  dsimp only
  rw [hb, nil_append]

/-- **A read takes what it delivers**: `nread` moves on by the number of the bytes stored, which is what is returned; what is
not delivered is still there, and a later read into valid memory gets it. -/
structure TakesDelivered (killed : Bool) (room : Nat) (pi : Pipe) (n : Int) : Prop where
  moves : advanced pi (piperead killed room pi n).1 = (piperead killed room pi n).2.delivered.length
  left : pi.unread = (piperead killed room pi n).2.delivered ++ (piperead killed room pi n).1.unread
  later : ∀ (killed' : Bool) (m : Int) (room' : Nat), m.toNat ≤ room' → (piperead killed room pi n).1.unread ≠ [] →
    (piperead killed' room' (piperead killed room pi n).1 m).2 = .ret ((piperead killed room pi n).1.unread.take m.toNat)

/-- **It does so exactly if there is room for every byte that it can take.** -/
theorem read_takes_delivered {pi : Pipe} {n : Int} {room : Nat} (killed : Bool) (h : pi.Holds) :
    TakesDelivered killed room pi n ↔ min n.toNat pi.unread.length ≤ room := by
  by_cases hc : pi.nread = pi.nwrite ∧ pi.writeopen = true
  · have hr : piperead killed room pi n = (pi, if killed then .fail else .sleep) := if_pos hc
    have hd : (if killed then ReadEnd.fail else .sleep).delivered = [] := by cases killed <;> rfl
    have hu := h.empty_iff.1 hc.1
    refine iff_of_true ⟨?_, ?_, ?_⟩ (by simp [hu])
    all_goals rw [hr]
    · rw [hd]
      exact advanced_eq h h (append_nil _).symm (Nat.zero_le _)
    · rw [hd]
      rfl
    · exact fun killed' m room' hm hne => piperead_valid killed' h hne hm
  have hr : piperead killed room pi n = ((copyLoop room n.toNat pi []).1, .ret (copyLoop room n.toNat pi []).2) := if_neg hc
  constructor
  · -- the byte taken and not delivered
    intro htakes
    by_contra hroom
    obtain ⟨h', hb, ht⟩ := copyLoop_short room n.toNat pi [] h (Nat.zero_le _) (by simpa using hroom)
    have hmoves := htakes.moves
    have hle := h.unread.2.le
    have hlen : (pi.unread.take (room - 0 + 1)).length = room + 1 := by
      rw [length_take]
      omega
    rw [hr, advanced_eq h h' ht (by rw [length_nil, hlen]; omega), length_nil, hlen] at hmoves
    exact absurd (hmoves.trans hb) (Nat.succ_ne_self room)
  · intro hroom
    obtain ⟨h', hb, hd, ht⟩ := copyLoop_eq room n.toNat pi [] h (by rwa [length_nil, zero_add])
    rw [nil_append] at hb
    rw [hb] at hr
    refine ⟨?_, ?_, ?_⟩
    all_goals rw [hr]
    · exact advanced_eq h h' ht (le_trans (length_take_le' _ _) h.unread.2.le)
    · dsimp only [ReadEnd.delivered]
      rw [hd, take_append_drop]
    · exact fun killed' m room' hm hne => piperead_valid killed' h' hne hm

def twoBytes : Pipe := ((pipealloc (fun _ => 0)).put 65).put 66

theorem twoBytes_holds : twoBytes.Holds := by
  have h0 : (pipealloc (fun _ => 0)).Holds := ⟨[], rfl, Fifo.holds_nil ..⟩
  exact (h0.put (by decide) 65).put (by decide) 66

/-- A read of three bytes that finds room for two. -/
theorem read_takes_delivered_two : TakesDelivered false 2 twoBytes 3 :=
  (read_takes_delivered false twoBytes_holds).2 (by decide)

/-- **A byte is lost**: the read stores nothing and returns 0, `nread` has moved on by one, and the next read, into valid
memory, begins with the second byte. -/
theorem byte_lost :
    (piperead false 0 twoBytes 1).2 = .ret [] ∧ advanced twoBytes (piperead false 0 twoBytes 1).1 = 1 ∧
    (piperead false 8 (piperead false 0 twoBytes 1).1 8).2 = .ret [66] := by
  decide +kernel

end Xv6.PipeBuf
