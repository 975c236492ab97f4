import Xv6.LibFifo
import Xv6.LibRun
/-!
# PipeModel — `pipe.c`: readers and writers of one pipe

A call of `pipewrite` or `piperead` holds `pi->lock` from its start to its end, except while it sleeps: what it does in one
go is a section, a function of the pipe. The callers are threads that are in a call or not, ready or asleep, and take one
section after the other in any order. The user buffers are valid, so every byte is copied.

The bytes that reads return are, in order, a prefix of those that writes have stored, and each write stores the bytes it is
given (`pipe_fifo`).
-/
namespace Xv6.PipeBuf

open Function List

def pipesize : Nat := 512

/-- A pipe. `stored` and `taken` record the bytes that have gone in and out; nothing reads them. -/
structure Pipe where
  data : Nat → UInt8
  nread : Nat
  nwrite : Nat
  readopen : Bool
  writeopen : Bool
  stored : List UInt8
  taken : List UInt8

def Pipe.full (pi : Pipe) : Bool := decide (pi.nwrite = (pi.nread + pipesize) % 2 ^ 32)

def Pipe.put (pi : Pipe) (ch : UInt8) : Pipe :=
  { pi with
    data := update pi.data (pi.nwrite % pipesize) ch
    nwrite := (pi.nwrite + 1) % 2 ^ 32
    stored := pi.stored ++ [ch] }

/-- What `ch = pi->data[pi->nread++ % PIPESIZE]` reads, and leaves. -/
def Pipe.next (pi : Pipe) : UInt8 := pi.data (pi.nread % pipesize)

def Pipe.get (pi : Pipe) : Pipe := { pi with nread := (pi.nread + 1) % 2 ^ 32, taken := pi.taken ++ [pi.next] }

/-- How a section of `pipewrite` ends: it returns `i`, it returns -1, or it sleeps. -/
inductive WriteEnd where
  | ret
  | fail
  | sleep
  deriving DecidableEq, Repr

/-- The loop of `pipewrite`, for the bytes still to come; the last component is `i`. -/
def writeLoop (killed : Bool) : Pipe → List UInt8 → Nat → Pipe × WriteEnd × Nat
  | pi, [], i => (pi, .ret, i)
  | pi, ch :: src, i =>
    if pi.readopen = false ∨ killed = true then (pi, .fail, i)
    else if pi.full then (pi, .sleep, i)
    else writeLoop killed (pi.put ch) src (i + 1)

/-- The loop of `piperead` for `n` bytes at most, and the bytes it has copied out. -/
def readLoop : Nat → Pipe → List UInt8 → Pipe × List UInt8
  | 0, pi, bytes => (pi, bytes)
  | n + 1, pi, bytes => if pi.nread = pi.nwrite then (pi, bytes) else readLoop n pi.get (bytes ++ [pi.next])

/-- How a section of `piperead` ends: it returns the number of the bytes copied out, it returns -1, or it sleeps. -/
inductive ReadEnd where
  | ret (bytes : List UInt8)
  | fail
  | sleep
  deriving DecidableEq, Repr

def readSection (killed : Bool) (pi : Pipe) (n : Int) : Pipe × ReadEnd :=
  if pi.nread = pi.nwrite ∧ pi.writeopen = true then (pi, if killed then .fail else .sleep)
  else
    let r := readLoop n.toNat pi []
    (r.1, .ret r.2)

/-! ## The callers -/

/-- Where a thread is: out of the pipe, in a `pipewrite` that has stored the first `i` bytes of `src`, or in a `piperead`. -/
inductive Th where
  | out
  | write (src : List UInt8) (i : Nat)
  | read (n : Int)
  deriving DecidableEq, Repr

/-- A `pipewrite` that has ended: its source, how many bytes of it are stored, and what it has returned. -/
structure Sent where
  src : List UInt8
  i : Nat
  ret : Int

structure St (τ : Type) where
  pi : Pipe
  th : τ → Th
  /-- The threads that sleep, a writer on `&pi->nwrite` and a reader on `&pi->nread`. -/
  asleep : τ → Bool
  killed : τ → Bool
  /-- Who has stored which byte, in order, and the calls of `pipewrite` that have ended. -/
  puts : List (τ × UInt8)
  sent : τ → List Sent
  /-- What each `piperead` that has returned has copied out, in order. -/
  answers : List (List UInt8)

inductive Act (τ : Type) where
  | pipewrite (t : τ) (src : List UInt8)
  | piperead (t : τ) (n : Int)
  | advance (t : τ)
  | kill (t : τ)
  | pipeclose (writable : Bool)

def Th.reads : Th → Bool
  | .read _ => true
  | .out | .write _ _ => false

def Th.writes : Th → Bool
  | .write _ _ => true
  | .out | .read _ => false

variable {τ : Type} [DecidableEq τ] {pi : Pipe} {s s' : St τ} {a : Act τ}

def wakeReaders (s : St τ) : St τ := { s with asleep := fun t => s.asleep t && !(s.th t).reads }

def wakeWriters (s : St τ) : St τ := { s with asleep := fun t => s.asleep t && !(s.th t).writes }

def setTh (s : St τ) (t : τ) (x : Th) : St τ := { s with th := update s.th t x }

def sleep (s : St τ) (t : τ) : St τ := { s with asleep := update s.asleep t true }

def writeRet (s : St τ) (t : τ) (c : Sent) : St τ :=
  setTh { s with sent := update s.sent t (s.sent t ++ [c]) } t .out

def writeStep (s : St τ) (t : τ) (src : List UInt8) (i : Nat) : St τ :=
  let r := writeLoop (s.killed t) s.pi (src.drop i) i
  let s := { s with pi := r.1, puts := s.puts ++ (r.1.stored.drop s.pi.stored.length).map (Prod.mk t) }
  match r.2.1 with
  | .ret => writeRet (wakeReaders s) t ⟨src, r.2.2, r.2.2⟩
  | .fail => writeRet s t ⟨src, r.2.2, -1⟩
  | .sleep => sleep (wakeReaders (setTh s t (.write src r.2.2))) t

def readStep (s : St τ) (t : τ) (n : Int) : St τ :=
  let r := readSection (s.killed t) s.pi n
  let s := { s with pi := r.1 }
  match r.2 with
  | .ret bytes => setTh (wakeWriters { s with answers := s.answers ++ [bytes] }) t .out
  | .fail => setTh s t .out
  | .sleep => sleep s t

def closeStep (s : St τ) (writable : Bool) : St τ :=
  if writable then wakeReaders { s with pi := { s.pi with writeopen := false } }
  else wakeWriters { s with pi := { s.pi with readopen := false } }

/-- With both ends closed the page is free, and there is no pipe any more. -/
def step (s : St τ) (a : Act τ) : Option (St τ) :=
  if s.pi.readopen = false ∧ s.pi.writeopen = false then none
  else
    match a with
    | .pipewrite t src => if s.th t = .out then some (setTh s t (.write src 0)) else none
    | .piperead t n => if s.th t = .out then some (setTh s t (.read n)) else none
    | .advance t =>
      if s.asleep t then none
      else
        match s.th t with
        | .write src i => some (writeStep s t src i)
        | .read n => some (readStep s t n)
        | .out => none
    -- `kkill` wakes a sleeper
    | .kill t => some { s with asleep := update s.asleep t false, killed := update s.killed t true }
    | .pipeclose writable => some (closeStep s writable)

/-- `pipealloc`: the page may hold anything. -/
def pipealloc (data : Nat → UInt8) : Pipe := ⟨data, 0, 0, true, true, [], []⟩

def boot (data : Nat → UInt8) : St τ := ⟨pipealloc data, fun _ => .out, fun _ => false, fun _ => false, [], fun _ => [], []⟩

/-! ## The ring -/

/-- **The pipe holds the bytes stored and not yet taken.** -/
def Pipe.Holds (pi : Pipe) : Prop :=
  ∃ unread, pi.stored = pi.taken ++ unread ∧
    Fifo.Holds pipesize (2 ^ 32) pi.data pi.nread pi.nwrite pi.taken.length unread

theorem pipesize_lt : pipesize < 2 ^ 32 := by decide

theorem pipesize_dvd : pipesize ∣ 2 ^ 32 := by decide

theorem Pipe.Holds.put (h : pi.Holds) (hf : pi.full = false) (ch : UInt8) : (pi.put ch).Holds := by
  obtain ⟨unread, hs, hr⟩ := h
  have hne : unread.length ≠ pipesize := fun e => by
    unfold Pipe.full at hf
    rw [decide_eq_false_iff_not] at hf
    exact hf ((hr.full_iff pipesize_lt).2 e)
  have hlt : unread.length < pipesize := lt_of_le_of_ne hr.le hne
  refine ⟨unread ++ [ch], ?_, hr.push pipesize_dvd hlt ch⟩
  unfold Pipe.put
  rw [hs, append_assoc]

theorem Pipe.Holds.get (h : pi.Holds) (hne : pi.nread ≠ pi.nwrite) : pi.get.Holds := by
  obtain ⟨unread, hs, hr⟩ := h
  cases unread with
  | nil => exact absurd ((hr.empty_iff pipesize_lt).2 rfl) hne
  | cons x unread =>
    obtain ⟨hx, hr'⟩ := hr.pop pipesize_dvd
    refine ⟨unread, ?_, ?_⟩
    · unfold Pipe.get Pipe.next
      rw [hx, hs, append_assoc]
      rfl
    · unfold Pipe.get
      rw [length_append, length_singleton]
      exact hr'

/-- The loop stores the first `k` bytes still to come, all of them when it returns. -/
theorem writeLoop_spec (killed : Bool) : ∀ (src : List UInt8) (pi : Pipe) (i : Nat), pi.Holds →
    (writeLoop killed pi src i).1.Holds ∧ (writeLoop killed pi src i).1.taken = pi.taken ∧
    ∃ k ≤ src.length, (writeLoop killed pi src i).1.stored = pi.stored ++ src.take k ∧
      (writeLoop killed pi src i).2.2 = i + k ∧ ((writeLoop killed pi src i).2.1 = .ret → k = src.length)
  | [], pi, i, h => ⟨h, rfl, 0, le_rfl, (append_nil _).symm, rfl, fun _ => rfl⟩
  | ch :: src, pi, i, h => by
    unfold writeLoop
    split
    · exact ⟨h, rfl, 0, Nat.zero_le _, (append_nil _).symm, rfl, fun e => by cases e⟩
    split
    · exact ⟨h, rfl, 0, Nat.zero_le _, (append_nil _).symm, rfl, fun e => by cases e⟩
    rename_i hf
    rw [Bool.not_eq_true] at hf
    obtain ⟨hh, ht, k, hk, hs, hi, hr⟩ := writeLoop_spec killed src (pi.put ch) (i + 1) (h.put hf ch)
    refine ⟨hh, ht, k + 1, Nat.succ_le_succ hk, ?_, by omega, fun e => congrArg (· + 1) (hr e)⟩
    rw [hs]
    unfold Pipe.put
    rw [append_assoc]
    rfl

theorem readLoop_holds : ∀ (n : Nat) (pi : Pipe) (bytes : List UInt8), pi.Holds → (readLoop n pi bytes).1.Holds ∧
      (readLoop n pi bytes).1.stored = pi.stored ∧ ∃ new, (readLoop n pi bytes).2 = bytes ++ new ∧
      (readLoop n pi bytes).1.taken = pi.taken ++ new
  | 0, pi, bytes, h => ⟨h, rfl, [], (append_nil _).symm, (append_nil _).symm⟩
  | n + 1, pi, bytes, h => by
    unfold readLoop
    split
    · exact ⟨h, rfl, [], (append_nil _).symm, (append_nil _).symm⟩
    rename_i hne
    obtain ⟨h', hs, new, hb, ht⟩ := readLoop_holds n pi.get (bytes ++ [pi.next]) (h.get hne)
    refine ⟨h', hs, pi.next :: new, ?_, ?_⟩
    · rw [hb, append_assoc]
      rfl
    · rw [ht]
      unfold Pipe.get
      rw [append_assoc]
      rfl

theorem readLoop_ne_nil {n : Nat} (h : pi.Holds) (hne : pi.nread ≠ pi.nwrite) : (readLoop (n + 1) pi []).2 ≠ [] := by
  unfold readLoop
  rw [if_neg hne]
  obtain ⟨-, -, new, hb, -⟩ := readLoop_holds n pi.get ([] ++ [pi.next]) (h.get hne)
  rw [hb]
  exact fun e => by cases e

/-! ## Runs -/

/-- The bytes that a call has stored: of one under way, and of one that has ended. -/
def Th.part : Th → List UInt8
  | .write src i => src.take i
  | .out | .read _ => []

def Sent.part (c : Sent) : List UInt8 := c.src.take c.i

/-- **What writers have stored**: each its own bytes, in order and without a gap. A call that has returned their number has
stored all its bytes; one that has returned -1 or is under way, the first `i`. -/
structure Delivers (stored : List UInt8) (puts : List (τ × UInt8)) (th : τ → Th) (sent : τ → List Sent) : Prop where
  all : puts.map Prod.snd = stored
  own : ∀ t, (puts.filter (fun p => p.1 = t)).map Prod.snd = ((sent t).map Sent.part).flatten ++ (th t).part
  within : ∀ t src i, th t = .write src i → i ≤ src.length
  ended : ∀ t, ∀ c ∈ sent t, c.ret = -1 ∨ c.ret = c.src.length ∧ c.i = c.src.length

/-- **What every step keeps**: the ring, that the bytes taken are those returned, and what writers have stored. -/
structure Inv (s : St τ) : Prop where
  holds : s.pi.Holds
  answers : s.answers.flatten = s.pi.taken
  delivers : Delivers s.pi.stored s.puts s.th s.sent

section Delivers
variable {stored new : List UInt8} {puts : List (τ × UInt8)} {th th' : τ → Th} {sent sent' : τ → List Sent} {t : τ} {x : Th}

theorem Delivers.put (h : Delivers stored puts th sent) (hother : ∀ t', t' ≠ t → th' t' = th t' ∧ sent' t' = sent t')
    (hown : ((sent' t).map Sent.part).flatten ++ (th' t).part = ((sent t).map Sent.part).flatten ++ ((th t).part ++ new))
    (hwithin : ∀ src i, th' t = .write src i → i ≤ src.length)
    (hended : ∀ c ∈ sent' t, c ∈ sent t ∨ c.ret = -1 ∨ c.ret = c.src.length ∧ c.i = c.src.length) :
    Delivers (stored ++ new) (puts ++ new.map (Prod.mk t)) th' sent' := by
  refine ⟨by simp [h.all, comp_def], fun t' => ?_, fun t' => ?_, fun t' => ?_⟩
  all_goals by_cases e : t' = t
  · subst e
    rw [filter_append, map_append, h.own, hown]
    simp [filter_map, comp_def]
  · rw [filter_append, map_append, h.own, (hother t' e).1, (hother t' e).2]
    simp [Ne.symm e]
  · exact e ▸ hwithin
  · rw [(hother t' e).1]
    exact h.within t'
  · exact fun c hc => (hended c (e ▸ hc)).elim (h.ended t c) id
  · rw [(hother t' e).2]
    exact h.ended t'

theorem Delivers.moved (h : Delivers stored puts th sent) (hx : x.part = (th t).part)
    (hw : ∀ src i, x = .write src i → i ≤ src.length) : Delivers stored puts (update th t x) sent := by
  have hput : Delivers (stored ++ []) (puts ++ [].map (Prod.mk t)) (update th t x) sent :=
    h.put (fun t' e => ⟨update_of_ne e _ _, rfl⟩) (by rw [update_self, hx, append_nil])
      (by rwa [update_self]) (fun _ => .inl)
  rwa [append_nil, map_nil, append_nil] at hput

end Delivers

theorem Inv.write (h : Inv s) {t : τ} {src : List UInt8} {i : Nat} (hth : s.th t = .write src i) :
    Inv (writeStep s t src i) := by
  obtain ⟨hp, ht, k, hk, hs, hi, hret⟩ := writeLoop_spec (s.killed t) (src.drop i) s.pi i h.holds
  unfold writeStep
  generalize writeLoop (s.killed t) s.pi (src.drop i) i = r at hp ht hs hi hret ⊢
  obtain ⟨pi', e, j⟩ := r
  have hle := h.delivers.within t src i hth
  have ha : s.answers.flatten = pi'.taken := h.answers.trans ht.symm
  rw [length_drop] at hk hret
  subst hi
  dsimp only
  rw [hs, drop_left]
  cases e with
  | ret =>
    have hlen : i + k = src.length := by
      have := hret rfl
      omega
    refine ⟨hp, ha, hs ▸ h.delivers.put (fun t' e => ?_) ?_ ?_ ?_⟩
    · simp [writeRet, setTh, wakeReaders, e]
    · simp [writeRet, setTh, wakeReaders, hth, take_add, Sent.part, Th.part]
    · simp [writeRet, setTh]
    · simp +contextual [writeRet, setTh, wakeReaders, or_imp, ← hlen]
  | fail =>
    refine ⟨hp, ha, hs ▸ h.delivers.put (fun t' e => ?_) ?_ ?_ ?_⟩
    · simp [writeRet, setTh, e]
    · simp [writeRet, setTh, hth, take_add, Sent.part, Th.part]
    · simp [writeRet, setTh]
    · simp +contextual [writeRet, setTh, or_imp]
  | sleep =>
    refine ⟨hp, ha, hs ▸ h.delivers.put (fun t' e => ?_) ?_ ?_ (fun _ => .inl)⟩
    · simp [sleep, setTh, wakeReaders, e]
    · simp [sleep, setTh, wakeReaders, hth, take_add, Th.part]
    · simp [sleep, setTh, wakeReaders]
      omega

theorem Inv.read (h : Inv s) {t : τ} {n : Int} (hth : s.th t = .read n) : Inv (readStep s t n) := by
  have hd := h.delivers
  have hout : Delivers s.pi.stored s.puts (update s.th t .out) s.sent :=
    hd.moved (by rw [hth]; rfl) (fun _ _ e => by cases e)
  unfold readStep readSection
  split
  · cases s.killed t with
    | true => exact ⟨h.holds, h.answers, hout⟩
    | false => exact ⟨h.holds, h.answers, hd⟩
  · obtain ⟨hp, hs, new, hb, ht⟩ := readLoop_holds n.toNat s.pi [] h.holds
    refine ⟨hp, ?_, hs ▸ hout⟩
    change (s.answers ++ [(readLoop n.toNat s.pi []).2]).flatten = (readLoop n.toNat s.pi []).1.taken
    rw [flatten_append, h.answers, ht, hb, nil_append, flatten_cons, flatten_nil, append_nil]

theorem Inv.step (h : Inv s) (hs : step s a = some s') : Inv s' := by
  unfold PipeBuf.step at hs
  split at hs
  · cases hs
  cases a with
  | pipewrite t src =>
    dsimp only at hs
    split at hs
    · rename_i hout
      cases hs
      exact ⟨h.holds, h.answers, h.delivers.moved (by rw [hout]; rfl) (fun _ _ e => by cases e; exact Nat.zero_le _)⟩
    · cases hs
  | piperead t n =>
    dsimp only at hs
    split at hs
    · rename_i hout
      cases hs
      exact ⟨h.holds, h.answers, h.delivers.moved (by rw [hout]; rfl) (fun _ _ e => by cases e)⟩
    · cases hs
  | advance t =>
    dsimp only at hs
    split at hs
    · cases hs
    split at hs
    · rename_i hth
      cases hs
      exact h.write hth
    · rename_i hth
      cases hs
      exact h.read hth
    · cases hs
  | kill t =>
    cases hs
    exact ⟨h.holds, h.answers, h.delivers⟩
  | pipeclose writable =>
    cases hs
    unfold closeStep
    split
    · exact ⟨h.holds, h.answers, h.delivers⟩
    · exact ⟨h.holds, h.answers, h.delivers⟩

theorem boot_inv (data : Nat → UInt8) : Inv (boot data : St τ) :=
  ⟨⟨[], rfl, Fifo.holds_nil data _ _⟩, rfl, rfl, fun _ => rfl, fun _ _ _ e => (by cases e), fun _ _ hc => (by cases hc)⟩

def Pipe.count (pi : Pipe) : Nat := (pi.nwrite + 2 ^ 32 - pi.nread) % 2 ^ 32

/-- **The pipe is a queue**: the bytes returned are the first of those stored, the counters say how many there are left, and
those stored are what writers have been given. -/
def IsFifo (s : St τ) : Prop :=
  s.answers.flatten <+: s.pi.stored ∧ s.pi.count + s.answers.flatten.length = s.pi.stored.length ∧ s.pi.count ≤ pipesize ∧
    Delivers s.pi.stored s.puts s.th s.sent

/-- In this step a `piperead` of `n > 0` bytes returns 0. -/
def returnsZero (s : St τ) : Act τ → Prop
  | .advance t =>
    match s.th t with
    | .read n => 0 < n ∧ (readSection (s.killed t) s.pi n).2 = .ret []
    | _ => False
  | _ => False

theorem Inv.isFifo (h : Inv s) : IsFifo s := by
  obtain ⟨⟨unread, hs, hr⟩, ha, hd⟩ := h
  have hc : s.pi.count = unread.length := hr.count pipesize_lt
  unfold IsFifo
  rw [ha, hs, hc, length_append]
  exact ⟨prefix_append _ _, Nat.add_comm _ _, hr.le, hs ▸ hd⟩

theorem Inv.atEnd (h : Inv s) (hz : returnsZero s a) : s.answers.flatten = s.pi.stored ∧ s.pi.writeopen = false := by
  unfold returnsZero at hz
  split at hz
  · split at hz
    · rename_i n _
      obtain ⟨hn, hz⟩ := hz
      unfold readSection at hz
      split at hz
      · dsimp only at hz
        split at hz <;> cases hz
      rename_i hne
      obtain ⟨k, hk⟩ : ∃ k, n.toNat = k + 1 := ⟨n.toNat - 1, by omega⟩
      rw [hk] at hz
      have hempty : s.pi.nread = s.pi.nwrite := by
        by_contra hc
        exact readLoop_ne_nil h.holds hc (ReadEnd.ret.inj hz)
      obtain ⟨⟨unread, hs, hr⟩, ha, -⟩ := h
      rw [(hr.empty_iff pipesize_lt).1 hempty, append_nil] at hs
      refine ⟨ha.trans hs.symm, ?_⟩
      by_contra hw
      exact hne ⟨hempty, by rwa [Bool.not_eq_false] at hw⟩
    · cases hz
  · cases hz

/-- **A pipe is a lossless queue**, for any number of callers and bytes: in every state of every run what reads have returned
is a prefix of what has been stored, and the counters give the number of bytes left, `PIPESIZE` at most; and a read of at
least one byte returns 0 only when everything stored has been read and the write end is closed. -/
theorem pipe_fifo (data : Nat → UInt8) (as : List (Act τ)) :
    Run.allStates step IsFifo (boot data) as ∧
    Run.allSteps step (fun s a => returnsZero s a → s.answers.flatten = s.pi.stored ∧ s.pi.writeopen = false)
    (boot data) as := by
  have hstep : ∀ (s : St τ) a s', Inv s → True → step s a = some s' → Inv s' := fun s a s' h _ hs => h.step hs
  have hinv := Run.allStates_of_allSteps hstep as (boot data) (boot_inv data) (Run.allSteps_true as _)
  constructor
  · exact Run.allStates_mono (fun s h => h.isFifo) as _ hinv
  · refine Run.allSteps_of_allStates (fun s a s' h _ hs => hstep s a s' h trivial hs) (fun s a h _ _ hn => ?_) as (boot data)
      (boot_inv data) (Run.allSteps_true as _) hinv
    exact absurd (fun hz => h.atEnd hz) hn

end Xv6.PipeBuf
