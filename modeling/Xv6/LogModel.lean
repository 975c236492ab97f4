import Xv6.LibRun
import Xv6.Param
/-!
# LogModel — the redo log of `log.c` as a step function

The state is the disk, the valid buffers of the cache with the log's pins on them, and `struct log`. One action is one
critical section under `log.lock`, or one block write of `commit` or of `recover_from_log`: `Pc` is where the thread in
`commit` (or in `initlog`) stands, and `Act.advance` takes it over the next block write. A crash keeps the disk and
loses everything else; the machine then stands before `read_head` again.

Blocks hold words: word 0 of the header block is `n`, word `i + 1` is `block[i]`. The last seven fields of the state are
history variables; no guard reads them but the `begin_op`/`end_op` pairing of the processes (`ops`).
-/
namespace Xv6.Log

open Function List

abbrev Block := Nat → Nat

/-- `struct logheader`: only the first `n` entries of `block` mean anything. -/
structure LogHeader where
  n : Nat
  block : Nat → Nat

inductive Panic where
  | tooBig
  | outsideTrans
  | logCommitting
  deriving DecidableEq, Repr

/-- Where the thread in `commit` or `recover_from_log` stands. -/
inductive Pc where
  | idle
  | commit
  | writeLog (tail : Nat)
  | writeHead
  | install (tail : Nat)
  | eraseHead
  | finish
  | recRead
  | recInstall (tail : Nat)
  | recErase
  deriving DecidableEq, Repr

/-- One `log_write`: the operation that issued it, the block and the contents the caller left in the buffer. -/
structure Write where
  op : Nat
  blockno : Nat
  data : Block

structure St where
  disk : Nat → Block
  cache : Nat → Option Block
  pins : Nat → Nat
  outstanding : Int
  committing : Bool
  lh : LogHeader
  pc : Pc
  panic : Option Panic
  -- history: the operations in progress (process, operation), the next operation, every `log_write` so far, the ended
  -- operations, the operations of the open transaction, the groups handed to `commit`, those past their header write
  ops : List (Nat × Nat)
  nextOp : Nat
  hist : List Write
  done : List Nat
  cur : List Nat
  groups : List (List Nat)
  committed : List (List Nat)

inductive Act where
  | beginOp (p : Nat)
  | logWrite (p b : Nat) (d : Block)
  | endOp (p : Nat)
  | advance
  | read (b : Nat)
  | evict (b : Nat)
  | crash

/-! ## Buffers -/

def content (s : St) (b : Nat) : Block := (s.cache b).getD (s.disk b)

def bread (s : St) (b : Nat) : St := { s with cache := update s.cache b (some (content s b)) }

def bwrite (s : St) (b : Nat) (d : Block) : St :=
  { s with cache := update s.cache b (some d), disk := update s.disk b d }

/-! ## The header block -/

def headN (b : Block) : Nat := b 0

def headBlock (b : Block) (i : Nat) : Nat := b (i + 1)

/-- `read_head`: `n`, then the first `n` entries; the in-memory entries past them stay. -/
def readHead (lh : LogHeader) (b : Block) : LogHeader :=
  { n := headN b, block := fun i => if i < headN b then headBlock b i else lh.block i }

/-- `write_head` on the buffer's contents: `n`, then the first `n` entries; the words past them stay. -/
def putHead (lh : LogHeader) (b : Block) : Block :=
  fun w => if w = 0 then lh.n else if w - 1 < lh.n then lh.block (w - 1) else b w

def writeHead (start : Nat) (s : St) : St := bwrite s start (putHead s.lh (content s start))

/-! ## `log_write`'s search -/

/-- The index the absorption loop stops at: the first entry equal to `b`, or `n`. -/
def findBlock (lh : LogHeader) (b : Nat) : Nat := (List.range lh.n).findIdx (fun i => lh.block i == b)

/-- `log.lh.block[i] = b`, with `n` advanced when the loop ran to the end. -/
def absorb (lh : LogHeader) (b : Nat) : LogHeader :=
  { n := if findBlock lh b = lh.n then lh.n + 1 else lh.n,
    block := update lh.block (findBlock lh b) b }

/-! ## The steps -/

def opOf (s : St) (p : Nat) : Option Nat := (s.ops.find? (fun q => q.1 == p)).map Prod.snd

def Pc.booted : Pc → Bool
  | .recRead | .recInstall _ | .recErase => false
  | _ => true

/-- `begin_op` for a process that is not inside an operation; where the source sleeps nothing changes. -/
def beginOp (s : St) (p : Nat) : Option St :=
  if s.pc.booted = false ∨ (opOf s p).isSome then none
  else if s.committing then some s
  else if (s.lh.n : Int) + (s.outstanding + 1) * maxOpBlocks > logBlocks then some s
  else some { s with
    outstanding := s.outstanding + 1
    ops := s.ops ++ [(p, s.nextOp)]
    cur := s.cur ++ [s.nextOp]
    nextOp := s.nextOp + 1 }

/-- The caller leaves `d` in its locked buffer of block `b` and calls `log_write`. -/
def logWrite (s : St) (p b : Nat) (d : Block) : Option St :=
  match opOf s p with
  | none => none
  | some o =>
    let s : St := { s with cache := update s.cache b (some d), hist := s.hist ++ [⟨o, b, d⟩] }
    if s.lh.n ≥ logBlocks then some { s with panic := some .tooBig }
    else if s.outstanding < 1 then some { s with panic := some .outsideTrans }
    else some { s with
      lh := absorb s.lh b
      pins := if findBlock s.lh b = s.lh.n then update s.pins b (s.pins b + 1) else s.pins }

/-- `end_op` up to the release of `log.lock`; the last operation out leaves the log to `commit`. -/
def endOp (s : St) (p : Nat) : Option St :=
  match opOf s p with
  | none => none
  | some o =>
    let s : St := { s with
      outstanding := s.outstanding - 1
      ops := s.ops.filter (fun q => q.1 != p)
      done := s.done ++ [o] }
    if s.committing then some { s with panic := some .logCommitting }
    else if s.outstanding = 0 then
      some { s with committing := true, pc := .commit, groups := s.groups ++ [s.cur], cur := [] }
    else some s

/-- The next step of the thread in `commit` or in `recover_from_log`: at most one block write. -/
def advance (start : Nat) (s : St) : Option St :=
  match s.pc with
  | .idle => none
  -- nothing to write for an empty transaction: `commit` returns at once
  | .commit => some (if s.lh.n > 0 then { s with pc := .writeLog 0 } else { s with pc := .finish, committed := s.groups })
  | .writeLog tail => some (
    if tail < s.lh.n then
      let s := bread s (start + tail + 1)
      let s := bread s (s.lh.block tail)
      { bwrite s (start + tail + 1) (content s (s.lh.block tail)) with pc := .writeLog (tail + 1) }
    else { s with pc := .writeHead })
  -- the commit point
  | .writeHead => some { writeHead start s with pc := .install 0, committed := s.groups }
  | .install tail => some (
    if tail < s.lh.n then
      let s := bread s (start + tail + 1)
      let s := bwrite s (s.lh.block tail) (content s (start + tail + 1))
      { s with
        pins := update s.pins (s.lh.block tail) (s.pins (s.lh.block tail) - 1)
        pc := .install (tail + 1) }
    else { s with lh := { s.lh with n := 0 }, pc := .eraseHead })
  | .eraseHead => some { writeHead start s with pc := .finish }
  | .finish => some { s with committing := false, pc := .idle }
  | .recRead =>
    let s := bread s start
    some { s with lh := readHead s.lh (content s start), pc := .recInstall 0 }
  | .recInstall tail => some (
    if tail < s.lh.n then
      let s := bread s (start + tail + 1)
      { bwrite s (s.lh.block tail) (content s (start + tail + 1)) with pc := .recInstall (tail + 1) }
    else { s with lh := { s.lh with n := 0 }, pc := .recErase })
  | .recErase => some { writeHead start s with pc := .idle }

/-- `bget` recycles a buffer nobody holds: it is not pinned by the log. -/
def evict (s : St) (b : Nat) : Option St :=
  if s.pins b = 0 then some { s with cache := update s.cache b none } else none

/-- The machine stops and boots again: only the disk is left, and what had not reached `commit`'s header write is gone. -/
def crash (s : St) : St :=
  { s with
    cache := fun _ => none
    pins := fun _ => 0
    outstanding := 0
    committing := false
    lh := ⟨0, fun _ => 0⟩
    pc := .recRead
    panic := none
    ops := []
    cur := []
    groups := s.committed }

/-- A panicked kernel only crashes. -/
def step (start : Nat) (s : St) (a : Act) : Option St :=
  match a with
  | .crash => some (crash s)
  | .beginOp p => if s.panic.isSome then none else beginOp s p
  | .logWrite p b d => if s.panic.isSome then none else logWrite s p b d
  | .endOp p => if s.panic.isSome then none else endOp s p
  | .advance => if s.panic.isSome then none else advance start s
  | .read b => if s.panic.isSome then none else some (bread s b)
  | .evict b => if s.panic.isSome then none else evict s b

def boot (d : Nat → Block) : St :=
  { disk := d, cache := fun _ => none, pins := fun _ => 0, outstanding := 0, committing := false, lh := ⟨0, fun _ => 0⟩,
    pc := .recRead, panic := none, ops := [], nextOp := 0, hist := [], done := [], cur := [], groups := [],
    committed := [] }

/-! ## `recover_from_log` over the disk alone -/

/-- The first `k` copies of `install_trans(1)`, on a disk whose header is `lh`. -/
def installTrans (start : Nat) (lh : LogHeader) (k : Nat) (d : Nat → Block) : Nat → Block :=
  (List.range k).foldl (fun d tail => update d (lh.block tail) (d (start + tail + 1))) d

/-- `recover_from_log` cut after `k` block writes; with `k > n` it has run to its end. -/
def recoverCut (start : Nat) (d : Nat → Block) (k : Nat) : Nat → Block :=
  let lh := readHead ⟨0, fun _ => 0⟩ (d start)
  if k ≤ lh.n then installTrans start lh k d
  else
    let d := installTrans start lh lh.n d
    update d start (putHead { lh with n := 0 } (d start))

def recoverFromLog (start : Nat) (d : Nat → Block) : Nat → Block := recoverCut start d (headN (d start) + 1)

/-- The log's blocks: the header and the `LOGBLOCKS` behind it. -/
def logArea (start b : Nat) : Prop := start ≤ b ∧ b ≤ start + logBlocks

/-! ## The frame of the steps -/

@[simp] theorem bread_content (s : St) (b c : Nat) : content (bread s b) c = content s c := by
  by_cases h : c = b
  · subst h; simp [bread, content]
  · simp [bread, content, update_of_ne h]

theorem content_bwrite (s : St) (b c : Nat) (d : Block) :
    content (bwrite s b d) c = if c = b then d else content s c := by
  by_cases h : c = b
  · subst h; simp [bwrite, content]
  · simp [bwrite, content, h]

variable {b : Nat} {lh : LogHeader}

theorem findBlock_lt (h : findBlock lh b ≠ lh.n) : findBlock lh b < lh.n ∧ lh.block (findBlock lh b) = b := by
  have hle : findBlock lh b ≤ lh.n := by
    have := @findIdx_le_length _ (fun i => lh.block i == b) (range lh.n)
    simpa [findBlock] using this
  have hlt : findBlock lh b < lh.n := by omega
  have hlt' : (range lh.n).findIdx (fun i => lh.block i == b) < (range lh.n).length := by
    simpa [findBlock] using hlt
  have := findIdx_getElem (w := hlt')
  simp only [getElem_range, beq_iff_eq] at this
  exact ⟨hlt, this⟩

theorem findBlock_eq : findBlock lh b = lh.n ↔ ∀ i < lh.n, lh.block i ≠ b := by
  constructor
  · intro h i hi hb
    have hlt : (range lh.n).findIdx (fun i => lh.block i == b) < (range lh.n).length :=
      findIdx_lt_length_of_exists ⟨i, by simpa using hi, by simpa using hb⟩
    simp only [length_range] at hlt
    simp only [findBlock] at h
    omega
  · intro h
    by_contra hne
    obtain ⟨h1, h2⟩ := findBlock_lt hne
    exact h _ h1 h2

theorem absorb_mem {c : Nat} :
    (∃ i < (absorb lh b).n, (absorb lh b).block i = c) ↔ c = b ∨ ∃ i < lh.n, lh.block i = c := by
  by_cases hf : findBlock lh b = lh.n
  · simp only [absorb, hf, if_true]
    constructor
    · rintro ⟨i, hi, hc⟩
      by_cases hin : i = lh.n
      · subst hin; simp at hc; exact .inl hc.symm
      · rw [update_of_ne hin] at hc
        exact .inr ⟨i, by omega, hc⟩
    · rintro (rfl | ⟨i, hi, hc⟩)
      · exact ⟨lh.n, by omega, by simp⟩
      · exact ⟨i, by omega, by rw [update_of_ne (by omega)]; exact hc⟩
  · obtain ⟨h1, h2⟩ := findBlock_lt hf
    have hupd : update lh.block (findBlock lh b) b = lh.block := by
      rw [update_eq_self_iff]; exact h2.symm
    simp only [absorb, if_neg hf, hupd]
    constructor
    · exact .inr
    · rintro (rfl | h)
      · exact ⟨_, h1, h2⟩
      · exact h

end Xv6.Log
