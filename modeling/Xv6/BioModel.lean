import Xv6.LibRing
import Xv6.LibWp
import Xv6.LogModel
/-!
# BioModel — the buffer cache of `bio.c` under the log of `log.c`

The cache is `NBUF` buffers on a ring sorted by use, `bcache.head` its sentinel. Every function is the source's, in the
state monad with a reason to stop: a panic, a sleep-lock whose holder is somebody else (the caller sleeps), or a list
walk that does not come back to the head. An action of a run is one complete call by one process; `commit` is what the
last `end_op` does. The last three fields of the state are history variables that no function reads.
-/
namespace Xv6.Bio

open Function
open Log (Block LogHeader)

abbrev Bno := Fin nbuf

/-- `struct buf`; `lock` is the pid that holds the sleep-lock. -/
structure Buf where
  valid : Bool
  dev : Nat
  blockno : Nat
  lock : Option Nat
  refcnt : Int
  data : Block

inductive Halt where
  | noBuffers
  | bwrite
  | brelse
  | tooBig
  | outsideTrans
  | logCommitting
  | sleeps
  | loops
  deriving DecidableEq, Repr

structure St where
  buf : Bno → Buf
  links : Ring.Links Bno
  disk : Nat → Block
  start : Nat
  lh : LogHeader
  outstanding : Int
  committing : Bool
  -- history: the content last logged or written of each block, the log's pins on each buffer, and whether `bget` ever
  -- recycled a buffer that was locked or pinned
  flat : Nat → Block
  pins : Bno → Nat
  stolen : Bool

abbrev BM := StateT St (Except Halt)

def setBuf (i : Bno) (b : Buf) : BM Unit := modify (fun s => { s with buf := update s.buf i b })

/-! ## `bio.c` -/

def binit : Ring.Links Bno := (List.finRange nbuf).foldl Ring.Links.insert Ring.Links.empty

/-- `acquiresleep`; whoever finds the lock taken sleeps. -/
def acquiresleep (p : Nat) (i : Bno) : BM Unit := do
  let s ← get
  if (s.buf i).lock.isSome then throw .sleeps
  else setBuf i { s.buf i with lock := some p }

/-- The first loop of `bget`. -/
def cached (s : St) (dev blockno : Nat) : Option (Option Bno) :=
  Ring.search s.links.next (fun i => (s.buf i).dev == dev && (s.buf i).blockno == blockno) (nbuf + 1) (s.links.next none)

/-- The second loop of `bget`, from the least recently used buffer. -/
def recyclable (s : St) : Option (Option Bno) :=
  Ring.search s.links.prev (fun i => (s.buf i).refcnt == 0) (nbuf + 1) (s.links.prev none)

def recycle (p : Nat) (i : Bno) (dev blockno : Nat) : BM Bno := do
  modify (fun s => { s with stolen := s.stolen || (s.buf i).lock.isSome || s.pins i != 0 })
  let s ← get
  setBuf i { s.buf i with dev := dev, blockno := blockno, valid := false, refcnt := 1 }
  acquiresleep p i
  pure i

def bgetMiss (p dev blockno : Nat) : BM Bno := do
  let s ← get
  match recyclable s with
  | none => throw .loops
  | some none => throw .noBuffers
  | some (some i) => recycle p i dev blockno

def bgetHit (p : Nat) (i : Bno) : BM Bno := do
  let s ← get
  setBuf i { s.buf i with refcnt := (s.buf i).refcnt + 1 }
  acquiresleep p i
  pure i

def bget (p dev blockno : Nat) : BM Bno := do
  let s ← get
  match cached s dev blockno with
  | none => throw .loops
  | some none => bgetMiss p dev blockno
  | some (some i) => bgetHit p i

/-- `virtio_disk_rw(b, 0)` of a buffer that is not valid. -/
def fill (i : Bno) : BM Unit := do
  let s ← get
  if (s.buf i).valid then pure ()
  else setBuf i { s.buf i with data := s.disk (s.buf i).blockno, valid := true }

def bread (p dev blockno : Nat) : BM Bno := do
  let i ← bget p dev blockno
  fill i
  pure i

def bwrite (p : Nat) (i : Bno) : BM Unit := do
  let s ← get
  if (s.buf i).lock = some p then
    set { s with
      disk := update s.disk (s.buf i).blockno (s.buf i).data
      flat := update s.flat (s.buf i).blockno (s.buf i).data }
  else throw .bwrite

/-- The critical section of `brelse`: a buffer nobody waits for moves to the head of the list. -/
def unref (i : Bno) : BM Unit := do
  let s ← get
  setBuf i { s.buf i with refcnt := (s.buf i).refcnt - 1 }
  if (s.buf i).refcnt - 1 = 0 then modify (fun s => { s with links := (s.links.unlink i).insert i })
  else pure ()

def brelse (p : Nat) (i : Bno) : BM Unit := do
  let s ← get
  if (s.buf i).lock = some p then do
    setBuf i { s.buf i with lock := none }
    unref i
  else throw .brelse

def bpin (i : Bno) : BM Unit := do
  let s ← get
  setBuf i { s.buf i with refcnt := (s.buf i).refcnt + 1 }
  modify (fun s => { s with pins := update s.pins i (s.pins i + 1) })

def bunpin (i : Bno) : BM Unit := do
  let s ← get
  setBuf i { s.buf i with refcnt := (s.buf i).refcnt - 1 }
  modify (fun s => { s with pins := update s.pins i (s.pins i - 1) })

/-! ## `log.c` -/

def setData (i : Bno) (d : Block) : BM Unit := do
  let s ← get
  setBuf i { s.buf i with data := d }

def pinNew (i : Bno) (new : Bool) : BM Unit := if new then bpin i else pure ()

def logWrite (i : Bno) : BM Unit := do
  let s ← get
  if s.lh.n ≥ logBlocks then throw .tooBig
  else if s.outstanding < 1 then throw .outsideTrans
  else do
    set { s with
      lh := Log.absorb s.lh (s.buf i).blockno
      flat := update s.flat (s.buf i).blockno (s.buf i).data }
    pinNew i (Log.findBlock s.lh (s.buf i).blockno == s.lh.n)

def writeLogAt (p tail : Nat) : BM Unit := do
  let s ← get
  let tbuf ← bread p rootDev (s.start + tail + 1)
  let fbuf ← bread p rootDev (s.lh.block tail)
  let s ← get
  setData tbuf (s.buf fbuf).data
  bwrite p tbuf
  brelse p fbuf
  brelse p tbuf

def writeLog (p : Nat) : BM Unit := do
  let s ← get
  (List.range s.lh.n).forM (writeLogAt p)

def writeHead (p : Nat) : BM Unit := do
  let s ← get
  let i ← bread p rootDev s.start
  let s ← get
  setData i (Log.putHead s.lh (s.buf i).data)
  bwrite p i
  brelse p i

def installAt (p tail : Nat) : BM Unit := do
  let s ← get
  let lbuf ← bread p rootDev (s.start + tail + 1)
  let dbuf ← bread p rootDev (s.lh.block tail)
  let s ← get
  setData dbuf (s.buf lbuf).data
  bwrite p dbuf
  bunpin dbuf
  brelse p lbuf
  brelse p dbuf

def installTrans (p : Nat) : BM Unit := do
  let s ← get
  (List.range s.lh.n).forM (installAt p)

def clearLog : BM Unit := modify (fun s => { s with lh := { s.lh with n := 0 } })

def commitAll (p : Nat) : BM Unit := do
  writeLog p
  writeHead p
  installTrans p
  clearLog
  writeHead p

def commit (p : Nat) : BM Unit := do
  let s ← get
  if s.lh.n > 0 then commitAll p else pure ()

/-- `begin_op`; where the source sleeps the call does not return. -/
def beginOp : BM Unit := do
  let s ← get
  if s.committing then throw .sleeps
  else if (s.lh.n : Int) + (s.outstanding + 1) * maxOpBlocks > logBlocks then throw .sleeps
  else set { s with outstanding := s.outstanding + 1 }

def lastOp (p : Nat) : BM Unit := do
  modify (fun s => { s with committing := true })
  commit p
  modify (fun s => { s with committing := false })

def endOp (p : Nat) : BM Unit := do
  modify (fun s => { s with outstanding := s.outstanding - 1 })
  let s ← get
  if s.committing then throw .logCommitting
  else if s.outstanding = 0 then lastOp p
  else pure ()

/-! ## Runs -/

inductive Act where
  | beginOp
  | bread (p blockno : Nat)
  | logWrite (p : Nat) (i : Bno) (d : Block)
  | brelse (p : Nat) (i : Bno)
  | endOp (p : Nat)

/-- What the caller does with a buffer it has locked: it leaves `d` in it and calls `log_write`. -/
def modifyLogged (i : Bno) (d : Block) : BM Unit := do
  setData i d
  logWrite i

/-- The call an action makes; only the holder of a buffer touches it, and `end_op` pairs with `begin_op`. -/
def program (s : St) : Act → Option (BM Unit)
  | .beginOp => some beginOp
  | .bread p b => some (discard (bread p rootDev b))
  | .logWrite p i d => if (s.buf i).lock = some p then some (modifyLogged i d) else none
  | .brelse p i => if (s.buf i).lock = some p then some (brelse p i) else none
  | .endOp p => if 1 ≤ s.outstanding then some (endOp p) else none

/-- One complete call. A call that would sleep, or that panics, is not a step. -/
def step (s : St) (a : Act) : Option St :=
  match program s a with
  | none => none
  | some m =>
    match m.run s with
    | .ok (_, s') => some s'
    | .error _ => none

def boot (start : Nat) (disk : Nat → Block) : St :=
  { buf := fun _ => ⟨false, 0, 0, none, 0, fun _ => 0⟩, links := binit, disk := disk, start := start,
    lh := ⟨0, fun _ => 0⟩, outstanding := 0, committing := false, flat := disk, pins := fun _ => 0, stolen := false }

end Xv6.Bio
