import Xv6.LibRun
import Xv6.LibWp
/-!
# VirtioModel — `virtio_disk.c` and the device

What is done between `acquire` and `release` of `vdisk_lock` is one step, up to a `sleep`; the loop of `virtio_disk_intr`
takes a
step for each turn, with the lock held, because the device may add entries to the used ring meanwhile. The device takes the
entries of the available ring in order and completes them in any order. `id`, and `Hist`, name the requests; the driver has no
such numbers.
-/
namespace Xv6.Virtio

open Function

abbrev Pid := Nat
abbrev Buf := Nat

def num : Nat := 8

/-- What an address of a descriptor refers to: `0`, `&disk.ops[i]`, `b->data`, `&disk.info[i].status`. -/
inductive Addr where
  | null
  | op (i : Nat)
  | data (b : Buf)
  | status (i : Nat)
  deriving DecidableEq, Repr

def fNext : Nat := 1
def fWrite : Nat := 2

structure Desc where
  addr : Addr
  len : Nat
  flags : Nat
  next : Nat
  deriving DecidableEq, Repr

def Desc.hasNext (d : Desc) : Bool := decide (d.flags &&& fNext ≠ 0)

def zeroDesc : Desc := ⟨.null, 0, 0, 0⟩

structure BlkReq where
  type : Nat
  reserved : Nat
  sector : Nat
  deriving DecidableEq, Repr

structure Info where
  b : Option Buf
  status : Nat
  deriving DecidableEq, Repr

structure Disk where
  desc : Nat → Desc
  /-- `avail->idx` and `avail->ring` -/
  availIdx : Nat
  availRing : Nat → Nat
  usedIdx : Nat
  usedRing : Nat → Nat
  free : Nat → Bool
  seenIdx : Nat
  info : Nat → Info
  ops : Nat → BlkReq

/-- The device: how far it has looked in the available ring, and the chains it works on. -/
structure Dev where
  seen : Nat
  work : List Nat

/-- A call of `virtio_disk_rw` whose request has been made, with `idx`. -/
structure Req where
  b : Buf
  i0 : Nat
  i1 : Nat
  i2 : Nat
  id : Nat
  deriving DecidableEq, Repr

def Req.chain (r : Req) : List Nat := [r.i0, r.i1, r.i2]

/-- Where a process is in `virtio_disk_rw`. -/
inductive Pc where
  | idle
  /-- About to call `alloc3_desc`, or asleep on `&disk.free[0]`. -/
  | alloc (b : Buf) (blockno : Nat) (write : Bool)
  | sleepFree (b : Buf) (blockno : Nat) (write : Bool)
  /-- About to test `b->disk`, or asleep on `b`. -/
  | wait (r : Req)
  | sleepBuf (r : Req)
  deriving DecidableEq, Repr

inductive Chan where
  | free
  | buf (b : Buf)
  deriving DecidableEq, Repr

def Pc.wake (chan : Chan) : Pc → Pc
  | .sleepFree b blockno write => if chan = .free then .alloc b blockno write else .sleepFree b blockno write
  | .sleepBuf r => if chan = .buf r.b then .wait r else .sleepBuf r
  | pc => pc

/-- `kkill` makes a process that sleeps runnable, whatever it waits for. -/
def Pc.rouse : Pc → Pc
  | .sleepFree b blockno write => .alloc b blockno write
  | .sleepBuf r => .wait r
  | pc => pc

inductive Panic where
  | freeDesc1
  | freeDesc2
  | intrStatus
  | nullBuf
  deriving DecidableEq, Repr

/-- The requests by number: the next one, the last one with a descriptor as its head, and those completed by the device and
consumed by `virtio_disk_intr` in order, each with its buffer. -/
structure Hist where
  next : Nat
  tag : Nat → Nat
  completed : List (Nat × Option Buf)
  consumed : List (Nat × Option Buf)

structure St where
  disk : Disk
  dev : Dev
  /-- `b->disk`, and the process that holds the sleep-lock of `b`. -/
  bdisk : Buf → Bool
  owner : Buf → Option Pid
  pc : Pid → Pc
  intr : Bool
  panic : Option Panic
  hist : Hist

abbrev DM := StateT St (Except Panic)

def modifyDisk (f : Disk → Disk) : DM Unit := modify fun s => { s with disk := f s.disk }

def setPc (p : Pid) (pc : Pc) : DM Unit := modify fun s => { s with pc := update s.pc p pc }

def wakeup (chan : Chan) : DM Unit := modify fun s => { s with pc := fun p => (s.pc p).wake chan }

/-! ## Descriptors -/

def allocDesc : DM (Option Nat) := do
  let s ← get
  match (List.range num).find? s.disk.free with
  | none => return none
  | some i =>
    modifyDisk fun d => { d with free := update d.free i false }
    return some i

def freeDesc (i : Nat) : DM Unit := do
  let s ← get
  if num ≤ i then throw .freeDesc1
  if s.disk.free i then throw .freeDesc2
  modifyDisk fun d => { d with desc := update d.desc i zeroDesc, free := update d.free i true }
  wakeup .free

/-- The loop of `free_chain`. After `num` turns every descriptor is free, and `free_desc` panics. -/
def freeChain : Nat → Nat → DM Unit
  | 0, i => freeDesc i
  | fuel + 1, i => do
    let d := (← get).disk.desc i
    freeDesc i
    if d.hasNext then freeChain fuel d.next

def alloc3Desc : DM (Option (Nat × Nat × Nat)) := do
  match ← allocDesc with
  | none => return none
  | some i0 =>
    match ← allocDesc with
    | none =>
      freeDesc i0
      return none
    | some i1 =>
      match ← allocDesc with
      | none =>
        freeDesc i0
        freeDesc i1
        return none
      | some i2 => return some (i0, i1, i2)

/-! ## `virtio_disk_rw` -/

def format (b : Buf) (blockno : Nat) (write : Bool) (i0 i1 i2 : Nat) : DM Unit := do
  modifyDisk fun d => { d with ops := update d.ops i0 ⟨if write then 1 else 0, 0, blockno * 2⟩ }
  modifyDisk fun d => { d with desc := update d.desc i0 ⟨.op i0, 16, fNext, i1⟩ }
  modifyDisk fun d => { d with desc := update d.desc i1 ⟨.data b, 1024, (if write then 0 else fWrite) ||| fNext, i2⟩ }
  modifyDisk fun d => { d with info := update d.info i0 { d.info i0 with status := 0xff } }
  modifyDisk fun d => { d with desc := update d.desc i2 ⟨.status i0, 1, fWrite, 0⟩ }

/-- `disk.avail->ring[disk.avail->idx % NUM] = idx[0]; disk.avail->idx += 1` -/
def publish (i0 : Nat) : DM Unit :=
  modifyDisk fun d => { d with availRing := update d.availRing (d.availIdx % num) i0
                               availIdx := (d.availIdx + 1) % 2 ^ 16 }

def number (i0 : Nat) : DM Nat := do
  let s ← get
  set { s with hist := { s.hist with next := s.hist.next + 1, tag := update s.hist.tag i0 s.hist.next } }
  return s.hist.next

/-- `while(b->disk == 1) sleep(b, &disk.vdisk_lock)`, and the end of `virtio_disk_rw`. -/
def rwWait (p : Pid) (r : Req) : DM Unit := do
  if (← get).bdisk r.b then setPc p (.sleepBuf r)
  else
    modifyDisk fun d => { d with info := update d.info r.i0 { d.info r.i0 with b := none } }
    freeChain num r.i0
    setPc p .idle

def rwSubmit (p : Pid) (b : Buf) (blockno : Nat) (write : Bool) (i0 i1 i2 : Nat) : DM Unit := do
  format b blockno write i0 i1 i2
  modify fun s => { s with bdisk := update s.bdisk b true }
  modifyDisk fun d => { d with info := update d.info i0 { d.info i0 with b := some b } }
  let id ← number i0
  publish i0
  rwWait p ⟨b, i0, i1, i2, id⟩

/-- `while(1){ if(alloc3_desc(idx) == 0) break; sleep(&disk.free[0], &disk.vdisk_lock); }`, and what follows it. -/
def rwAlloc (p : Pid) (b : Buf) (blockno : Nat) (write : Bool) : DM Unit := do
  match ← alloc3Desc with
  | none => setPc p (.sleepFree b blockno write)
  | some (i0, i1, i2) => rwSubmit p b blockno write i0 i1 i2

/-! ## `virtio_disk_intr` -/

/-- One turn of the loop. -/
def intrTurn : DM Unit := do
  let s ← get
  if s.disk.seenIdx = s.disk.usedIdx then set { s with intr := false }
  else
    let id := s.disk.usedRing (s.disk.seenIdx % num)
    if (s.disk.info id).status ≠ 0 then throw .intrStatus
    match (s.disk.info id).b with
    | none => throw .nullBuf
    | some b =>
      set { s with bdisk := update s.bdisk b false
                   hist := { s.hist with consumed := s.hist.consumed ++ [(s.hist.tag id, some b)] } }
      wakeup (.buf b)
      modifyDisk fun d => { d with seenIdx := (d.seenIdx + 1) % 2 ^ 16 }

/-! ## The device -/

def fetch (s : St) : Option St :=
  if s.dev.seen = s.disk.availIdx then none
  else some { s with dev := ⟨(s.dev.seen + 1) % 2 ^ 16, s.dev.work ++ [s.disk.availRing (s.dev.seen % num)]⟩ }

def bufferOf (d : Disk) (i : Nat) : Option Buf :=
  match (d.desc (d.desc i).next).addr with
  | .data b => some b
  | _ => none

/-- A zero is written to the address of the third descriptor. -/
def writeStatus (d : Disk) (i : Nat) : Nat → Info :=
  match (d.desc (d.desc (d.desc i).next).next).addr with
  | .status j => update d.info j { d.info j with status := 0 }
  | _ => d.info

/-- The device has completed the `k`-th chain it works on: it writes the status, and the head to the used ring. -/
def complete (s : St) (k : Nat) : Option St :=
  match s.dev.work[k]? with
  | none => none
  | some i =>
    some { s with
      disk := { s.disk with info := writeStatus s.disk i
                            usedRing := update s.disk.usedRing (s.disk.usedIdx % num) i
                            usedIdx := (s.disk.usedIdx + 1) % 2 ^ 16 }
      dev := ⟨s.dev.seen, s.dev.work.eraseIdx k⟩
      hist := { s.hist with completed := s.hist.completed ++ [(s.hist.tag i, bufferOf s.disk i)] } }

/-! ## The system -/

inductive Act where
  /-- `acquiresleep(&b->lock)` and `releasesleep(&b->lock)`, in `bget` and `brelse`. -/
  | lockBuf (p : Pid) (b : Buf)
  | unlockBuf (p : Pid) (b : Buf)
  /-- `virtio_disk_rw`, from `bread` or `bwrite` with the buffer locked. -/
  | call (p : Pid) (b : Buf) (blockno : Nat) (write : Bool)
  /-- A process in `virtio_disk_rw` gets `vdisk_lock` and runs until it sleeps or returns. -/
  | run (p : Pid)
  | kill (p : Pid)
  /-- `virtio_disk_intr` gets `vdisk_lock`, and takes a turn of its loop. -/
  | intr
  | turn
  | fetch
  | complete (k : Nat)
  deriving DecidableEq, Repr

def locking (m : DM Unit) (s : St) : Option St :=
  match m.run s with
  | .ok (_, s') => some s'
  | .error e => some { s with panic := some e }

def step (s : St) (a : Act) : Option St :=
  if s.panic ≠ none then none
  else
    match a with
    | .lockBuf p b =>
      if s.pc p = .idle ∧ s.owner b = none then some { s with owner := update s.owner b (some p) } else none
    | .unlockBuf p b =>
      if s.pc p = .idle ∧ s.owner b = some p then some { s with owner := update s.owner b none } else none
    | .call p b blockno write =>
      if s.pc p = .idle ∧ s.owner b = some p then some { s with pc := update s.pc p (.alloc b blockno write) } else none
    | .run p =>
      if s.intr then none
      else
        match s.pc p with
        | .alloc b blockno write => locking (rwAlloc p b blockno write) s
        | .wait r => locking (rwWait p r) s
        | _ => none
    | .kill p => some { s with pc := update s.pc p (s.pc p).rouse }
    | .intr => if s.intr then none else some { s with intr := true }
    | .turn => if s.intr then locking intrTurn s else none
    | .fetch => fetch s
    | .complete k => complete s k

def start : St where
  disk := ⟨fun _ => zeroDesc, 0, fun _ => 0, 0, fun _ => 0, fun i => decide (i < num), 0, fun _ => ⟨none, 0⟩,
    fun _ => ⟨0, 0, 0⟩⟩
  dev := ⟨0, []⟩
  bdisk := fun _ => false
  owner := fun _ => none
  pc := fun _ => .idle
  intr := false
  panic := none
  hist := ⟨0, fun _ => 0, [], []⟩

end Xv6.Virtio
