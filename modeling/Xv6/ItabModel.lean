import Xv6.FsModel
import Xv6.LibRun
/-!
# ItabModel — the inode table on several harts

Every process has one kernel thread; `Pc` is where it stands inside `ialloc`, `ilock`, `writei`, `itrunc`, `iupdate` or
`iput`. One action is a critical section of `itable.lock`, of a buffer that holds inodes, or one change of the fields of
an inode under its `ip->lock`. Between two such functions a thread may go on with any other that the file-system calls
use there: it locks what it has a reference to, changes fields of what it has locked in the ways the calls do, and drops
references it has and has not locked.

References are in somebody's hands: `own` counts those of a process, in its local variables and its working directory,
and an open file has one. `fds` counts the descriptors of a process; `filedup` is also what `fork` does with them.
Whether `balloc` finds a block is a choice of the action. A panic is a step that is not taken.
-/
namespace Xv6.Itab

open Function
open Fs (Dinode IType Ip short bsize ndirect maxfile)

abbrev Fid := Fin 100

structure Inode where
  dev : Nat
  inum : Nat
  ref : Nat
  valid : Bool
  lock : Option Slot
  d : Dinode

structure File where
  ref : Nat
  ip : Ip

/-- What follows an `iupdate`; the last two are in `iput`. -/
inductive After where
  | return
  | clearType
  | clearValid
  deriving DecidableEq, Repr

inductive Pc where
  | idle
  -- `ialloc`: the inode is marked, `iget` comes next
  | iget (dev inum : Nat)
  -- `ilock`: the lock is taken, `ip->valid` is tested next
  | load (i : Ip)
  -- `writei`: in its loop, at `off`
  | write (i : Ip) (off : Nat)
  -- `itrunc`: before entry `j` of `addrs`
  | trunc (i : Ip) (j : Nat) (k : After)
  | iupdate (i : Ip) (k : After)
  -- `iput`: before `ip->type = 0`, before `ip->valid = 0`, before its second section
  | clearType (i : Ip)
  | clearValid (i : Ip)
  | drop (i : Ip)
  deriving DecidableEq, Repr

structure St where
  disk : Nat × Nat → Dinode
  inode : Ip → Inode
  file : Fid → File
  own : Slot → Ip → Nat
  fds : Slot → Fid → Nat
  pc : Slot → Pc

/-- The changes of fields that the calls make under `ip->lock`, each right before an `iupdate`. -/
inductive Edit where
  -- `sys_link`: `ip->nlink++`, and `ip->nlink--` after `bad`
  | linkIncr
  | linkDecr
  -- `sys_unlink`: `dp->nlink--` of a directory's parent, `ip->nlink--`
  | unlinkParent
  | unlinkDecr
  -- `create`: the new inode, `dp->nlink++` for `..`, `ip->nlink = 0` after `fail`
  | createInode (major minor : Int)
  | createParent
  | createFail
  deriving DecidableEq, Repr

def Edit.apply (d : Dinode) : Edit → Dinode
  | .linkIncr => { d with nlink := short (d.nlink + 1) }
  | .linkDecr => { d with nlink := short (d.nlink - 1) }
  | .unlinkParent => { d with nlink := short (d.nlink - 1) }
  | .unlinkDecr => { d with nlink := short (d.nlink - 1) }
  | .createInode major minor => { d with major := short major, minor := short minor, nlink := 1 }
  | .createParent => { d with nlink := short (d.nlink + 1) }
  | .createFail => { d with nlink := 0 }

inductive Act where
  | iget (t : Slot) (dev inum : Nat)
  -- a further reference to an inode of `t`, for `t` itself (`namex`) or for a child (`fork`)
  | idup (t : Slot) (i : Ip) (u : Slot)
  | ialloc (t : Slot) (dev inum : Nat) (type : IType)
  | ilock (t : Slot) (i : Ip)
  | iunlock (t : Slot) (i : Ip)
  | edit (t : Slot) (i : Ip) (e : Edit)
  -- one turn of the loop of `readi`; `b` is what `balloc` would return
  | readi (t : Slot) (i : Ip) (bn b : Nat)
  | writei (t : Slot) (i : Ip) (off : Nat)
  -- in the loop of `writei`: a block is found or allocated, `m` bytes are copied into it, the loop ends
  | bmap (t : Slot) (b : Nat)
  | copied (t : Slot) (m : Nat)
  | wrote (t : Slot)
  | itrunc (t : Slot) (i : Ip)
  | iput (t : Slot) (i : Ip)
  | openFile (t : Slot) (i : Ip) (f : Fid)
  | filedup (t : Slot) (f : Fid) (u : Slot)
  | fileclose (t : Slot) (f : Fid)
  -- the next step of a thread that has only one
  | advance (t : Slot)
  deriving DecidableEq, Repr

def Inode.key (x : Inode) : Nat × Nat := (x.dev, x.inum)

def St.goto (s : St) (t : Slot) (c : Pc) : St := { s with pc := update s.pc t c }

def St.setInode (s : St) (i : Ip) (x : Inode) : St := { s with inode := update s.inode i x }

def St.setDisk (s : St) (key : Nat × Nat) (d : Dinode) : St := { s with disk := update s.disk key d }

def St.setFile (s : St) (f : Fid) (x : File) : St := { s with file := update s.file f x }

def St.setOwn (s : St) (t : Slot) (i : Ip) (n : Nat) : St :=
  { s with own := update s.own t (update (s.own t) i n) }

def St.setFds (s : St) (t : Slot) (f : Fid) (n : Nat) : St :=
  { s with fds := update s.fds t (update (s.fds t) f n) }

/-- A thread may lock an inode through a reference of its own or through a file it has open. -/
def Reach (s : St) (t : Slot) (i : Ip) : Prop := 0 < s.own t i ∨ ∃ f, 0 < s.fds t f ∧ (s.file f).ip = i

instance (s : St) (t : Slot) (i : Ip) : Decidable (Reach s t i) := inferInstanceAs (Decidable (_ ∨ _))

/-- `iget`: the entry found, or the first one that is empty. -/
def iget (s : St) (t : Slot) (dev inum : Nat) : Option St :=
  match (List.finRange 50).find? (fun i => decide (0 < (s.inode i).ref ∧ (s.inode i).key = (dev, inum))) with
  | some i =>
    some (((s.setInode i { s.inode i with ref := (s.inode i).ref + 1 }).setOwn t i (s.own t i + 1)).goto t .idle)
  | none =>
    match (List.finRange 50).find? (fun i => decide ((s.inode i).ref = 0)) with
    | none => none
    | some i =>
      some (((s.setInode i { s.inode i with dev := dev, inum := inum, ref := 1, valid := false }).setOwn t i
        (s.own t i + 1)).goto t .idle)

/-- The last section of `iput`. -/
def dropRef (s : St) (t : Slot) (i : Ip) : St :=
  ((s.setInode i { s.inode i with ref := (s.inode i).ref - 1 }).setOwn t i (s.own t i - 1)).goto t .idle

/-- `iput` up to the end of its first section: it decrements the count, or takes the lock to free the inode. -/
def iput (s : St) (t : Slot) (i : Ip) : Option St :=
  let x := s.inode i
  if x.ref = 1 ∧ x.valid ∧ x.d.nlink = 0 then
    if x.lock = none then some ((s.setInode i { x with lock := some t }).goto t (.trunc i 0 .clearType)) else none
  else some (dropRef s t i)

def addrOf (bn : Nat) : Nat := if bn < ndirect then bn else ndirect

def bmapAddr (d : Dinode) (bn b : Nat) : Dinode :=
  if d.addrs (addrOf bn) = 0 then { d with addrs := update d.addrs (addrOf bn) b } else d

def newInode (type : IType) : Dinode := ⟨type, 0, 0, 0, 0, fun _ => 0⟩

/-- The second half of `ilock`. -/
def load (s : St) (t : Slot) (i : Ip) : Option St :=
  let x := s.inode i
  if x.valid then some (s.goto t .idle)
  else if (s.disk x.key).type = .none then none
  else some ((s.setInode i { x with valid := true, d := s.disk x.key }).goto t .idle)

/-- The next step of a thread inside one of the functions. -/
def advance (s : St) (t : Slot) : Option St :=
  match s.pc t with
  | .idle => none
  | .iget dev inum => iget s t dev inum
  | .load i => load s t i
  | .write _ _ => none
  | .trunc i j k =>
    let x := s.inode i
    if j ≤ ndirect then
      some ((s.setInode i { x with d := { x.d with addrs := update x.d.addrs j 0 } }).goto t (.trunc i (j + 1) k))
    else some ((s.setInode i { x with d := { x.d with size := 0 } }).goto t (.iupdate i k))
  | .iupdate i k =>
    some ((s.setDisk (s.inode i).key (s.inode i).d).goto t (match k with
      | .return => .idle
      | .clearType => .clearType i
      | .clearValid => .clearValid i))
  | .clearType i =>
    let x := s.inode i
    some ((s.setInode i { x with d := { x.d with type := .none } }).goto t (.iupdate i .clearValid))
  | .clearValid i => some ((s.setInode i { s.inode i with valid := false, lock := none }).goto t (.drop i))
  | .drop i => some (dropRef s t i)

/-- `fileclose` up to the end of its section of `ftable.lock`. -/
def closeFd (s : St) (t : Slot) (f : Fid) : St :=
  (s.setFile f ⟨(s.file f).ref - 1, (s.file f).ip⟩).setFds t f (s.fds t f - 1)

def start (s : St) : Act → Option St
  | .iget t dev inum => iget s t dev inum
  | .idup t i u =>
    if 0 < s.own t i then
      some ((s.setInode i { s.inode i with ref := (s.inode i).ref + 1 }).setOwn u i (s.own u i + 1))
    else none
  | .ialloc t dev inum type =>
    if (s.disk (dev, inum)).type = .none ∧ type ≠ .none then
      some ((s.setDisk (dev, inum) (newInode type)).goto t (.iget dev inum))
    else none
  | .ilock t i =>
    if Reach s t i ∧ (s.inode i).lock = none then
      some ((s.setInode i { s.inode i with lock := some t }).goto t (.load i))
    else none
  | .iunlock t i =>
    if (s.inode i).lock = some t then some (s.setInode i { s.inode i with lock := none }) else none
  | .edit t i e =>
    if (s.inode i).lock = some t then
      some ((s.setInode i { s.inode i with d := e.apply (s.inode i).d }).goto t (.iupdate i .return))
    else none
  | .readi t i bn b =>
    if (s.inode i).lock = some t ∧ bn * bsize < (s.inode i).d.size then
      some (s.setInode i { s.inode i with d := bmapAddr (s.inode i).d bn b })
    else none
  | .writei t i off =>
    if (s.inode i).lock = some t ∧ off ≤ (s.inode i).d.size then some (s.goto t (.write i off)) else none
  | .itrunc t i => if (s.inode i).lock = some t then some (s.goto t (.trunc i 0 .return)) else none
  | .iput t i => if 0 < s.own t i ∧ (s.inode i).lock ≠ some t then iput s t i else none
  | .openFile t i f =>
    if 0 < s.own t i ∧ (s.file f).ref = 0 then
      some (((s.setFile f ⟨1, i⟩).setOwn t i (s.own t i - 1)).setFds t f (s.fds t f + 1))
    else none
  | .filedup t f u =>
    if 0 < s.fds t f then
      some ((s.setFile f { s.file f with ref := (s.file f).ref + 1 }).setFds u f (s.fds u f + 1))
    else none
  | .fileclose t f =>
    if 0 < s.fds t f ∧ ∀ i, (s.inode i).lock ≠ some t then
      -- the last close takes the file's reference, for an `iput`
      some (if (s.file f).ref - 1 = 0 then (closeFd s t f).setOwn t (s.file f).ip (s.own t (s.file f).ip + 1)
        else closeFd s t f)
    else none
  | _ => none

/-- One turn of the loop of `writei`. -/
def writeLoop (s : St) (i : Ip) (off : Nat) : Act → Option St
  | .bmap _ b =>
    if off < maxfile * bsize then
      some (s.setInode i { s.inode i with d := bmapAddr (s.inode i).d (off / bsize) b })
    else none
  | .copied t m =>
    if (s.inode i).d.addrs (addrOf (off / bsize)) ≠ 0 ∧ off % bsize + m ≤ bsize ∧ off + m ≤ maxfile * bsize then
      some (s.goto t (.write i (off + m)))
    else none
  | .wrote t =>
    some ((s.setInode i { s.inode i with d := { (s.inode i).d with size := max (s.inode i).d.size off } }).goto t
      (.iupdate i .return))
  | _ => none

def Act.thread : Act → Slot
  | .iget t _ _ | .idup t _ _ | .ialloc t _ _ _ | .ilock t _ | .iunlock t _ | .edit t _ _ | .readi t _ _ _
  | .writei t _ _ | .bmap t _ | .copied t _ | .wrote t | .itrunc t _ | .iput t _ | .openFile t _ _ | .filedup t _ _
  | .fileclose t _ | .advance t => t

def step (s : St) (a : Act) : Option St :=
  match s.pc a.thread with
  | .idle => start s a
  | .write i off => writeLoop s i off a
  | _ => if a = .advance a.thread then advance s a.thread else none

def boot (disk : Nat × Nat → Dinode) : St :=
  { disk := disk
    inode := fun _ => ⟨0, 0, 0, false, none, newInode .none⟩
    file := fun _ => ⟨0, ⟨0, by decide⟩⟩
    own := fun _ _ => 0, fds := fun _ _ => 0, pc := fun _ => .idle }

/-- No block index below the size is unallocated, as far as the inode itself says. -/
def Covered (d : Dinode) : Prop := ∀ bn, bn * bsize < d.size → d.addrs (addrOf bn) ≠ 0

def holders (s : St) (i : Ip) : Nat :=
  ((List.finRange nproc).map (fun t => s.own t i)).sum +
    ((List.finRange 100).map (fun f => if 0 < (s.file f).ref ∧ (s.file f).ip = i then 1 else 0)).sum

/-- **The inode table is coherent.** -/
structure Coherent (s : St) : Prop where
  /-- No inode has two entries. -/
  one : ∀ i j, 0 < (s.inode i).ref → 0 < (s.inode j).ref → (s.inode i).key = (s.inode j).key → i = j
  /-- The count is the number of holders. -/
  count : ∀ i, 0 < (s.inode i).ref → (s.inode i).ref = holders s i
  /-- What is unlocked is on the disk. -/
  same : ∀ i, 0 < (s.inode i).ref → (s.inode i).valid = true → (s.inode i).lock = none →
    (s.inode i).d = s.disk (s.inode i).key

end Xv6.Itab
