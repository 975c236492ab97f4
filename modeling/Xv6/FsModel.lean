import Xv6.LibWp
import Xv6.Param
/-!
# FsModel — `fs.c`: blocks, inodes, directories and paths

The disk is what `bread` returns: the inode blocks as a table of inodes, the bitmap as a table of bits, the other blocks
as bytes. An inode number is the 16-bit number of a directory entry; the table has an inode for each of them. The inode
table of the kernel is beside the disk. A function that can sleep only on a lock it holds itself stops with `deadlock`.

`bmap`, `itrunc` and the loops of `readi` and `writei` change the copy of the inode they have locked: they take the copy and
return it.

Operations run one after the other, so that `end_op` commits: what the blocks passed to `log_write` since `begin_op`
(`logged`) hold then goes to their home locations (`disk`) and is one transaction of the log (`trans`). `ballocs`,
`readAllocs` and `peak` record what happened: the calls of `balloc` and those of them made by `readi`, the most inodes ever
locked at once. Nothing reads them. A panic of `log_write` is kept in `halted`, and the call it has stopped ends in that
panic (`fsStep`, `start`); what a function computes after it is void.
-/
namespace Xv6.Fs

open Function

abbrev Bytes := List UInt8

def bsize : Nat := 1024
def ndirect : Nat := 12
def nindirect : Nat := bsize / 4
def maxfile : Nat := ndirect + nindirect
def dirsiz : Nat := 14
def maxpath : Nat := 128
def rootino : Nat := 1

abbrev Ip := Fin 50

/-- `T_DIR`, `T_FILE`, `T_DEVICE` and `T_SYMLINK`; a free inode has type 0. -/
inductive IType where
  | none
  | dir
  | file
  | device
  | symlink
  deriving DecidableEq, Repr

/-- The calls of `panic` in `log_write`. -/
inductive LogPanic where
  | tooBig
  | outsideTrans
  deriving DecidableEq, Repr

/-- The calls of `panic`, and the wait for a lock that is never released. -/
inductive Panic where
  | freeingFreeBlock
  | bmapOutOfRange
  | igetNoInodes
  | ilock
  | ilockNoType
  | iunlock
  | dirlookupNotDir
  | dirlookupRead
  | dirlinkRead
  | isdiremptyReadi
  | unlinkNlink
  | unlinkWritei
  | filedup
  | fileclose
  | fileread
  | filewrite
  | initExiting
  | logWrite (e : LogPanic)
  | deadlock
  deriving DecidableEq, Repr

def short (x : Int) : Int := Int.bmod x 65536

structure Dinode where
  type : IType
  major : Int
  minor : Int
  nlink : Int
  size : Nat
  addrs : Nat → Nat

/-- The superblock. The blocks that are not data blocks come first; block 0, the boot block, is one of them. -/
structure Sb where
  size : Nat
  nblocks : Nat
  ninodes : Nat
  inodestart : Nat
  bmapstart : Nat
  nblocks_lt : nblocks < size
  size_lt : size < 2 ^ 32
  ninodes_le : ninodes ≤ 65536

def Sb.nmeta (sb : Sb) : Nat := sb.size - sb.nblocks

structure Blocks where
  sb : Sb
  bit : Nat → Bool
  data : Nat → Nat → UInt8
  outstanding : Nat
  logged : List Nat
  halted : Option LogPanic
  ballocs : Nat
  readAllocs : Nat

abbrev BM := StateT Blocks (Except Panic)

/-! ## Bytes -/

def slice (blk : Nat → UInt8) (off m : Nat) : Bytes := (List.range m).map (fun k => blk (off + k))

def blit (blk : Nat → UInt8) (off : Nat) (bs : Bytes) : Nat → UInt8 :=
  fun k => if off ≤ k ∧ k < off + bs.length then bs.getD (k - off) 0 else blk k

/-- The `j`-th word of a block, little endian: `a[j]`. -/
def word (blk : Nat → UInt8) (j : Nat) : Nat :=
  (blk (4 * j)).toNat + 256 * (blk (4 * j + 1)).toNat + 65536 * (blk (4 * j + 2)).toNat +
    16777216 * (blk (4 * j + 3)).toNat

def wordBytes (x : Nat) : Bytes :=
  [UInt8.ofNat x, UInt8.ofNat (x / 256), UInt8.ofNat (x / 65536), UInt8.ofNat (x / 16777216)]

/-! ## Blocks -/

/-- The checks of `log_write`: `log.lh.n` is the number of distinct blocks that have been logged. -/
def logPanic (k : Blocks) : Option LogPanic :=
  if logBlocks ≤ k.logged.dedup.length then some .tooBig
  else if k.outstanding < 1 then some .outsideTrans
  else none

abbrev Blocks.log (k : Blocks) (b : Nat) : Blocks := { k with halted := k.halted <|> logPanic k, logged := b :: k.logged }

def logWrite (b : Nat) : BM Unit := modify fun k => k.log b

def setData (b : Nat) (blk : Nat → UInt8) : BM Unit := modify fun k => { k with data := update k.data b blk }

def setBit (b : Nat) (x : Bool) : BM Unit := modify fun k => { k with bit := update k.bit b x }

def bblock (sb : Sb) (b : Nat) : Nat := b / (bsize * 8) + sb.bmapstart

def iblock (sb : Sb) (i : Nat) : Nat := i / 16 + sb.inodestart

def bzero (b : Nat) : BM Unit := do
  setData b (fun _ => 0)
  logWrite b

def balloc : BM Nat := do
  modify fun k => { k with ballocs := k.ballocs + 1 }
  let k ← get
  match (List.range k.sb.size).find? (fun b => !k.bit b) with
  | none => return 0
  | some b =>
    setBit b true
    logWrite (bblock k.sb b)
    bzero b
    return b

def bfree (b : Nat) : BM Unit := do
  let k ← get
  if k.bit b = false then throw .freeingFreeBlock
  setBit b false
  logWrite (bblock k.sb b)

/-- `ip->addrs[i]`, allocated if it is zero. -/
def ballocAt (d : Dinode) (i : Nat) : BM (Nat × Dinode) := do
  if d.addrs i ≠ 0 then return (d.addrs i, d)
  let addr ← balloc
  if addr = 0 then return (0, d)
  return (addr, { d with addrs := update d.addrs i addr })

/-- `a[j] = addr; log_write(bp)`, if a block was found. -/
def storeWord (ind j addr : Nat) : BM Unit := do
  if addr = 0 then return ()
  setData ind (blit ((← get).data ind) (4 * j) (wordBytes addr))
  logWrite ind

def bmap (d : Dinode) (bn : Nat) : BM (Nat × Dinode) := do
  if bn < ndirect then
    ballocAt d bn
  else if bn - ndirect < nindirect then
    let (ind, d) ← ballocAt d ndirect
    if ind = 0 then return (0, d)
    let addr := word ((← get).data ind) (bn - ndirect)
    if addr ≠ 0 then return (addr, d)
    let addr ← balloc
    storeWord ind (bn - ndirect) addr
    return (addr, d)
  else
    throw .bmapOutOfRange

def freeAddr (a : Nat) : BM Unit := if a = 0 then return () else bfree a

/-- The second half of `itrunc`: the indirect block and what it lists. -/
def freeIndirect (a : Nat) : BM Unit := do
  if a = 0 then return ()
  let blk := (← get).data a
  (List.range nindirect).forM (fun j => freeAddr (word blk j))
  bfree a

/-- `itrunc` up to its `iupdate`. -/
def truncBlocks (d : Dinode) : BM Dinode := do
  (List.range ndirect).forM (fun i => freeAddr (d.addrs i))
  freeIndirect (d.addrs ndirect)
  return { d with size := 0, addrs := fun _ => 0 }

/-- The ranges of a transfer of `n` bytes at `off`, one for each block: `m = min(n - tot, BSIZE - off%BSIZE)`. -/
def pieces : Nat → Nat → Nat → List (Nat × Nat)
  | 0, _, _ => []
  | fuel + 1, off, n =>
    if n = 0 then []
    else
      let m := min n (bsize - off % bsize)
      (off, m) :: pieces fuel (off + m) (n - m)

def bmapRead (d : Dinode) (bn : Nat) : BM (Nat × Dinode) := do
  let n := (← get).ballocs
  let r ← bmap d bn
  modify fun k => { k with readAllocs := k.readAllocs + (k.ballocs - n) }
  return r

/-- The loop of `readi`; the destination has room for `room` bytes. The result is `tot`, what was stored, and the inode. -/
def readLoop (room : Nat) (d : Dinode) (out : Bytes) : List (Nat × Nat) → BM (Int × Bytes × Dinode)
  | [] => return ((out.length : Int), out, d)
  | (off, m) :: rest => do
    let (addr, d) ← bmapRead d (off / bsize)
    if addr = 0 then return ((out.length : Int), out, d)
    let bytes := slice ((← get).data addr) (off % bsize) m
    if room < out.length + m then return (-1, out ++ bytes.take (room - out.length), d)
    readLoop room d (out ++ bytes) rest

/-- The loop of `writei`; `src` is what can be read of the source. `either_copyin` stores what it can read before it
fails. -/
def writeLoop (d : Dinode) (src : Bytes) (tot : Nat) : List (Nat × Nat) → BM (Nat × Dinode)
  | [] => return (tot, d)
  | (off, m) :: rest => do
    let (addr, d) ← bmap d (off / bsize)
    if addr = 0 then return (tot, d)
    setData addr (blit ((← get).data addr) (off % bsize) (src.take m))
    if src.length < m then return (tot, d)
    logWrite addr
    writeLoop d (src.drop m) (tot + m) rest

/-! ## Inodes -/

structure Inode where
  inum : Nat
  ref : Int
  valid : Bool
  din : Dinode

/-- What a block holds: the inodes of an inode block, the bits of a bitmap block, the bytes of any other. -/
structure Content where
  dinode : Nat → Dinode
  bit : Nat → Bool
  bytes : Nat → UInt8

abbrev Trans := List (Nat × Content)

structure Vol where
  blk : Blocks
  dinode : Nat → Dinode
  inode : Ip → Inode
  /-- The inodes whose sleep-lock is held. -/
  locks : List Ip
  /-- The home locations, and the transactions that have been committed. -/
  disk : Nat → Content
  trans : List Trans
  peak : Nat

abbrev Vol.outstanding (v : Vol) : Nat := v.blk.outstanding

abbrev FM := StateT Vol (Except Panic)

def onBlocks {α : Type} (m : BM α) : FM α := fun v =>
  match m.run v.blk with
  | .ok (a, k) => .ok (a, { v with blk := k })
  | .error e => .error e

def setInode (ip : Ip) (x : Inode) : FM Unit := modify fun v => { v with inode := update v.inode ip x }

def din (ip : Ip) : FM Dinode := do
  return ((← get).inode ip).din

def setDin (ip : Ip) (d : Dinode) : FM Unit := do
  let x := (← get).inode ip
  setInode ip { x with din := d }

def inumOf (ip : Ip) : FM Nat := do
  return ((← get).inode ip).inum

def beginOp : FM Unit := modify fun v => { v with blk := { v.blk with outstanding := v.outstanding + 1 } }

def blockContent (sb : Sb) (dinode : Nat → Dinode) (bit : Nat → Bool) (data : Nat → Nat → UInt8) (b : Nat) : Content where
  dinode := fun j => dinode (16 * (b - sb.inodestart) + j)
  bit := fun j => bit (bsize * 8 * (b - sb.bmapstart) + j)
  bytes := data b

def content (v : Vol) : Nat → Content := blockContent v.blk.sb v.dinode v.blk.bit v.blk.data

def installTrans (disk : Nat → Content) (t : Trans) : Nat → Content :=
  t.foldl (fun d w => update d w.1 w.2) disk

/-- `log_write` of a block that is in the log already is absorbed. -/
def transOf (v : Vol) : Trans := v.blk.logged.dedup.map (fun b => (b, content v b))

def endOp : FM Unit := modify fun v =>
  { v with
    blk := { v.blk with outstanding := v.outstanding - 1, logged := [] }
    disk := installTrans v.disk (transOf v)
    trans := v.trans ++ [transOf v] }

def acquiresleep (ip : Ip) : FM Unit := do
  let v ← get
  if ip ∈ v.locks then throw .deadlock
  set { v with locks := ip :: v.locks, peak := max v.peak (v.locks.length + 1) }

def releasesleep (ip : Ip) : FM Unit := modify fun v => { v with locks := v.locks.erase ip }

def iupdate (ip : Ip) : FM Unit := do
  let v ← get
  let x := v.inode ip
  set { v with dinode := update v.dinode x.inum x.din }
  onBlocks (logWrite (iblock v.blk.sb x.inum))

/-- Fields of the inode are assigned, and `iupdate` writes them. -/
def iassign (ip : Ip) (d : Dinode) : FM Unit := do
  setDin ip d
  iupdate ip

def slots : List Ip := List.finRange 50

def iget (inum : Nat) : FM Ip := do
  let v ← get
  match slots.find? (fun ip => decide (0 < (v.inode ip).ref ∧ (v.inode ip).inum = inum)) with
  | some ip =>
    setInode ip { v.inode ip with ref := (v.inode ip).ref + 1 }
    return ip
  | none =>
    match slots.find? (fun ip => decide ((v.inode ip).ref = 0)) with
    | none => throw .igetNoInodes
    | some ip =>
      setInode ip { v.inode ip with inum := inum, ref := 1, valid := false }
      return ip

def idup (ip : Ip) : FM Ip := do
  let x := (← get).inode ip
  setInode ip { x with ref := x.ref + 1 }
  return ip

def freshDinode (type : IType) : Dinode := ⟨type, 0, 0, 0, 0, fun _ => 0⟩

def ialloc (type : IType) : FM (Option Ip) := do
  let v ← get
  match (List.range' 1 (v.blk.sb.ninodes - 1)).find? (fun i => decide ((v.dinode i).type = .none)) with
  | none => return none
  | some i =>
    set { v with dinode := update v.dinode i (freshDinode type) }
    onBlocks (logWrite (iblock v.blk.sb i))
    let ip ← iget i
    return some ip

/-- `if(ip->valid == 0)`: read the inode. -/
def ifill (ip : Ip) : FM Unit := do
  let v ← get
  let x := v.inode ip
  if x.valid then return ()
  setInode ip { x with din := v.dinode x.inum, valid := true }
  if (v.dinode x.inum).type = .none then throw .ilockNoType

def ilock (ip : Ip) : FM Unit := do
  if ((← get).inode ip).ref < 1 then throw .ilock
  acquiresleep ip
  ifill ip

def iunlock (ip : Ip) : FM Unit := do
  let v ← get
  if ip ∉ v.locks ∨ (v.inode ip).ref < 1 then throw .iunlock
  releasesleep ip

def itrunc (ip : Ip) : FM Unit := do
  let d ← din ip
  let d ← onBlocks (truncBlocks d)
  iassign ip d

/-- The inode has no links and no other references: truncate and free. -/
def ifree (ip : Ip) : FM Unit := do
  acquiresleep ip
  itrunc ip
  let d ← din ip
  iassign ip { d with type := .none }
  let x := (← get).inode ip
  setInode ip { x with valid := false }
  releasesleep ip

def dropRef (ip : Ip) : FM Unit := do
  let x := (← get).inode ip
  setInode ip { x with ref := x.ref - 1 }

def iput (ip : Ip) : FM Unit := do
  let x := (← get).inode ip
  if x.ref = 1 ∧ x.valid = true ∧ x.din.nlink = 0 then
    ifree ip
    dropRef ip
  else
    dropRef ip

def iunlockput (ip : Ip) : FM Unit := do
  iunlock ip
  iput ip

def reclaim (inum : Nat) : FM Unit := do
  let d := (← get).dinode inum
  if d.type ≠ .none ∧ d.nlink = 0 then
    let ip ← iget inum
    beginOp
    ilock ip
    iunlock ip
    iput ip
    endOp

def ireclaim : FM Unit := do
  (List.range' 1 ((← get).blk.sb.ninodes - 1)).forM reclaim

/-- The destination has room for `room` bytes: a kernel buffer has room for all, user memory for those up to the first
address that cannot be written. The result is what `readi` returns, and what it has stored. -/
def readi (ip : Ip) (room off n : Nat) : FM (Int × Bytes) := do
  let d ← din ip
  if off > d.size ∨ (off + n) % 2 ^ 32 < off then return (0, [])
  let n := if (off + n) % 2 ^ 32 > d.size then d.size - off else n
  let (tot, out, d) ← onBlocks (readLoop room d [] (pieces n off n))
  setDin ip d
  return (tot, out)

def writei (ip : Ip) (src : Bytes) (off n : Nat) : FM Int := do
  let d ← din ip
  if off > d.size ∨ (off + n) % 2 ^ 32 < off then return -1
  if (off + n) % 2 ^ 32 > maxfile * bsize then return -1
  let (tot, d) ← onBlocks (writeLoop d src 0 (pieces n off n))
  iassign ip (if off + tot > d.size then { d with size := off + tot } else d)
  return (tot : Int)

/-! ## Directories -/

structure Dirent where
  inum : Nat
  name : Bytes
  deriving DecidableEq, Repr

/-- What `strncmp` and `strncpy` read of a name: up to `DIRSIZ` bytes, or to the NUL. -/
def cname (name : Bytes) : Bytes := (name.take dirsiz).takeWhile (fun c => c ≠ 0)

def namecmp (s t : Bytes) : Bool := decide (cname s = cname t)

def parseDirent (bytes : Bytes) : Dirent :=
  ⟨(bytes.getD 0 0).toNat + 256 * (bytes.getD 1 0).toNat, (bytes.drop 2).take dirsiz⟩

def direntBytes (de : Dirent) : Bytes :=
  [UInt8.ofNat de.inum, UInt8.ofNat (de.inum / 256)] ++ (cname de.name ++ List.replicate dirsiz 0).take dirsiz

def readDirent (e : Panic) (dp : Ip) (off : Nat) : FM Dirent := do
  let (r, bytes) ← readi dp 16 off 16
  if r ≠ 16 then throw e
  return parseDirent bytes

def offsets (start size : Nat) : List Nat := (List.range' start ((size + 15) / 16 - start)).map (fun k => 16 * k)

def lookupLoop (dp : Ip) (name : Bytes) : List Nat → FM (Option (Ip × Nat))
  | [] => return none
  | off :: rest => do
    let de ← readDirent .dirlookupRead dp off
    if de.inum ≠ 0 ∧ namecmp name de.name = true then
      let ip ← iget de.inum
      return some (ip, off)
    lookupLoop dp name rest

def dirlookup (dp : Ip) (name : Bytes) : FM (Option (Ip × Nat)) := do
  let d ← din dp
  if d.type ≠ .dir then throw .dirlookupNotDir
  lookupLoop dp name (offsets 0 d.size)

def holeLoop (dp : Ip) (last : Nat) : List Nat → FM Nat
  | [] => return last
  | off :: rest => do
    let de ← readDirent .dirlinkRead dp off
    if de.inum = 0 then return off
    holeLoop dp last rest

def dirlink (dp : Ip) (name : Bytes) (inum : Nat) : FM Int := do
  match ← dirlookup dp name with
  | some (ip, _) =>
    iput ip
    return -1
  | none =>
    let d ← din dp
    let off ← holeLoop dp (16 * ((d.size + 15) / 16)) (offsets 0 d.size)
    let r ← writei dp (direntBytes ⟨inum, name⟩) off 16
    return if r ≠ 16 then -1 else 0

/-! ## Paths -/

def slash : UInt8 := 47

/-- The next element of a path, and the path after it. -/
def skipelem (path : Bytes) : Option (Bytes × Bytes) :=
  let path := path.dropWhile (fun c => c = slash)
  if path = [] then none
  else
    some ((path.takeWhile (fun c => c ≠ slash)).take dirsiz,
      (path.dropWhile (fun c => c ≠ slash)).dropWhile (fun c => c = slash))

/-- What `skipelem` returns one call after the other. -/
def elemsLoop : Nat → Bytes → List Bytes
  | 0, _ => []
  | fuel + 1, path =>
    match skipelem path with
    | none => []
    | some (name, path) => name :: elemsLoop fuel path

def elems (path : Bytes) : List Bytes := elemsLoop path.length path

/-- The loop of `namex`, over the elements still to come: `*path == 0` if there is none after this one. -/
def namexLoop (parent : Bool) (ip : Ip) : List Bytes → FM (Option (Ip × Bytes))
  | [] =>
    if parent then do
      iput ip
      return none
    else return some (ip, [])
  | name :: rest => do
    ilock ip
    let d ← din ip
    if d.type ≠ .dir then
      iunlockput ip
      return none
    if parent = true ∧ rest = [] then
      iunlock ip
      return some (ip, name)
    match ← dirlookup ip name with
    | none =>
      iunlockput ip
      return none
    | some (next, _) =>
      iunlockput ip
      namexLoop parent next rest

def namexStart (cwd : Ip) (path : Bytes) : FM Ip :=
  if path.head? = some slash then iget rootino else idup cwd

/-- `cwd` is the working directory of the process. -/
def namex (cwd : Ip) (path : Bytes) (parent : Bool) : FM (Option (Ip × Bytes)) := do
  let ip ← namexStart cwd path
  namexLoop parent ip (elems path)

def namei (cwd : Ip) (path : Bytes) : FM (Option Ip) := do
  let r ← namex cwd path false
  return r.map Prod.fst

def nameiparent (cwd : Ip) (path : Bytes) : FM (Option (Ip × Bytes)) := namex cwd path true

end Xv6.Fs
