import Xv6.FsCalls
/-!
# MkfsModel — `mkfs.c`, and how the kernel reads the image

The image is a file of sectors. `mkfs` fills it with zeros, and then reads and writes whole sectors; a read past the end of
the file, or an assertion that fails, ends it (`Die`). An inode is 64 bytes of an inode block. `mount` is what the kernel
reads back: the superblock, the inodes and the bits.
-/
namespace Xv6.Mkfs

open Function Fs

def fssize : Nat := 2000
def ninodes : Nat := 200
def fsmagic : Nat := 0x10203040
def ipb : Nat := bsize / 64
def bpb : Nat := bsize * 8

def nbitmap : Nat := fssize / bpb + 1
def ninodeblocks : Nat := ninodes / ipb + 1
def nlog : Nat := logBlocks + 1
def nmeta : Nat := 2 + nlog + ninodeblocks + nbitmap
def nblocks : Nat := fssize - nmeta

def sb : Sb where
  size := fssize
  nblocks := nblocks
  ninodes := ninodes
  inodestart := 2 + nlog
  bmapstart := 2 + nlog + ninodeblocks
  nblocks_lt := by decide
  size_lt := by decide
  ninodes_le := by decide

/-! ## Inodes as bytes -/

def typeCode : IType → Nat
  | .none => 0
  | .dir => 1
  | .file => 2
  | .device => 3
  | .symlink => 4

/-- A number that is no type reads as a free inode. -/
def typeOf : Nat → IType
  | 1 => .dir
  | 2 => .file
  | 3 => .device
  | 4 => .symlink
  | _ => .none

def shortBytes (x : Int) : Bytes := [UInt8.ofNat (x % 65536).toNat, UInt8.ofNat ((x % 65536).toNat / 256)]

def shortAt (blk : Nat → UInt8) (off : Nat) : Nat := (blk off).toNat + 256 * (blk (off + 1)).toNat

def wordsBytes (ws : List Nat) : Bytes := ws.flatMap wordBytes

/-- `struct dinode`: four shorts, then words. -/
def dinodeBytes (d : Dinode) : Bytes :=
  shortBytes (typeCode d.type) ++ shortBytes d.major ++ shortBytes d.minor ++ shortBytes d.nlink ++
    wordsBytes (d.size :: (List.range (ndirect + 1)).map d.addrs)

def dinodeAt (blk : Nat → UInt8) (s : Nat) : Dinode where
  type := typeOf (shortAt blk (64 * s))
  major := short (shortAt blk (64 * s + 2))
  minor := short (shortAt blk (64 * s + 4))
  nlink := short (shortAt blk (64 * s + 6))
  size := word blk (16 * s + 2)
  addrs := fun i => if i ≤ ndirect then word blk (16 * s + 3 + i) else 0

/-! ## Sectors -/

/-- How `mkfs` ends early: a failed `assert`, or a `read` that does not return a whole sector. -/
inductive Die where
  | assertion
  | read
  deriving DecidableEq, Repr

structure Img where
  /-- The image file, and its length in sectors. -/
  disk : Nat → Nat → UInt8
  nsect : Nat
  freeinode : Nat
  freeblock : Nat

abbrev MM := StateT Img (Except Die)

def rsect (sec : Nat) : MM (Nat → UInt8) := do
  let g ← get
  if g.nsect ≤ sec then throw .read
  return g.disk sec

def wsect (sec : Nat) (buf : Nat → UInt8) : MM Unit :=
  modify fun g => { g with disk := update g.disk sec buf, nsect := max g.nsect (sec + 1) }

def winode (inum : Nat) (d : Dinode) : MM Unit := do
  let buf ← rsect (iblock sb inum)
  wsect (iblock sb inum) (blit buf (64 * (inum % ipb)) (dinodeBytes d))

def rinode (inum : Nat) : MM Dinode := do
  let buf ← rsect (iblock sb inum)
  return dinodeAt buf (inum % ipb)

def ialloc (type : IType) : MM Nat := do
  let inum := (← get).freeinode
  modify fun g => { g with freeinode := g.freeinode + 1 }
  winode inum { freshDinode type with nlink := 1 }
  return inum

/-- The bits `0` to `used - 1`: `buf[i/8] = buf[i/8] | (0x1 << (i%8))`. -/
def bitmap (used : Nat) : Nat → UInt8 :=
  (List.range used).foldl (fun buf i => update buf (i / 8) (buf (i / 8) ||| 1 <<< UInt8.ofNat (i % 8))) (fun _ => 0)

def balloc (used : Nat) : MM Unit := do
  if bpb ≤ used then throw .assertion
  wsect sb.bmapstart (bitmap used)

/-! ## `iappend` -/

def newBlock : MM Nat := do
  let b := (← get).freeblock
  modify fun g => { g with freeblock := g.freeblock + 1 }
  return b

def addrFor (d : Dinode) (i : Nat) : MM Dinode := do
  if d.addrs i ≠ 0 then return d
  let b ← newBlock
  return { d with addrs := update d.addrs i b }

def wordFor (ind j : Nat) : MM Nat := do
  let indirect ← rsect ind
  if word indirect j ≠ 0 then return word indirect j
  let b ← newBlock
  let indirect := blit indirect (4 * j) (wordBytes b)
  wsect ind indirect
  return word indirect j

/-- The block `x` of `iappend`, and the inode. -/
def blockFor (d : Dinode) (fbn : Nat) : MM (Nat × Dinode) := do
  if fbn < ndirect then
    let d ← addrFor d fbn
    return (d.addrs fbn, d)
  else
    let d ← addrFor d ndirect
    let x ← wordFor (d.addrs ndirect) (fbn - ndirect)
    return (x, d)

/-- The loop of `iappend`; `p` is what is still to be written. -/
def appendLoop : Nat → Dinode → Nat → Bytes → MM (Dinode × Nat)
  | 0, d, off, _ => return (d, off)
  | fuel + 1, d, off, p => do
    if p = [] then return (d, off)
    let fbn := off / bsize
    if maxfile ≤ fbn then throw .assertion
    let (x, d) ← blockFor d fbn
    let n1 := min p.length ((fbn + 1) * bsize - off)
    let buf ← rsect x
    wsect x (blit buf (off - fbn * bsize) (p.take n1))
    appendLoop fuel d (off + n1) (p.drop n1)

def iappend (inum : Nat) (p : Bytes) : MM Unit := do
  let d ← rinode inum
  let (d, off) ← appendLoop p.length d d.size p
  winode inum { d with size := off }

/-! ## `main` -/

/-- An argument of `mkfs`, and what the calls of `read` return for the file it names, one after the other. -/
structure Input where
  arg : Bytes
  chunks : List Bytes
  arg_string : 0 ∉ arg
  chunk_size : ∀ c ∈ chunks, c ≠ [] ∧ c.length ≤ bsize

def Input.contents (f : Input) : Bytes := f.chunks.flatten

def userDir : Bytes := [117, 115, 101, 114, 47]

def underscore : UInt8 := 95

def withoutDir (arg : Bytes) : Bytes := if arg.take 5 = userDir then arg.drop 5 else arg

/-- The name stored for an argument: without `user/`, and without a leading `_`. -/
def shortname (arg : Bytes) : Bytes :=
  if (withoutDir arg).head? = some underscore then (withoutDir arg).tail else withoutDir arg

def Input.name (f : Input) : Bytes := shortname f.arg

def addFile (f : Input) : MM Unit := do
  if slash ∈ withoutDir f.arg then throw .assertion
  if dirsiz < f.name.length then throw .assertion
  let inum ← ialloc .file
  iappend rootino (direntBytes ⟨inum, f.name⟩)
  f.chunks.forM (iappend inum)

def superblock : Nat → UInt8 :=
  blit (fun _ => 0) 0 (wordsBytes [fsmagic, fssize, nblocks, ninodes, nlog, 2, sb.inodestart, sb.bmapstart])

def zeroed : Img where
  disk := fun _ _ => 0
  nsect := fssize
  freeinode := 1
  freeblock := nmeta

/-- `main` after that loop. -/
def mkfs (files : List Input) : MM Unit := do
  wsect 1 superblock
  let root ← ialloc .dir
  if root ≠ rootino then throw .assertion
  iappend root (direntBytes ⟨root, dot⟩)
  iappend root (direntBytes ⟨root, dotdot⟩)
  files.forM addFile
  let d ← rinode root
  winode root { d with size := (d.size / bsize + 1) * bsize }
  balloc (← get).freeblock

/-! ## The kernel -/

/-- `readsb`, with the test of the magic number in `fsinit`. -/
def readsb (blk : Nat → UInt8) : Option Sb :=
  if h : word blk 0 = fsmagic ∧ word blk 2 < word blk 1 ∧ word blk 1 < 2 ^ 32 ∧ word blk 3 ≤ 65536 then
    some ⟨word blk 1, word blk 2, word blk 3, word blk 6, word blk 7, h.2.1, h.2.2.1, h.2.2.2⟩
  else none

/-- `bp->data[bi/8] & (1 << (bi % 8))` -/
def bitAt (blk : Nat → UInt8) (bi : Nat) : Bool := (blk (bi / 8) &&& 1 <<< UInt8.ofNat (bi % 8)) != 0

/-- What the kernel finds on a disk at boot; its inode table is empty. -/
def volume (sb : Sb) (disk : Nat → Nat → UInt8) : Vol :=
  let bit := fun b => bitAt (disk (bblock sb b)) (b % bpb)
  let dinode := fun i => dinodeAt (disk (iblock sb i)) (i % ipb)
  { blk := ⟨sb, bit, disk, 0, [], none, 0, 0⟩
    dinode := dinode
    inode := fun _ => ⟨0, 0, false, freshDinode .none⟩
    locks := []
    disk := blockContent sb dinode bit disk
    trans := []
    peak := 0 }

def mount (g : Img) : Option Vol := (readsb (g.disk 1)).map (fun sb => volume sb g.disk)

/-- Boot, and read the whole file at a path: its type, what `readi` returns, and what it has stored. -/
def readFile (cwd : Ip) (path : Bytes) : FM (Option (IType × Int × Bytes)) := do
  ireclaim
  match ← namei cwd path with
  | none => return none
  | some ip =>
    ilock ip
    let d ← din ip
    let (n, bytes) ← readi ip d.size 0 d.size
    return some (d.type, n, bytes)

/-- Boot, and look a name up in the root directory. -/
def lookupRoot (name : Bytes) : FM (Option (Ip × Nat)) := do
  ireclaim
  let ip ← iget rootino
  ilock ip
  dirlookup ip name

end Xv6.Mkfs
