import Xv6.LibRun
import Xv6.FsModel
/-!
# FsCalls — `sysfile.c`, `file.c` and `pipe.c`: the file-system calls

A system of processes, each with a working directory and open files, takes one complete call after the other. A path is
what user memory holds at the address the process passed: `none` if it cannot be read. Of memory, a call has as further
arguments what allocations and copies to user memory return. A call that panics leaves `panic` set, and the system makes
no further step.

A pipe is its page with the two flags that say which ends are open; the bytes in it are no part of the model.
-/
namespace Xv6.Fs

open Function Wp

/-! ## The system -/

abbrev Fp := Fin 100

/-- `FD_NONE`, `FD_PIPE`, `FD_INODE` and `FD_DEVICE`. -/
inductive FdType where
  | none
  | pipe
  | inode
  | device
  deriving DecidableEq, Repr

structure File where
  type : FdType
  ref : Nat
  readable : Bool
  writable : Bool
  pipe : Nat
  ip : Ip
  off : Nat
  major : Int
  deriving DecidableEq, Repr

structure Pipe where
  page : Bool
  readopen : Bool
  writeopen : Bool
  deriving DecidableEq, Repr

structure Proc where
  cwd : Ip
  ofile : Fin 16 → Option Fp

structure FsState where
  vol : Vol
  ftable : Fp → File
  /-- The pipes made so far, `npipe` of them. -/
  pipe : Nat → Pipe
  npipe : Nat
  proc : Slot → Option Proc
  panic : Option Panic

abbrev SM := StateT FsState (Except Panic)

def onVol {α : Type} (m : FM α) : SM α := fun s =>
  match m.run s.vol with
  | .ok (a, v) => .ok (a, { s with vol := v })
  | .error e => .error e

def setFile (f : Fp) (x : File) : SM Unit := modify fun s => { s with ftable := update s.ftable f x }

def setPipe (i : Nat) (x : Pipe) : SM Unit := modify fun s => { s with pipe := update s.pipe i x }

def setProc (p : Slot) (x : Option Proc) : SM Unit := modify fun s => { s with proc := update s.proc p x }

/-! ## `file.c` and `pipe.c` -/

def files : List Fp := List.finRange 100

def filealloc : SM (Option Fp) := do
  let s ← get
  match files.find? (fun f => decide ((s.ftable f).ref = 0)) with
  | none => return none
  | some f =>
    setFile f { s.ftable f with ref := 1 }
    return some f

def filedup (f : Fp) : SM Unit := do
  let x := (← get).ftable f
  if x.ref < 1 then throw .filedup
  setFile f { x with ref := x.ref + 1 }

/-- One end of a pipe is closed: `kfree(pi)` once both are. -/
def Pipe.close (x : Pipe) (writable : Bool) : Pipe :=
  let readopen := writable && x.readopen
  let writeopen := !writable && x.writeopen
  ⟨x.page && (readopen || writeopen), readopen, writeopen⟩

def pipeclose (i : Nat) (writable : Bool) : SM Unit := do
  setPipe i (((← get).pipe i).close writable)

/-- What `fileclose` does with the file it has taken out of the table. -/
def closeFile (x : File) : SM Unit :=
  match x.type with
  | .none => return ()
  | .pipe => pipeclose x.pipe x.writable
  | .inode | .device => do
    onVol beginOp
    onVol (iput x.ip)
    onVol endOp

def fileclose (f : Fp) : SM Unit := do
  let x := (← get).ftable f
  if x.ref < 1 then throw .fileclose
  if 1 < x.ref then
    setFile f { x with ref := x.ref - 1 }
  else
    setFile f { x with ref := 0, type := .none }
    closeFile x

def pipeFile (i : Nat) (writable : Bool) (x : File) : File :=
  { x with type := .pipe, readable := !writable, writable := writable, pipe := i }

/-- `pipealloc`; `page` is whether `kalloc` finds a page. -/
def pipealloc (page : Bool) : SM (Option (Fp × Fp)) := do
  match ← filealloc with
  | none => return none
  | some f0 =>
    match ← filealloc with
    | none =>
      fileclose f0
      return none
    | some f1 =>
      if page = false then
        fileclose f0
        fileclose f1
        return none
      let s ← get
      set { s with pipe := update s.pipe s.npipe ⟨true, true, true⟩, npipe := s.npipe + 1 }
      setFile f0 (pipeFile s.npipe false (s.ftable f0))
      setFile f1 (pipeFile s.npipe true (s.ftable f1))
      return some (f0, f1)

/-- `devsw[major].read` and `devsw[major].write` are set for the console only; `answer` is what its driver returns. -/
def devsw (major : Int) (answer : Int) : Int := if major = 1 then answer else -1

/-- `filestat`; `copied` is whether the answer can be stored in user memory. -/
def filestat (f : Fp) (copied : Bool) : SM Int := do
  let x := (← get).ftable f
  match x.type with
  | .inode | .device =>
    onVol (ilock x.ip)
    onVol (iunlock x.ip)
    return if copied then 0 else -1
  | .none | .pipe => return -1

/-- User memory has room for `room` bytes at the address passed; `answer` is what a device or a pipe returns. -/
def fileread (f : Fp) (room : Nat) (n : Int) (answer : Int) : SM Int := do
  let x := (← get).ftable f
  if x.readable = false then return -1
  match x.type with
  | .pipe => return answer
  | .device => return devsw x.major answer
  | .inode =>
    onVol (ilock x.ip)
    let (r, _) ← onVol (readi x.ip room x.off (n % 2 ^ 32).toNat)
    setFile f (if 0 < r then { x with off := x.off + r.toNat } else x)
    onVol (iunlock x.ip)
    return r
  | .none => throw .fileread

def writeMax : Nat := (maxOpBlocks - 1 - 1 - 2) / 2 * bsize

/-- One turn of the loop of `filewrite`. -/
def writeChunk (f : Fp) (ip : Ip) (src : Bytes) (n : Nat) : SM Int := do
  onVol beginOp
  onVol (ilock ip)
  let x := (← get).ftable f
  let r ← onVol (writei ip src x.off n)
  setFile f (if 0 < r then { x with off := x.off + r.toNat } else x)
  onVol (iunlock ip)
  onVol endOp
  return r

/-- The loop of `filewrite` for the `n` bytes still to come: `i` at its end. -/
def writeChunks (f : Fp) (ip : Ip) : Nat → Bytes → Nat → Nat → SM Nat
  | 0, _, _, i => return i
  | fuel + 1, src, n, i =>
    if n = 0 then return i
    else do
      let n1 := min n writeMax
      let r ← writeChunk f ip src n1
      if r ≠ n1 then return i
      writeChunks f ip fuel (src.drop n1) (n - n1) (i + n1)

/-- `src` is what can be read of user memory from the address passed on. -/
def filewrite (f : Fp) (src : Bytes) (n : Int) (answer : Int) : SM Int := do
  let x := (← get).ftable f
  if x.writable = false then return -1
  match x.type with
  | .pipe => return answer
  | .device => return devsw x.major answer
  | .inode =>
    let i ← writeChunks f x.ip n.toNat src n.toNat 0
    return if (i : Int) = n then n else -1
  | .none => throw .filewrite

/-! ## `sysfile.c` -/

/-- `argstr`: the string at an address user memory holds, if it fits in `MAXPATH`. -/
def argstr (arg : Option Bytes) : Option Bytes :=
  match arg with
  | none => none
  | some bytes =>
    let str := bytes.takeWhile (fun c => c ≠ 0)
    if str.length < maxpath then some str else none

def fds : List (Fin 16) := List.finRange 16

def argfd (x : Proc) (fd : Int) : Option (Fin 16 × Fp) :=
  match fds.find? (fun i => decide ((i.val : Int) = fd)) with
  | none => none
  | some i => (x.ofile i).map (fun f => (i, f))

def setOfile (p : Slot) (x : Proc) (fd : Fin 16) (f : Option Fp) : SM Unit :=
  setProc p (some { x with ofile := update x.ofile fd f })

def fdalloc (p : Slot) (x : Proc) (f : Fp) : SM (Option (Fin 16)) := do
  match fds.find? (fun i => decide (x.ofile i = none)) with
  | none => return none
  | some fd =>
    setOfile p x fd (some f)
    return some fd

def sysDup (p : Slot) (x : Proc) (fd : Int) : SM Int := do
  match argfd x fd with
  | none => return -1
  | some (_, f) =>
    match ← fdalloc p x f with
    | none => return -1
    | some fd =>
      filedup f
      return fd.val

def sysRead (x : Proc) (fd : Int) (room : Nat) (n answer : Int) : SM Int :=
  match argfd x fd with
  | none => return -1
  | some (_, f) => fileread f room n answer

def sysWrite (x : Proc) (fd : Int) (src : Bytes) (n answer : Int) : SM Int :=
  match argfd x fd with
  | none => return -1
  | some (_, f) => filewrite f src n answer

def sysFstat (x : Proc) (fd : Int) (copied : Bool) : SM Int :=
  match argfd x fd with
  | none => return -1
  | some (_, f) => filestat f copied

def sysClose (p : Slot) (x : Proc) (fd : Int) : SM Int := do
  match argfd x fd with
  | none => return -1
  | some (fd, f) =>
    setOfile p x fd none
    fileclose f
    return 0

def maxSymlinkDepth : Nat := 10

/-- The loop of `follow_symlink` with `MAX_SYMLINK_DEPTH - depth` turns left, and the check for a cycle after it. -/
def followSymlink (cwd : Ip) (ip : Ip) (nofollow : Bool) : Nat → FM (Option Ip)
  | 0 => do
    iunlockput ip
    return none
  | left + 1 => do
    let d ← din ip
    if d.type ≠ .symlink ∨ nofollow = true then return some ip
    let (len, target) ← readi ip (maxpath - 1) 0 (maxpath - 1)
    iunlockput ip
    if len ≤ 0 then return none
    match ← namei cwd (target.takeWhile (fun c => c ≠ 0)) with
    | none => return none
    | some next =>
      ilock next
      followSymlink cwd next nofollow left

/-- The rest of `sys_link` once the count of `ip` has been raised: the new entry. -/
def linkEntry (cwd : Ip) (ip : Ip) (new : Bytes) : FM Bool := do
  match ← nameiparent cwd new with
  | none => return false
  | some (dp, name) =>
    ilock dp
    let r ← dirlink dp name (← inumOf ip)
    iunlockput dp
    return decide (0 ≤ r)

def addLink (ip : Ip) (x : Int) : FM Unit := do
  let d ← din ip
  iassign ip { d with nlink := short (d.nlink + x) }

def link (cwd : Ip) (old new : Bytes) : FM Int := do
  match ← namei cwd old with
  | none => return -1
  | some ip =>
    ilock ip
    let d ← din ip
    if d.type = .dir then
      iunlockput ip
      return -1
    addLink ip 1
    iunlock ip
    if ← linkEntry cwd ip new then
      iput ip
      return 0
    else
      ilock ip
      addLink ip (-1)
      iunlockput ip
      return -1

def sysLink (x : Proc) (old new : Option Bytes) : SM Int := do
  match argstr old, argstr new with
  | some old, some new =>
    onVol beginOp
    let r ← onVol (link x.cwd old new)
    onVol endOp
    return r
  | _, _ => return -1

def emptyLoop (dp : Ip) : List Nat → FM Bool
  | [] => return true
  | off :: rest => do
    let de ← readDirent .isdiremptyReadi dp off
    if de.inum ≠ 0 then return false
    emptyLoop dp rest

def isdirempty (dp : Ip) : FM Bool := do
  let d ← din dp
  emptyLoop dp (offsets 2 d.size)

def dot : Bytes := [46]
def dotdot : Bytes := [46, 46]

/-- `ip` may be removed: it is no directory, or an empty one. -/
def removable (ip : Ip) : FM Bool := do
  let d ← din ip
  if d.type = .dir then isdirempty ip else return true

/-- `..` of a directory is a link to its parent. -/
def addDotdot (dp : Ip) (type : IType) (x : Int) : FM Unit := if type = .dir then addLink dp x else return ()

/-- The end of `sys_unlink`: the entry of `ip` at `off` in `dp` is cleared. -/
def unlinkEntry (dp ip : Ip) (off : Nat) : FM Int := do
  let r ← writei dp (List.replicate 16 0) off 16
  if r ≠ 16 then throw .unlinkWritei
  let d ← din ip
  addDotdot dp d.type (-1)
  iunlockput dp
  addLink ip (-1)
  iunlockput ip
  return 0

def unlink (cwd : Ip) (path : Bytes) : FM Int := do
  match ← nameiparent cwd path with
  | none => return -1
  | some (dp, name) =>
    ilock dp
    if namecmp name dot = true ∨ namecmp name dotdot = true then
      iunlockput dp
      return -1
    match ← dirlookup dp name with
    | none =>
      iunlockput dp
      return -1
    | some (ip, off) =>
      ilock ip
      let d ← din ip
      if d.nlink < 1 then throw .unlinkNlink
      if ← removable ip then
        unlinkEntry dp ip off
      else
        iunlockput ip
        iunlockput dp
        return -1

def sysUnlink (x : Proc) (path : Option Bytes) : SM Int := do
  match argstr path with
  | none => return -1
  | some path =>
    onVol beginOp
    let r ← onVol (unlink x.cwd path)
    onVol endOp
    return r

/-- `dirlink(ip, ".", ip->inum) < 0 || dirlink(ip, "..", dp->inum) < 0`, the other way round. -/
def linkDots (dp ip : Ip) : FM Bool := do
  let r ← dirlink ip dot (← inumOf ip)
  if r < 0 then return false
  let r ← dirlink ip dotdot (← inumOf dp)
  return decide (0 ≤ r)

def linkNew (dp ip : Ip) (name : Bytes) (type : IType) : FM Bool := do
  let ok ← if type = .dir then linkDots dp ip else pure true
  if ok = false then return false
  let r ← dirlink dp name (← inumOf ip)
  return decide (0 ≤ r)

/-- `create` once it is known that `dp` has no entry `name`. -/
def createIn (dp : Ip) (name : Bytes) (type : IType) (major minor : Int) : FM (Option Ip) := do
  match ← ialloc type with
  | none =>
    iunlockput dp
    return none
  | some ip =>
    ilock ip
    let d ← din ip
    iassign ip { d with major := major, minor := minor, nlink := 1 }
    if ← linkNew dp ip name type then
      addDotdot dp type 1
      iunlockput dp
      return some ip
    else
      let d ← din ip
      iassign ip { d with nlink := 0 }
      iunlockput ip
      iunlockput dp
      return none

def create (cwd : Ip) (path : Bytes) (type : IType) (major minor : Int) : FM (Option Ip) := do
  match ← nameiparent cwd path with
  | none => return none
  | some (dp, name) =>
    ilock dp
    match ← dirlookup dp name with
    | some (ip, _) =>
      iunlockput dp
      ilock ip
      let d ← din ip
      if type = .file ∧ (d.type = .file ∨ d.type = .device) then return some ip
      iunlockput ip
      return none
    | none => createIn dp name type major minor

def oWronly : Nat := 0x001
def oRdwr : Nat := 0x002
def oCreate : Nat := 0x200
def oTrunc : Nat := 0x400
def oNofollow : Nat := 0x800

def has (omode flag : Nat) : Bool := decide (omode &&& flag ≠ 0)

/-- `sys_open` up to the inode, which it leaves locked. -/
def openInode (cwd : Ip) (path : Bytes) (omode : Nat) : FM (Option Ip) := do
  if has omode oCreate then
    create cwd path .file 0 0
  else
    match ← namei cwd path with
    | none => return none
    | some ip =>
      ilock ip
      followSymlink cwd ip (has omode oNofollow) maxSymlinkDepth

/-- `(f = filealloc()) == 0 || (fd = fdalloc(f)) < 0`, with the file given back. -/
def openFile (p : Slot) (x : Proc) : SM (Option (Fp × Fin 16)) := do
  match ← filealloc with
  | none => return none
  | some f =>
    match ← fdalloc p x f with
    | none =>
      fileclose f
      return none
    | some fd => return some (f, fd)

/-- The file `sys_open` makes of an inode. -/
def openedFile (ip : Ip) (d : Dinode) (omode : Nat) (x : File) : File :=
  { x with
    type := if d.type = .device then .device else .inode
    major := if d.type = .device then d.major else x.major
    off := if d.type = .device then x.off else 0
    ip := ip
    readable := !has omode oWronly
    writable := has omode oWronly || has omode oRdwr }

def openTrunc (ip : Ip) (type : IType) (omode : Nat) : FM Unit :=
  if has omode oTrunc = true ∧ type = .file then itrunc ip else return ()

/-- `sys_open` from the locked inode on. -/
def openLocked (p : Slot) (x : Proc) (omode : Nat) (ip : Ip) : SM Int := do
  let d ← onVol (din ip)
  if has omode oCreate = false ∧ d.type = .dir ∧ omode ≠ 0 then
    onVol (iunlockput ip)
    return -1
  if d.type = .device ∧ (d.major < 0 ∨ 10 ≤ d.major) then
    onVol (iunlockput ip)
    return -1
  match ← openFile p x with
  | none =>
    onVol (iunlockput ip)
    return -1
  | some (f, fd) =>
    setFile f (openedFile ip d omode ((← get).ftable f))
    onVol (openTrunc ip d.type omode)
    onVol (iunlock ip)
    return fd.val

def sysOpen (p : Slot) (x : Proc) (path : Option Bytes) (omode : Nat) : SM Int := do
  match argstr path with
  | none => return -1
  | some path =>
    onVol beginOp
    match ← onVol (openInode x.cwd path omode) with
    | none =>
      onVol endOp
      return -1
    | some ip =>
      let r ← openLocked p x omode ip
      onVol endOp
      return r

/-- `create` and give the inode back: the bodies of `sys_mkdir` and `sys_mknod`. -/
def makeNode (cwd : Ip) (path : Option Bytes) (type : IType) (major minor : Int) : FM Int := do
  match argstr path with
  | none => return -1
  | some path =>
    match ← create cwd path type major minor with
    | none => return -1
    | some ip =>
      iunlockput ip
      return 0

def sysMkdir (x : Proc) (path : Option Bytes) : SM Int := do
  onVol beginOp
  let r ← onVol (makeNode x.cwd path .dir 0 0)
  onVol endOp
  return r

def sysMknod (x : Proc) (path : Option Bytes) (major minor : Int) : SM Int := do
  onVol beginOp
  let r ← onVol (makeNode x.cwd path .device (short major) (short minor))
  onVol endOp
  return r

def symlink (cwd : Ip) (target path : Bytes) : FM Int := do
  match ← create cwd path .symlink 0 0 with
  | none => return -1
  | some ip =>
    let r ← writei ip target 0 target.length
    iunlockput ip
    return if r ≠ target.length then -1 else 0

def sysSymlink (x : Proc) (target path : Option Bytes) : SM Int := do
  match argstr target, argstr path with
  | some target, some path =>
    onVol beginOp
    let r ← onVol (symlink x.cwd target path)
    onVol endOp
    return r
  | _, _ => return -1

def lookupDir (cwd : Ip) (path : Option Bytes) : FM (Option Ip) := do
  match argstr path with
  | none => return none
  | some path =>
    match ← namei cwd path with
    | none => return none
    | some ip =>
      ilock ip
      let d ← din ip
      if d.type ≠ .dir then
        iunlockput ip
        return none
      iunlock ip
      return some ip

def sysChdir (p : Slot) (x : Proc) (path : Option Bytes) : SM Int := do
  onVol beginOp
  match ← onVol (lookupDir x.cwd path) with
  | none =>
    onVol endOp
    return -1
  | some ip =>
    onVol (iput x.cwd)
    onVol endOp
    setProc p (some { x with cwd := ip })
    return 0

def clearOfile (p : Slot) (fd : Fin 16) : SM Unit := do
  match (← get).proc p with
  | none => return ()
  | some x => setOfile p x fd none

/-- `fd0` and `fd1` of `sys_pipe`; what there is of them is given back if one is missing. -/
def pipeFds (p : Slot) (x : Proc) (rf wf : Fp) : SM (Option (Fin 16 × Fin 16)) := do
  match ← fdalloc p x rf with
  | none => return none
  | some fd0 =>
    let x := { x with ofile := update x.ofile fd0 (some rf) }
    match ← fdalloc p x wf with
    | none =>
      clearOfile p fd0
      return none
    | some fd1 => return some (fd0, fd1)

/-- `copied` is whether both descriptors can be stored in user memory. -/
def sysPipe (p : Slot) (x : Proc) (page copied : Bool) : SM Int := do
  match ← pipealloc page with
  | none => return -1
  | some (rf, wf) =>
    match ← pipeFds p x rf wf with
    | none =>
      fileclose rf
      fileclose wf
      return -1
    | some (fd0, fd1) =>
      if copied then return 0
      clearOfile p fd0
      clearOfile p fd1
      fileclose rf
      fileclose wf
      return -1

/-! ## `exec.c` -/

def field (bytes : Bytes) (off n : Nat) : Nat :=
  ((bytes.drop off).take n).foldr (fun b acc => b.toNat + 256 * acc) 0

def loadseg (ip : Ip) (offset sz : Nat) : List Nat → FM Bool
  | [] => return true
  | i :: rest => do
    let n := min (sz - i) 4096
    let (r, _) ← readi ip n ((offset + i) % 2 ^ 32) n
    if r ≠ n then return false
    loadseg ip offset sz rest

/-- The program headers still to come; `mem` is what the calls of `uvmalloc` return. -/
def loadSegs (ip : Ip) : Nat → Nat → List Bool → FM Bool
  | 0, _, _ => return true
  | n + 1, off, mem => do
    let (r, ph) ← readi ip 56 off 56
    if r ≠ 56 then return false
    if field ph 0 4 ≠ 1 then loadSegs ip n ((off + 56) % 2 ^ 32) mem
    else if field ph 40 8 < field ph 32 8 ∨ 2 ^ 64 ≤ field ph 16 8 + field ph 40 8 ∨ field ph 16 8 % 4096 ≠ 0 then
      return false
    else
      match mem with
      | true :: mem =>
        let sz := field ph 32 8 % 2 ^ 32
        if ← loadseg ip (field ph 8 8 % 2 ^ 32) sz ((List.range ((sz + 4095) / 4096)).map (4096 * ·)) then
          loadSegs ip n ((off + 56) % 2 ^ 32) mem
        else return false
      | _ => return false

/-- `kexec` as long as it holds the inode of the program; `pt` is whether `proc_pagetable` finds memory. -/
def loadFile (cwd : Ip) (path : Bytes) (pt : Bool) (mem : List Bool) : FM Bool := do
  match ← namei cwd path with
  | none => return false
  | some ip =>
    ilock ip
    let (r, elf) ← readi ip 64 0 64
    let ok ← if r ≠ 64 ∨ field elf 0 4 ≠ 0x464C457F ∨ pt = false then pure false
      else loadSegs ip (field elf 56 2) (field elf 32 8 % 2 ^ 32) mem
    iunlockput ip
    return ok

/-- `args` is whether the arguments can be fetched, and `answer` what `kexec` returns once the program is loaded. -/
def sysExec (x : Proc) (path : Option Bytes) (args pt : Bool) (mem : List Bool) (answer : Int) : SM Int := do
  match argstr path with
  | none => return -1
  | some path =>
    if args = false then return -1
    onVol beginOp
    let ok ← onVol (loadFile x.cwd path pt mem)
    onVol endOp
    return if ok then answer else -1

/-! ## `proc.c` -/

def dupOfile (f : Option Fp) : SM Unit :=
  match f with
  | none => return ()
  | some f => filedup f

def kfork (x : Proc) (np : Slot) : SM Int := do
  match (← get).proc np with
  | some _ => return -1
  | none =>
    fds.forM (fun i => dupOfile (x.ofile i))
    let cwd ← onVol (idup x.cwd)
    setProc np (some { x with cwd := cwd })
    return 1

def closeOfile (p : Slot) (i : Fin 16) : SM Unit := do
  match (← get).proc p with
  | none => return ()
  | some x =>
    match x.ofile i with
    | none => return ()
    | some f =>
      fileclose f
      setOfile p x i none

def kexit (p : Slot) (x : Proc) : SM Int := do
  if p = initSlot then throw .initExiting
  fds.forM (fun i => closeOfile p i)
  onVol beginOp
  onVol (iput x.cwd)
  onVol endOp
  setProc p none
  return 0

/-! ## Steps -/

inductive Call where
  | open (path : Option Bytes) (omode : Nat)
  | close (fd : Int)
  | dup (fd : Int)
  | pipe (page copied : Bool)
  | fstat (fd : Int) (copied : Bool)
  | read (fd : Int) (room : Nat) (n answer : Int)
  | write (fd : Int) (src : Bytes) (n answer : Int)
  | mkdir (path : Option Bytes)
  | mknod (path : Option Bytes) (major minor : Int)
  | link (old new : Option Bytes)
  | symlink (target path : Option Bytes)
  | unlink (path : Option Bytes)
  | chdir (path : Option Bytes)
  | exec (path : Option Bytes) (args pt : Bool) (mem : List Bool) (answer : Int)
  | fork (np : Slot)
  | exit

def program (p : Slot) (x : Proc) : Call → SM Int
  | .open path omode => sysOpen p x path omode
  | .close fd => sysClose p x fd
  | .dup fd => sysDup p x fd
  | .pipe page copied => sysPipe p x page copied
  | .fstat fd copied => sysFstat x fd copied
  | .read fd room n answer => sysRead x fd room n answer
  | .write fd src n answer => sysWrite x fd src n answer
  | .mkdir path => sysMkdir x path
  | .mknod path major minor => sysMknod x path major minor
  | .link old new => sysLink x old new
  | .symlink target path => sysSymlink x target path
  | .unlink path => sysUnlink x path
  | .chdir path => sysChdir p x path
  | .exec path args pt mem answer => sysExec x path args pt mem answer
  | .fork np => kfork x np
  | .exit => kexit p x

/-- One complete call by process `p`. -/
def fsStep (s : FsState) (a : Slot × Call) : Option FsState :=
  if s.panic ≠ none then none
  else
    match s.proc a.1 with
    | none => none
    | some x =>
      match (program a.1 x a.2).run s with
      | .ok (_, s') =>
        match s'.vol.blk.halted with
        | none => some s'
        | some e => some { s with panic := some (.logWrite e) }
      | .error e => some { s with panic := some e }

/-! ## The start -/

/-- A disk: `nlink` is a `short`, and there are the inodes from 1 on, `ninodes` with the unused inode 0. -/
structure Image where
  sb : Sb
  dinode : Nat → Dinode
  bit : Nat → Bool
  data : Nat → Nat → UInt8
  nlink_short : ∀ i, short (dinode i).nlink = (dinode i).nlink
  outside : ∀ i, i = 0 ∨ sb.ninodes ≤ i → (dinode i).type = .none

def freeInode : Inode := ⟨0, 0, false, freshDinode .none⟩

def freeFile : File := ⟨.none, 0, false, false, 0, 0, 0, 0⟩

/-- The volume of an image, with the working directory of the first process, `namei("/")`. -/
def mount (im : Image) : Vol where
  blk := ⟨im.sb, im.bit, im.data, 0, [], none, 0, 0⟩
  dinode := im.dinode
  inode := update (fun _ => freeInode) 0 { freeInode with inum := rootino, ref := 1 }
  locks := []
  disk := blockContent im.sb im.dinode im.bit im.data
  trans := []
  peak := 0

def firstProc (v : Vol) (panic : Option Panic) : FsState where
  vol := v
  ftable := fun _ => freeFile
  pipe := fun _ => ⟨false, false, false⟩
  npipe := 0
  proc := update (fun _ => none) initSlot (some ⟨0, fun _ => none⟩)
  panic := panic

/-- The system when the first process is about to run: `fsinit` has reclaimed the orphans, and `kexec("/init")` has locked the
root. -/
def start (im : Image) : FsState :=
  match ireclaim.run (mount im) with
  | .ok (_, v) =>
    firstProc v (v.blk.halted.map .logWrite <|> if (v.dinode rootino).type = .none then some .ilockNoType else none)
  | .error e => firstProc (mount im) (some e)

end Xv6.Fs
