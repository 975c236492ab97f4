import Xv6.LibRun
import Xv6.VmExec
/-!
# VmModel — processes and their memory: the memory side of `proc.c`, `pipe.c`, `file.c` and `trap.c`

The system: processes with their page tables, trapframes and open files, the pipes, the kernel's own pages. Every system
call and every user access is one step; the first steps are those of `main`.

`trace` records, in order, what the kernel has let happen to user memory: each fork, each store with its bytes, each
shrink, each new program with what was written into it. Nothing reads it. It is what a kernel that copies eagerly on
fork would be told, and `refMem` is the memory such a kernel would have.
-/
namespace Xv6.Vm

open Function Wp

/-- What has happened to the user memory of a process. -/
inductive Effect where
  | fork (p c : Slot)
  | store (p : Slot) (va : Nat) (bytes : List UInt8)
  | shrink (p : Slot) (v : Nat)
  | exec (p : Slot) (image : List (Nat × List UInt8))
  | exit (p : Slot)
  deriving DecidableEq, Repr

/-- **The reference memory**: fork copies at once, a store reaches the storing process only. -/
def refStep (m : Slot → Nat → UInt8) : Effect → Slot → Nat → UInt8
  | .fork p c => update m c (m p)
  | .store p va bytes => update m p (writeBytes (m p) va bytes)
  | .shrink p v => update m p (fun a => if a / 4096 < v then m p a else 0)
  | .exec p image => update m p (writeAll (fun _ => 0) image)
  | .exit p => update m p (fun _ => 0)

def refMem (trace : List Effect) : Slot → Nat → UInt8 := trace.foldl refStep (fun _ _ => 0)

/-! ## The system -/

/-- `UNUSED`, `USED`, one of the states of a process that runs, `ZOMBIE`. -/
inductive PState where
  | unused
  | used
  | live
  | zombie
  deriving DecidableEq, Repr

inductive FileKind where
  | none
  | pipe (pi : Nat) (writable : Bool)
  | other
  deriving DecidableEq, Repr

structure File where
  ref : Nat
  kind : FileKind
  deriving DecidableEq, Repr

structure Proc where
  state : PState
  pagetable : Option Pt
  sz : Nat
  trapframe : Option Nat
  parent : Option Slot
  xstate : Nat
  ofile : Fin 16 → Option (Fin 100)

structure VmState where
  k : Kmem
  /-- `kernel_pagetable`, the kernel stacks, and the three pages of the disk's queue. -/
  kpt : Option Pt
  kstack : List Nat
  disk : List Nat
  proc : Slot → Proc
  file : Fin 100 → File
  /-- `readopen` and `writeopen` of the pipe in a page. -/
  pipe : Nat → Bool × Bool
  panic : Option Panic
  trace : List Effect

variable [Link]

abbrev VM := StateT VmState (Except Panic)

def onMem {α : Type} (m : KM α) : VM α := fun s =>
  match m.run s.k with
  | .ok (a, k) => .ok (a, { s with k := k })
  | .error e => .error e

def setProc (p : Slot) (x : Proc) : VM Unit := modify fun s => { s with proc := update s.proc p x }

def setFile (f : Fin 100) (x : File) : VM Unit := modify fun s => { s with file := update s.file f x }

def happens (e : Effect) : VM Unit := modify fun s => { s with trace := s.trace ++ [e] }

def unusedProc : Proc := ⟨.unused, none, 0, none, none, 0, fun _ => none⟩

def freeTrapframe : Option Nat → KM Unit
  | none => return ()
  | some tf => kfree tf

def freeTable (sz : Nat) : Option Pt → KM Unit
  | none => return ()
  | some t => procFreepagetable t sz

def freeproc (p : Slot) : VM Unit := do
  let x := (← get).proc p
  onMem (freeTrapframe x.trapframe)
  onMem (freeTable x.sz x.pagetable)
  setProc p { unusedProc with ofile := x.ofile }

def allocproc : VM (Option Slot) := do
  let s ← get
  match (List.finRange nproc).find? (fun p => decide ((s.proc p).state = .unused)) with
  | none => return none
  | some np =>
    match ← onMem kalloc with
    | none =>
      freeproc np
      return none
    | some tf =>
      setProc np { s.proc np with state := .used, trapframe := some tf }
      match ← onMem (procPagetable tf) with
      | none =>
        freeproc np
        return none
      | some t =>
        setProc np { s.proc np with state := .used, trapframe := some tf, pagetable := some t }
        return some np

def filedup (f : Fin 100) : VM Unit := do
  let x := (← get).file f
  if x.ref < 1 then throw .filedup
  setFile f { x with ref := x.ref + 1 }

/-- `readopen` and `writeopen` without one of them. -/
def closeEnd (o : Bool × Bool) (writable : Bool) : Bool × Bool := if writable then (o.1, false) else (false, o.2)

def pipeclose (pi : Nat) (writable : Bool) : VM Unit := do
  let s ← get
  let o := closeEnd (s.pipe pi) writable
  set { s with pipe := update s.pipe pi o }
  if o = (false, false) then onMem (kfree pi)

def fileclose (f : Fin 100) : VM Unit := do
  let x := (← get).file f
  if x.ref < 1 then throw .fileclose
  if x.ref - 1 > 0 then setFile f { x with ref := x.ref - 1 }
  else
    setFile f ⟨0, .none⟩
    match x.kind with
    | .pipe pi writable => pipeclose pi writable
    | _ => return ()

def filealloc : VM (Option (Fin 100)) := do
  let s ← get
  match (List.finRange 100).find? (fun f => decide ((s.file f).ref = 0)) with
  | none => return none
  | some f =>
    setFile f { s.file f with ref := 1 }
    return some f

def pipealloc : VM (Option (Fin 100 × Fin 100)) := do
  match ← filealloc with
  | none => return none
  | some f0 =>
    match ← filealloc with
    | none =>
      fileclose f0
      return none
    | some f1 =>
      match ← onMem kalloc with
      | none =>
        fileclose f0
        fileclose f1
        return none
      | some pi =>
        modify fun s => { s with pipe := update s.pipe pi (true, true) }
        setFile f0 { (← get).file f0 with kind := .pipe pi false }
        setFile f1 { (← get).file f1 with kind := .pipe pi true }
        return some (f0, f1)

def fdalloc (p : Slot) (f : Fin 100) : VM (Option (Fin 16)) := do
  let x := (← get).proc p
  match (List.finRange 16).find? (fun fd => decide (x.ofile fd = none)) with
  | none => return none
  | some fd =>
    setProc p { x with ofile := update x.ofile fd (some f) }
    return some fd

def clearFd (p : Slot) (fd : Fin 16) : VM Unit := do
  let x := (← get).proc p
  setProc p { x with ofile := update x.ofile fd none }

def copyoutTo (p : Slot) (va : Nat) (bytes : List UInt8) : VM Bool := do
  let x := (← get).proc p
  match x.pagetable with
  | none => return false
  | some t =>
    let (ok, a, n) ← onMem (copyout ⟨t, none⟩ x.sz va bytes)
    setProc p { x with pagetable := some a.pt }
    happens (.store p va (bytes.take n))
    return ok

def copyinFrom (p : Slot) (va len : Nat) : VM (Option (List UInt8)) := do
  let x := (← get).proc p
  match x.pagetable with
  | none => return none
  | some t =>
    let (b, a) ← onMem (copyin ⟨t, none⟩ x.sz va len)
    setProc p { x with pagetable := some a.pt }
    return b

def dupFiles (p np : Slot) : VM Unit :=
  (List.finRange 16).forM (fun fd => do
    let s ← get
    match (s.proc p).ofile fd with
    | none => return ()
    | some f =>
      filedup f
      let y := (← get).proc np
      setProc np { y with ofile := update y.ofile fd (some f) })

def kfork (p : Slot) : VM Unit := do
  match ← allocproc with
  | none => return ()
  | some np =>
    let x := (← get).proc p
    let y := (← get).proc np
    match x.pagetable, y.pagetable with
    | some old, some new =>
      let (ok, old, new) ← onMem (uvmcopy old new x.sz)
      setProc p { x with pagetable := some old }
      setProc np { y with pagetable := some new }
      if ok then
        setProc np { y with pagetable := some new, sz := x.sz, parent := some p, state := .live }
        dupFiles p np
        happens (.fork p np)
      else freeproc np
    | _, _ => return ()

def reparent (p : Slot) : VM Unit :=
  modify fun s => { s with
    proc := fun q => if (s.proc q).parent = some p then { s.proc q with parent := some initSlot } else s.proc q }

def closeFiles (p : Slot) : VM Unit :=
  (List.finRange 16).forM (fun fd => do
    let s ← get
    match (s.proc p).ofile fd with
    | none => return ()
    | some f =>
      fileclose f
      clearFd p fd)

def kexit (p : Slot) (status : Nat) : VM Unit := do
  if p = initSlot then throw .initExiting
  closeFiles p
  reparent p
  let x := (← get).proc p
  match x.pagetable with
  | none => return ()
  | some t =>
    onMem (procFreepagetable t x.sz)
    setProc p { x with pagetable := none, sz := 0, xstate := status, state := .zombie }
    happens (.exit p)

/-- `kwait` when there is an exited child; without one the caller sleeps or fails, and no memory changes. -/
def kwait (p : Slot) (addr : Nat) : VM Unit := do
  let s ← get
  match (List.finRange nproc).find? (fun q => decide ((s.proc q).parent = some p ∧ (s.proc q).state = .zombie)) with
  | none => return ()
  | some q =>
    if addr = 0 then freeproc q
    else
      let ok ← copyoutTo p addr ((bytes64 (s.proc q).xstate).take 4)
      if ok then freeproc q

def growproc (p : Slot) (n : Int) : VM Unit := do
  let x := (← get).proc p
  match x.pagetable with
  | none => return ()
  | some t =>
    if n > 0 then
      let (sz, t) ← onMem (uvmalloc t x.sz (x.sz + n.toNat) true false)
      setProc p { x with pagetable := some t, sz := if sz = 0 then x.sz else sz }
    else if n < 0 then
      let (sz, t) ← onMem (uvmdealloc t x.sz (((x.sz : Int) + n) % 2 ^ 64).toNat)
      setProc p { x with pagetable := some t, sz := sz }
      happens (.shrink p (pgs sz))
    else return ()

def sysSbrk (p : Slot) (n : Int) (lazy : Bool) : VM Unit := do
  if lazy = false ∨ n < 0 then growproc p n
  else
    let x := (← get).proc p
    if (x.sz + n.toNat) % 2 ^ 64 < x.sz then return ()
    setProc p { x with sz := x.sz + n.toNat }

/-- The kinds of user access; the cause of the fault is 13, 15 or 12. -/
inductive Access where
  | load
  | store
  | fetch
  deriving DecidableEq, Repr

/-- `usertrap` on a page fault. A process that cannot go on is killed, and exits before it returns to user space. -/
def pageFault (p : Slot) (va : Nat) (acc : Access) : VM Unit := do
  let x := (← get).proc p
  match x.pagetable with
  | none => return ()
  | some t =>
    if va ≥ 0x80000000 then kexit p (2 ^ 32 - 1)
    else
      let (ok, t) ← (if acc = .store then onMem (cowfault t (va / 4096)) else pure (false, t))
      setProc p { x with pagetable := some t }
      if ok then return ()
      let (pa, a) ← onMem (vmfault ⟨t, none⟩ x.sz va)
      setProc p { x with pagetable := some a.pt }
      match pa with
      | none => kexit p (2 ^ 32 - 1)
      | some _ => return ()

def Access.needs (f : Flags) : Access → Bool
  | .load => f.r
  | .store => f.w
  | .fetch => f.x

/-- The entry the hardware uses for a user access, if it permits the access. -/
def Pt.permits (t : Pt) (va : Nat) (acc : Access) : Option Pte :=
  match t.slot (va / 4096) with
  | some (some e) =>
    if e.u ∧ acc.needs e.toFlags then some e else none
  | _ => none

/-- A user instruction that reads or runs the byte at `va`. -/
def userRead (p : Slot) (va : Nat) (acc : Access) : VM Unit := do
  let x := (← get).proc p
  match x.pagetable with
  | none => return ()
  | some t =>
    match t.permits va acc with
    | some _ => return ()
    | none => pageFault p va acc

/-- A user store of one byte. A store that faults has no effect of its own; the instruction is tried again. -/
def userStore (p : Slot) (va : Nat) (b : UInt8) : VM Unit := do
  let x := (← get).proc p
  match x.pagetable with
  | none => return ()
  | some t =>
    match t.permits va .store with
    | some e =>
      onMem (poke e.pa (va % 4096) [b])
      happens (.store p va [b])
    | none => pageFault p va .store

def takeImage (p : Slot) (r : Pt ⊕ Image) : VM Unit := do
  let x := (← get).proc p
  match r with
  | .inl t => setProc p { x with pagetable := some t }
  | .inr im =>
    setProc p { x with pagetable := some im.pt, sz := im.sz }
    happens (.exec p im.writes)

def execCall (p : Slot) (file : Option (List UInt8)) (uargv : Nat) : VM Unit := do
  let x := (← get).proc p
  match x.pagetable, x.trapframe with
  | some t, some tf =>
    let r ← onMem (sysExec file t x.sz tf uargv)
    takeImage p r
  | _, _ => return ()

/-- `forkret` in the first process: it runs `/init` or panics. -/
def execInit (p : Slot) (file : Option (List UInt8)) : VM Unit := do
  let x := (← get).proc p
  match x.pagetable, x.trapframe with
  | some t, some tf =>
    let r ← onMem (kexec file [[47, 105, 110, 105, 116]] t x.sz tf)
    match r with
    | .inl _ => throw .exec
    | .inr _ => takeImage p r
  | _, _ => return ()

def sysPipe (p : Slot) (fdarray : Nat) : VM Unit := do
  match ← pipealloc with
  | none => return ()
  | some (rf, wf) =>
    match ← fdalloc p rf with
    | none =>
      fileclose rf
      fileclose wf
    | some fd0 =>
      match ← fdalloc p wf with
      | none =>
        clearFd p fd0
        fileclose rf
        fileclose wf
      | some fd1 =>
        let ok0 ← copyoutTo p fdarray ((bytes64 fd0).take 4)
        let ok1 ← (if ok0 then copyoutTo p (fdarray + 4) ((bytes64 fd1).take 4) else pure false)
        if ok1 then return ()
        clearFd p fd0
        clearFd p fd1
        fileclose rf
        fileclose wf

/-- The open of a file that is no pipe: it takes a file structure and a descriptor, and no page. -/
def sysOpen (p : Slot) : VM Unit := do
  match ← filealloc with
  | none => return ()
  | some f =>
    match ← fdalloc p f with
    | none => fileclose f
    | some _ => setFile f { (← get).file f with kind := .other }

def sysClose (p : Slot) (fd : Fin 16) : VM Unit := do
  match ((← get).proc p).ofile fd with
  | none => return ()
  | some f =>
    clearFd p fd
    fileclose f

def sysDup (p : Slot) (fd : Fin 16) : VM Unit := do
  match ((← get).proc p).ofile fd with
  | none => return ()
  | some f =>
    match ← fdalloc p f with
    | none => return ()
    | some _ => filedup f

/-! ## `main` -/

@[irreducible] def kvmmap (t : Pt) (v pa n : Nat) (perm : Flags) : KM Pt := do
  let (ok, t) ← mappages t v pa perm n
  if ok then return t else throw .kvmmap

def mapstacks (t : Pt) (pages : List Nat) : List Slot → KM (Pt × List Nat)
  | [] => return (t, pages)
  | p :: ps => do
    match ← kalloc with
    | none => throw .kalloc
    | some pa =>
      let t ← kvmmap t (trampolineVpn - (p + 1) * 2) pa 1 ⟨true, true, false, false⟩
      mapstacks t (pages ++ [pa]) ps

/-- `kvmmake`: the devices, the kernel's code and data and the rest of memory, the trampoline, the kernel stacks. -/
def kvmmake : KM (Pt × List Nat) := do
  match ← uvmcreate with
  | none => throw .kalloc
  | some t =>
    let t ← kvmmap t 0x10000 0x10000 1 ⟨true, true, false, false⟩
    let t ← kvmmap t 0x10001 0x10001 1 ⟨true, true, false, false⟩
    let t ← kvmmap t 0xc000 0xc000 0x4000 ⟨true, true, false, false⟩
    let t ← kvmmap t 0x80000 0x80000 (Link.etext - 0x80000) ⟨true, false, true, false⟩
    let t ← kvmmap t Link.etext Link.etext (stopPage - Link.etext) ⟨true, true, false, false⟩
    let t ← kvmmap t trampolineVpn Link.trampoline 1 ⟨true, false, true, false⟩
    mapstacks t [] (List.finRange nproc)

def kvminit : VM Unit := do
  let (t, kstacks) ← onMem kvmmake
  modify fun s => { s with kpt := some t, kstack := kstacks }

def diskPages : List Nat → Nat → KM (List Nat)
  | pages, 0 => return pages
  | pages, n + 1 => do
    match ← kalloc with
    | none => throw .virtioDisk
    | some p => diskPages (pages ++ [p]) n

def virtioDiskInit : VM Unit := do
  let pages ← onMem (diskPages [] 3)
  modify fun s => { s with disk := pages }

def userinit : VM Unit := do
  match ← allocproc with
  | none => throw .userinit
  | some p =>
    let x := (← get).proc p
    setProc p { x with state := .live }

/-- What a step can be: the steps of `main`, then what a process does. -/
inductive VmAct where
  | kvminit
  | virtioDiskInit
  | userinit
  | execInit (p : Slot) (file : Option (List UInt8))
  | fork (p : Slot)
  | exec (p : Slot) (file : Option (List UInt8)) (uargv : Nat)
  | sbrk (p : Slot) (n : Int) (lazy : Bool)
  | read (p : Slot) (va : Nat) (acc : Access)
  | store (p : Slot) (va : Nat) (b : UInt8)
  | copyout (p : Slot) (va : Nat) (bytes : List UInt8)
  | copyin (p : Slot) (va len : Nat)
  | pipe (p : Slot) (fdarray : Nat)
  | openFile (p : Slot)
  | close (p : Slot) (fd : Fin 16)
  | dup (p : Slot) (fd : Fin 16)
  | exit (p : Slot) (status : Nat)
  | wait (p : Slot) (addr : Nat)
  deriving DecidableEq, Repr

/-- What runs in a step, and whether it can. -/
def program (s : VmState) : VmAct → Option (VM Unit)
  | .kvminit => if s.kpt.isNone then some kvminit else none
  | .virtioDiskInit => if s.kpt.isSome ∧ s.disk = [] then some virtioDiskInit else none
  | .userinit => if s.disk ≠ [] ∧ ∀ p, (s.proc p).state = .unused then some userinit else none
  | .execInit p file => if (s.proc p).state = .live ∧ p = initSlot then some (execInit p file) else none
  | .fork p => if (s.proc p).state = .live then some (kfork p) else none
  | .exec p file uargv => if (s.proc p).state = .live then some (execCall p file uargv) else none
  | .sbrk p n lazy => if (s.proc p).state = .live then some (sysSbrk p n lazy) else none
  | .read p va acc => if (s.proc p).state = .live ∧ acc ≠ .store then some (userRead p va acc) else none
  | .store p va b => if (s.proc p).state = .live then some (userStore p va b) else none
  | .copyout p va bytes => if (s.proc p).state = .live then some (do let _ ← copyoutTo p va bytes) else none
  | .copyin p va len => if (s.proc p).state = .live then some (do let _ ← copyinFrom p va len) else none
  | .pipe p fdarray => if (s.proc p).state = .live then some (sysPipe p fdarray) else none
  | .openFile p => if (s.proc p).state = .live then some (sysOpen p) else none
  | .close p fd => if (s.proc p).state = .live then some (sysClose p fd) else none
  | .dup p fd => if (s.proc p).state = .live then some (sysDup p fd) else none
  | .exit p status => if (s.proc p).state = .live then some (kexit p status) else none
  | .wait p addr => if (s.proc p).state = .live then some (kwait p addr) else none

/-- A step; one that panics stops the machine where it was. -/
def vmStep (s : VmState) (a : VmAct) : Option VmState :=
  if s.panic.isSome then none
  else
    (program s a).map (fun m =>
      match m.run s with
      | .ok (_, s') => s'
      | .error e => { s with panic := some e })

def bareMem : Kmem := { ref := fun _ => 0, free := [], mem := fun _ _ => 0 }

def vmBoot : VmState :=
  { k := (match kinit.run bareMem with
      | .ok (_, k) => k
      | .error _ => bareMem)
    kpt := none, kstack := [], disk := [], proc := fun _ => unusedProc, file := fun _ => ⟨0, .none⟩,
    pipe := fun _ => (false, false), panic := none, trace := [] }

end Xv6.Vm
