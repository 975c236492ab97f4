import Xv6.VmTable
/-!
# VmExec — `exec.c`: loading a program

A program is loaded into a page table of its own, which replaces the process's when everything has succeeded. An `Image`
also carries what has been written into it, in order; nothing reads that.
-/
namespace Xv6.Vm

def writeBytes (m : Nat → UInt8) (va : Nat) (bytes : List UInt8) : Nat → UInt8 :=
  fun a => if va ≤ a ∧ a < va + bytes.length then bytes.getD (a - va) 0 else m a

def writeAll (m : Nat → UInt8) (image : List (Nat × List UInt8)) : Nat → UInt8 :=
  image.foldl (fun m r => writeBytes m r.1 r.2) m

def le (bs : List UInt8) (off n : Nat) : Nat :=
  ((bs.drop off).take n).foldr (fun b acc => b.toNat + 256 * acc) 0

def bytes64 (n : Nat) : List UInt8 := (List.range 8).map (fun i => UInt8.ofNat (n / 256 ^ i))

/-- `readi` into a kernel address: what the file has at `off`. -/
def readi (file : List UInt8) (off n : Nat) : List UInt8 :=
  if off > file.length ∨ (off + n) % 2 ^ 32 < off then [] else (file.drop off).take n

/-- The loop of `loadseg`, `n` pages from byte `i` on; it also returns what it has written where. -/
def loadsegLoop (t : Pt) (va : Nat) (file : List UInt8) (offset sz i : Nat) (writes : List (Nat × List UInt8)) :
    Nat → KM (Bool × List (Nat × List UInt8))
  | 0 => return (true, writes)
  | n + 1 => do
    match walkaddr t ((va + i) / 4096) with
    | none => throw .loadseg
    | some pa =>
      let len := if sz - i < 4096 then sz - i else 4096
      let bs := readi file ((offset + i) % 2 ^ 32) len
      poke pa 0 bs
      let writes := writes ++ [(va + i, bs)]
      if bs.length = len then loadsegLoop t va file offset sz (i + 4096) writes n else return (false, writes)

def loadseg (t : Pt) (va : Nat) (file : List UInt8) (offset sz : Nat) : KM (Bool × List (Nat × List UInt8)) :=
  loadsegLoop t va file offset sz 0 [] (pgs sz)

variable [Link]

def procPagetable (trapframe : Nat) : KM (Option Pt) := do
  match ← uvmcreate with
  | none => return none
  | some t =>
    let (ok, t) ← mappages t trampolineVpn Link.trampoline ⟨true, false, true, false⟩ 1
    if ok then
      let (ok, t) ← mappages t trapVpn trapframe ⟨true, true, false, false⟩ 1
      if ok then return some t
      else
        let t ← uvmunmap t trampolineVpn false 1
        uvmfree t 0
        return none
    else
      uvmfree t 0
      return none

def procFreepagetable (t : Pt) (sz : Nat) : KM Unit := do
  let t ← uvmunmap t trampolineVpn false 1
  let t ← uvmunmap t trapVpn false 1
  uvmfree t sz

/-- A program being loaded: its page table, its size and the bytes written into it. -/
structure Image where
  pt : Pt
  sz : Nat
  writes : List (Nat × List UInt8)

def loadSegments (file : List UInt8) (im : Image) (off : Nat) : Nat → KM (Bool × Image)
  | 0 => return (true, im)
  | n + 1 => do
    let ph := readi file off 56
    if ph.length ≠ 56 then return (false, im)
    let filesz := le ph 32 8
    let memsz := le ph 40 8
    let vaddr := le ph 16 8
    let flags := le ph 4 4
    if le ph 0 4 ≠ 1 then loadSegments file im ((off + 56) % 2 ^ 32) n
    else if memsz < filesz then return (false, im)
    else if (vaddr + memsz) % 2 ^ 64 < vaddr then return (false, im)
    else if vaddr % 4096 ≠ 0 then return (false, im)
    else
      let (sz1, t) ← uvmalloc im.pt im.sz (vaddr + memsz) (flags / 2 % 2 = 1) (flags % 2 = 1)
      if sz1 = 0 then return (false, { im with pt := t })
      let (ok, writes) ← loadseg t vaddr file (le ph 8 8 % 2 ^ 32) (filesz % 2 ^ 32)
      let im := ⟨t, sz1, im.writes ++ writes⟩
      if ok then loadSegments file im ((off + 56) % 2 ^ 32) n else return (false, im)

/-- `copyout` into the image of a process whose own page table is `own` and size `psz`. -/
def pushBytes (im : Image) (own : Pt) (psz sp : Nat) (bs : List UInt8) : KM (Bool × Image × Pt) := do
  let (ok, a, _) ← copyout ⟨im.pt, some own⟩ psz sp bs
  return (ok, { im with pt := a.pt, writes := im.writes ++ [(sp, bs)] }, a.mine)

def pushArgs (psz stackbase : Nat) : Image → Pt → Nat → List Nat → List (List UInt8) →
    KM (Bool × Image × Pt × Nat × List Nat)
  | im, own, sp, ustack, [] => return (true, im, own, sp, ustack)
  | im, own, sp, ustack, arg :: argv => do
    if ustack.length ≥ 32 then return (false, im, own, sp, ustack)
    let sp := sp - (arg.length + 1)
    let sp := sp - sp % 16
    if sp < stackbase then return (false, im, own, sp, ustack)
    let (ok, im, own) ← pushBytes im own psz sp (arg ++ [0])
    if ok then pushArgs psz stackbase im own sp (ustack ++ [sp]) argv else return (false, im, own, sp, ustack)

/-- The stack of a loaded program: guard page, argument strings, argument vector. -/
def setupStack (im : Image) (own : Pt) (psz : Nat) (argv : List (List UInt8)) : KM (Bool × Image × Pt) := do
  let sz := pgs im.sz * 4096
  let (sz1, t) ← uvmalloc im.pt sz (sz + 2 * 4096) true false
  if sz1 = 0 then return (false, { im with pt := t, sz := sz }, own)
  let t ← uvmclear t ((sz1 - 2 * 4096) / 4096)
  let (ok, im, own, sp, ustack) ← pushArgs psz (sz1 - 4096) { im with pt := t, sz := sz1 } own sz1 [] argv
  if ¬ ok then return (false, im, own)
  let sp := sp - (ustack.length + 1) * 8
  let sp := sp - sp % 16
  if sp < sz1 - 4096 then return (false, im, own)
  pushBytes im own psz sp (ustack.flatMap bytes64 ++ bytes64 0)

/-- `kexec` in a process with page table `own`, size `psz` and the given trapframe; `file` is what `namei` and the inode
give. The process goes on with its page table, or with the image of the new program. -/
def kexec (file : Option (List UInt8)) (argv : List (List UInt8)) (own : Pt) (psz trapframe : Nat) :
    KM (Pt ⊕ Image) := do
  match file with
  | none => return .inl own
  | some file =>
    let elf := readi file 0 64
    if elf.length ≠ 64 then return .inl own
    if le elf 0 4 ≠ 0x464C457F then return .inl own
    match ← procPagetable trapframe with
    | none => return .inl own
    | some t =>
      let (ok, im) ← loadSegments file ⟨t, 0, []⟩ (le elf 32 8 % 2 ^ 32) (le elf 56 2)
      if ¬ ok then
        procFreepagetable im.pt im.sz
        return .inl own
      let (ok, im, own) ← setupStack im own psz argv
      if ok then
        procFreepagetable own psz
        return .inr im
      else
        procFreepagetable im.pt im.sz
        return .inl own

/-- The arguments of `sys_exec`: each has a page of its own, which the caller frees. -/
def fetchArgs (sz uargv : Nat) : Pt → List Nat → List (List UInt8) → Nat →
    KM (Bool × Pt × List Nat × List (List UInt8))
  | t, pages, argv, 0 => return (false, t, pages, argv)
  | t, pages, argv, n + 1 => do
    let addr := (uargv + 8 * argv.length) % 2 ^ 64
    if addr ≥ sz ∨ addr + 8 > sz then return (false, t, pages, argv)
    let (b, a) ← copyin ⟨t, none⟩ sz addr 8
    match b with
    | none => return (false, a.pt, pages, argv)
    | some b =>
      let uarg := le b 0 8
      if uarg = 0 then return (true, a.pt, pages, argv)
      match ← kalloc with
      | none => return (false, a.pt, pages, argv)
      | some p =>
        let k ← get
        match copyinstr k a.pt uarg 4096 with
        | none => return (false, a.pt, pages ++ [p], argv)
        | some arg => fetchArgs sz uargv a.pt (pages ++ [p]) (argv ++ [arg]) n

def sysExec (file : Option (List UInt8)) (own : Pt) (psz trapframe uargv : Nat) : KM (Pt ⊕ Image) := do
  let (ok, own, pages, argv) ← fetchArgs psz uargv own [] [] 32
  let r ← (if ok then kexec file argv own psz trapframe else pure (.inl own))
  pages.forM kfree
  return r

end Xv6.Vm
