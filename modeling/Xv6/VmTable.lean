import Xv6.VmKalloc
/-!
# VmTable — `vm.c`: page tables and copies to and from user memory

A virtual page is its number, `va / PGSIZE`. A page table is kept by level: `l1` holds the entries of the root, `l0` those
of the level-1 tables and `pte` those of the level-0 tables, each under the part of the virtual page number that leads to
it (`v / 2^18`, `v / 2^9`, `v`); an entry above level 0 is the page of the table it points to. The functions take the
table they change and return it. Sizes and addresses are in bytes where the source has bytes, in pages where it has
aligned addresses.
-/
namespace Xv6.Vm

open Function

structure Flags where
  r : Bool
  w : Bool
  x : Bool
  u : Bool
  deriving DecidableEq, Repr

structure Pte extends Flags where
  pa : Nat
  deriving DecidableEq, Repr

structure Pt where
  root : Nat
  l1 : Nat → Option Nat
  l0 : Nat → Option Nat
  pte : Nat → Option Pte

@[irreducible] def maxVpn : Nat := 2 ^ 26

@[irreducible] def trampolineVpn : Nat := 2 ^ 26 - 1

@[irreducible] def trapVpn : Nat := 2 ^ 26 - 2

@[irreducible] def entries : List Nat := List.range 512

def pgs (sz : Nat) : Nat := (sz + 4095) / 4096

def Pt.setPte (t : Pt) (v : Nat) (e : Option Pte) : Pt := { t with pte := update t.pte v e }

/-- The entry `walk` finds for `v`, if the tables on the way exist. -/
def Pt.slot (t : Pt) (v : Nat) : Option (Option Pte) :=
  if (t.l1 (v / 2 ^ 18)).isSome ∧ (t.l0 (v / 2 ^ 9)).isSome then some (t.pte v) else none

def walk (t : Pt) (v : Nat) : KM (Option (Option Pte)) := do
  if maxVpn ≤ v then throw .walk
  return t.slot v

/-- `walk`'s loop at level 2, with `alloc`: an empty level-1 table if there is none. -/
def walkAlloc1 (t : Pt) (v : Nat) : KM (Bool × Pt) :=
  match t.l1 (v / 2 ^ 18) with
  | some _ => return (true, t)
  | none => do
    match ← kalloc with
    | none => return (false, t)
    | some p =>
      memset p 0
      return (true, { t with
        l1 := update t.l1 (v / 2 ^ 18) (some p)
        l0 := fun j => if j / 2 ^ 9 = v / 2 ^ 18 then none else t.l0 j })

def walkAlloc0 (t : Pt) (v : Nat) : KM (Bool × Pt) :=
  match t.l0 (v / 2 ^ 9) with
  | some _ => return (true, t)
  | none => do
    match ← kalloc with
    | none => return (false, t)
    | some p =>
      memset p 0
      return (true, { t with
        l0 := update t.l0 (v / 2 ^ 9) (some p)
        pte := fun w => if w / 2 ^ 9 = v / 2 ^ 9 then none else t.pte w })

/-- `walk` with `alloc = 1`: whether the entry for `v` exists afterwards. -/
def walkAlloc (t : Pt) (v : Nat) : KM (Bool × Pt) := do
  if maxVpn ≤ v then throw .walk
  let (ok, t) ← walkAlloc1 t v
  if ok then walkAlloc0 t v else return (false, t)

def walkaddr (t : Pt) (v : Nat) : Option Nat :=
  if maxVpn ≤ v then none
  else
    match t.slot v with
    | some (some e) => if e.u then some e.pa else none
    | _ => none

def mappages (t : Pt) (v pa : Nat) (perm : Flags) : Nat → KM (Bool × Pt)
  | 0 => throw .mappagesSize
  | n + 1 => do
    let (ok, t) ← walkAlloc t v
    if ¬ ok then return (false, t)
    if (t.pte v).isSome then throw .remap
    let t := t.setPte v (some { perm with pa := pa })
    if n = 0 then return (true, t) else mappages t (v + 1) (pa + 1) perm n

variable [Link]

def uvmcreate : KM (Option Pt) := do
  match ← kalloc with
  | none => return none
  | some p =>
    memset p 0
    return some { root := p, l1 := fun _ => none, l0 := fun _ => none, pte := fun _ => none }

def uvmunmap (t : Pt) (v : Nat) (doFree : Bool) : Nat → KM Pt
  | 0 => return t
  | n + 1 => do
    match ← walk t v with
    | some (some e) =>
      if doFree then kfree e.pa
      uvmunmap (t.setPte v none) (v + 1) doFree n
    | _ => uvmunmap t (v + 1) doFree n

def uvmdealloc (t : Pt) (oldsz newsz : Nat) : KM (Nat × Pt) := do
  if newsz ≥ oldsz then return (oldsz, t)
  if pgs newsz < pgs oldsz then
    let t ← uvmunmap t (pgs newsz) true (pgs oldsz - pgs newsz)
    return (newsz, t)
  return (newsz, t)

/-- The loop of `uvmalloc`: `n` pages from `v` on. -/
def uvmallocLoop (oldv : Nat) (w x : Bool) (t : Pt) (v : Nat) : Nat → KM (Bool × Pt)
  | 0 => return (true, t)
  | n + 1 => do
    match ← kalloc with
    | none =>
      let (_, t) ← uvmdealloc t (v * 4096) (oldv * 4096)
      return (false, t)
    | some p =>
      memset p 0
      let (ok, t) ← mappages t v p ⟨true, w, x, true⟩ 1
      if ok then uvmallocLoop oldv w x t (v + 1) n
      else
        kfree p
        let (_, t) ← uvmdealloc t (v * 4096) (oldv * 4096)
        return (false, t)

/-- `uvmalloc`, with the bits of `xperm`; 0 is the error. -/
def uvmalloc (t : Pt) (oldsz newsz : Nat) (w x : Bool) : KM (Nat × Pt) := do
  if newsz < oldsz then return (oldsz, t)
  let (ok, t) ← uvmallocLoop (pgs oldsz) w x t (pgs oldsz) (pgs newsz - pgs oldsz)
  return (if ok then newsz else 0, t)

def freeL0 (t : Pt) (j : Nat) : KM Unit :=
  match t.l0 j with
  | none => return ()
  | some p => do
    if entries.any (fun i => (t.pte (512 * j + i)).isSome) then throw .freewalkLeaf
    kfree p

def freeL1 (t : Pt) (i : Nat) : KM Unit :=
  match t.l1 i with
  | none => return ()
  | some p => do
    entries.forM (fun j => freeL0 t (512 * i + j))
    kfree p

def freewalk (t : Pt) : KM Unit := do
  entries.forM (freeL1 t)
  kfree t.root

def uvmfree (t : Pt) (sz : Nat) : KM Unit := do
  let t ← (if sz > 0 then uvmunmap t 0 true (pgs sz) else pure t)
  freewalk t

/-- The old table when `uvmcopy` has come to entry `e`: a writable page is shared read-only, any other as it is. -/
def Pt.share (t : Pt) (i : Nat) (e : Pte) : Pt := if e.w then t.setPte i (some { e with w := false }) else t

/-- The flags of the page in the new table. -/
def Pte.shared (e : Pte) : Flags := if e.w then { e.toFlags with w := false } else e.toFlags

/-- The loop of `uvmcopy`, `n` pages from `i` on. On an error the pages below `i` are unmapped from the new table. -/
def uvmcopyLoop (old new : Pt) (i : Nat) : Nat → KM (Bool × Pt × Pt)
  | 0 => return (true, old, new)
  | n + 1 => do
    match ← walk old i with
    | some (some e) =>
      let old := old.share i e
      let (ok, new) ← mappages new i e.pa e.shared 1
      if ok then
        incref e.pa
        uvmcopyLoop old new (i + 1) n
      else
        let new ← uvmunmap new 0 true i
        return (false, old, new)
    | _ => uvmcopyLoop old new (i + 1) n

def uvmcopy (old new : Pt) (sz : Nat) : KM (Bool × Pt × Pt) := uvmcopyLoop old new 0 (pgs sz)

def uvmclear (t : Pt) (v : Nat) : KM Pt := do
  match ← walk t v with
  | none => throw .uvmclear
  | some none => return t
  | some (some e) => return t.setPte v (some { e with u := false })

def ismapped (t : Pt) (v : Nat) : KM Bool := do
  match ← walk t v with
  | some (some _) => return true
  | _ => return false

def memmovePage (dst src : Nat) : KM Unit := modify fun k => { k with mem := update k.mem dst (k.mem src) }

def cowfault (t : Pt) (v : Nat) : KM (Bool × Pt) := do
  match ← walk t v with
  | some (some e) =>
    if ¬ e.u then return (false, t)
    if e.x then return (false, t)
    if e.w then return (true, t)
    let n ← getref e.pa
    if n > 1 then
      match ← kalloc with
      | none => return (false, t)
      | some p =>
        memmovePage p e.pa
        let t ← uvmunmap t v false 1
        let (ok, t) ← mappages t v p { e.toFlags with w := true } 1
        if ok then
          decref e.pa
          return (true, t)
        else
          kfree p
          return (false, t)
    else return (true, t.setPte v (some { e with w := true }))
  | _ => return (false, t)

/-- A page table passed to a copy, and the running process's own where that is another one: `vmfault` looks into the
first and maps into the process's. -/
structure Tabs where
  pt : Pt
  own : Option Pt

def Tabs.mine (a : Tabs) : Pt := a.own.getD a.pt

def Tabs.setMine (a : Tabs) (t : Pt) : Tabs :=
  match a.own with
  | none => { a with pt := t }
  | some _ => { a with own := some t }

/-- `vmfault` in a process of size `sz`. -/
def vmfault (a : Tabs) (sz va : Nat) : KM (Option Nat × Tabs) := do
  if va ≥ sz then return (none, a)
  let m ← ismapped a.pt (va / 4096)
  if m then return (none, a)
  match ← kalloc with
  | none => return (none, a)
  | some p =>
    memset p 0
    let (ok, t) ← mappages a.mine (va / 4096) p ⟨true, true, false, true⟩ 1
    if ok then return (some p, a.setMine t)
    else
      kfree p
      return (none, a.setMine t)

def poke (p off : Nat) (bs : List UInt8) : KM Unit :=
  modify fun k => { k with
    mem := update k.mem p (fun o => if off ≤ o ∧ o < off + bs.length then bs.getD (o - off) 0 else k.mem p o) }

/-- The page a turn of `copyout` writes to. -/
def copyoutPage (a : Tabs) (sz v : Nat) : KM (Option Nat × Tabs) := do
  let (pa, a) ← (match walkaddr a.pt v with
    | some pa => pure (some pa, a)
    | none => vmfault a sz (v * 4096))
  match pa with
  | none => return (none, a)
  | some pa =>
    match ← walk a.pt v with
    | some (some e) =>
      if e.u ∧ ¬ e.w then
        let (ok, t) ← cowfault a.pt v
        let a := { a with pt := t }
        return (if ok then walkaddr t v else none, a)
      else return (some pa, a)
    | _ => return (some pa, a)

/-- The loop of `copyout`; besides its result it returns how many bytes have been copied. The first argument bounds the
turns. -/
def copyoutLoop : Nat → Tabs → Nat → Nat → List UInt8 → Nat → KM (Bool × Tabs × Nat)
  | 0, a, _, _, _, done => return (true, a, done)
  | fuel + 1, a, sz, dst, src, done => do
    if src = [] then return (true, a, done)
    if maxVpn ≤ dst / 4096 then return (false, a, done)
    let (pa, a) ← copyoutPage a sz (dst / 4096)
    match pa with
    | none => return (false, a, done)
    | some pa =>
      let n := min (4096 - dst % 4096) src.length
      poke pa (dst % 4096) (src.take n)
      copyoutLoop fuel a sz ((dst / 4096 + 1) * 4096) (src.drop n) (done + n)

def copyout (a : Tabs) (sz dst : Nat) (src : List UInt8) : KM (Bool × Tabs × Nat) :=
  copyoutLoop src.length a sz dst src 0

/-- The loop of `copyin`, by turns as in `copyout`. -/
def copyinLoop : Nat → Tabs → Nat → Nat → Nat → List UInt8 → KM (Option (List UInt8) × Tabs)
  | 0, a, _, _, _, dst => return (some dst, a)
  | fuel + 1, a, sz, src, len, dst => do
    if len = 0 then return (some dst, a)
    let (pa, a) ← (match walkaddr a.pt (src / 4096) with
      | some pa => pure (some pa, a)
      | none => vmfault a sz (src / 4096 * 4096))
    match pa with
    | none => return (none, a)
    | some pa =>
      let n := min (4096 - src % 4096) len
      let k ← get
      copyinLoop fuel a sz ((src / 4096 + 1) * 4096) (len - n)
        (dst ++ (List.range n).map (fun i => k.mem pa (src % 4096 + i)))

def copyin (a : Tabs) (sz src len : Nat) : KM (Option (List UInt8) × Tabs) := copyinLoop len a sz src len []

/-- `copyinstr`, byte by byte: the string without its terminator. -/
def copyinstr (k : Kmem) (t : Pt) (src : Nat) : Nat → Option (List UInt8)
  | 0 => none
  | max + 1 =>
    match walkaddr t (src / 4096) with
    | none => none
    | some pa =>
      if k.mem pa (src % 4096) = 0 then some []
      else (copyinstr k t (src + 1) max).map (k.mem pa (src % 4096) :: ·)

end Xv6.Vm
