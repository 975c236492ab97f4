import Xv6.LibRun
import Xv6.VmTable
/-!
# CowModel — page tables and reference counts on several harts

Every process has one kernel thread; `Pc` is where it stands inside `cowfault`, `vmfault`, `uvmunmap` (from `exit` or a
shrink), `uvmcopy`, or an allocation or `kfree` for the kernel itself. One action starts such an operation or takes it
over its next critical section of `refcount_lock` or `kmem.lock`, or its next store to a page table. A child that
`uvmcopy` is filling is an `embryo`: only its parent's thread touches its table.

A page table lists its valid entries. `counted` is a history variable: the page's reference count includes the entry.
Page-table pages are kernel pages like any other; whether `mappages` finds the ones it needs is a choice of the action.
-/
namespace Xv6.Cow

open Vm (Pte Link InRange)

structure Entry where
  pte : Pte
  counted : Bool
  deriving DecidableEq, Repr

abbrev Table := List (Nat × Entry)

def Table.find (t : Table) (v : Nat) : Option Entry := (List.find? (fun m => m.1 == v) t).map Prod.snd

def Table.clear (t : Table) (v : Nat) : Table := List.filter (fun m => m.1 != v) t

def Table.put (t : Table) (v : Nat) (e : Entry) : Table := (v, e) :: t.clear v

inductive Why where
  | own
  | vmf (v : Nat)
  | cow (v : Nat) (e : Pte)
  deriving DecidableEq, Repr

inductive Pc where
  | idle
  | embryo (parent : Slot)
  -- `cowfault`: before `getref`, before setting `PTE_W`, before `uvmunmap`, before `mappages`, before `decref`
  | cowRef (v : Nat) (e : Pte)
  | cowAllow (v : Nat) (e : Pte)
  | cowUnmap (v : Nat) (e : Pte) (mem : Nat)
  | cowMap (v : Nat) (e : Pte) (mem : Nat)
  | cowDecref (pa : Nat)
  -- `kalloc`: before its `kmem.lock` and its `refcount_lock` section; `vmfault` before `mappages`
  | kallocPop (k : Why)
  | kallocSet (k : Why) (mem : Nat)
  | vmfMap (v : Nat) (mem : Nat)
  -- `kfree`, before its two sections
  | freeDec (pa : Nat)
  | freePush (pa : Nat)
  -- `uvmunmap` of table `t`: before the next page, and inside it before `kfree`'s second section and before `*pte = 0`
  | unmap (t : Slot) (vs : List Nat)
  | unmapPush (t : Slot) (v pa : Nat) (vs : List Nat)
  | unmapClear (t : Slot) (v : Nat) (vs : List Nat)
  -- `uvmcopy` into `q`: before the next page, before `mappages`, before `incref`
  | copy (q : Slot) (vs done : List Nat)
  | copyMap (q : Slot) (v : Nat) (e : Pte) (vs done : List Nat)
  | copyIncref (q : Slot) (v pa : Nat) (vs done : List Nat)
  deriving DecidableEq, Repr

structure St where
  ref : Nat → Int
  free : List Nat
  /-- The pages the kernel holds for itself. -/
  owned : List Nat
  pt : Slot → Table
  pc : Slot → Pc

inductive Act where
  | cowfault (p : Slot) (v : Nat)
  | vmfault (p : Slot) (v : Nat)
  | uvmunmap (p : Slot) (vs : List Nat)
  | uvmcopy (p q : Slot) (npages : Nat)
  | kalloc (p : Slot)
  | kfree (p : Slot) (pa : Nat)
  | advance (p : Slot) (ok : Bool)

@[simps -fullyApplied pt ref free owned]
def St.goto (s : St) (p : Slot) (c : Pc) : St := { s with pc := Function.update s.pc p c }

@[simps -fullyApplied]
def St.setRef (s : St) (x : Nat) (n : Int) : St := { s with ref := Function.update s.ref x n }

@[simps -fullyApplied pc ref free owned]
def St.setPt (s : St) (t : Slot) (m : Table) : St := { s with pt := Function.update s.pt t m }

@[simps -fullyApplied]
def St.push (s : St) (x : Nat) : St := { s with free := x :: s.free }

/-- `kalloc` has set the count of `r` to one and returns it. -/
def St.got (s : St) (p : Slot) (r : Nat) : Why → St
  | .own => { s.goto p .idle with owned := r :: s.owned }
  | .vmf v => s.goto p (.vmfMap v r)
  | .cow v e => s.goto p (.cowUnmap v e r)

/-- `cowfault` up to `getref`: the checks on the process's own entry. -/
def cowfault (s : St) (p : Slot) (v : Nat) : St :=
  match (s.pt p).find v with
  | none => s
  | some e => if ¬ e.pte.u ∨ e.pte.x ∨ e.pte.w then s else s.goto p (.cowRef v e.pte)

section
variable [Link]

/-- One page of `uvmunmap` with `do_free`, up to the end of `kfree`'s first section. -/
def unmapPage (s : St) (p t : Slot) (v : Nat) (vs : List Nat) : Option St :=
  match (s.pt t).find v with
  | none => some (s.goto p (.unmap t vs))
  | some e =>
    -- `kfree` panics outside the allocator's range
    if ¬ InRange e.pte.pa then none
    else
      let s' := (s.setRef e.pte.pa (s.ref e.pte.pa - 1)).setPt t ((s.pt t).put v { e with counted := false })
      some (s'.goto p (if s.ref e.pte.pa - 1 = 0 then .unmapPush t v e.pte.pa vs else .unmapClear t v vs))

/-- One page of `uvmcopy` up to the store that takes `PTE_W` from the parent's entry. -/
def copyPage (s : St) (p q : Slot) (v : Nat) (vs done : List Nat) : St :=
  match (s.pt p).find v with
  | none => s.goto p (.copy q vs (v :: done))
  | some e =>
    (s.setPt p ((s.pt p).put v { e with pte := { e.pte with w := false } })).goto p (.copyMap q v e.pte vs done)

/-- The next step of the thread of `p`; `ok` says whether a `mappages` finds the page-table pages it needs. -/
def advance (s : St) (p : Slot) (ok : Bool) : Option St :=
  match s.pc p with
  | .idle => none
  | .embryo _ => none
  | .cowRef v e => some (s.goto p (if s.ref e.pa > 1 then .kallocPop (.cow v e) else .cowAllow v e))
  | .cowAllow v e => some ((s.setPt p ((s.pt p).put v ⟨{ e with w := true }, true⟩)).goto p .idle)
  | .cowUnmap v e mem => some ((s.setPt p ((s.pt p).clear v)).goto p (.cowMap v e mem))
  -- the level-0 table is there, so this `mappages` cannot fail
  | .cowMap v e mem =>
    some ((s.setPt p ((s.pt p).put v ⟨{ e with w := true, pa := mem }, true⟩)).goto p (.cowDecref e.pa))
  | .cowDecref x => some ((s.setRef x (s.ref x - 1)).goto p .idle)
  | .kallocPop k =>
    match s.free with
    | [] => some (s.goto p .idle)
    | r :: rest => some ({ s with free := rest }.goto p (.kallocSet k r))
  | .kallocSet k r => some ((s.setRef r 1).got p r k)
  | .vmfMap v mem =>
    if ok then some ((s.setPt p ((s.pt p).put v ⟨⟨⟨true, true, false, true⟩, mem⟩, true⟩)).goto p .idle)
    else some (s.goto p (.freeDec mem))
  | .freeDec x =>
    if ¬ InRange x then none
    else some ((s.setRef x (s.ref x - 1)).goto p (if s.ref x - 1 = 0 then .freePush x else .idle))
  | .freePush x => some ((s.push x).goto p .idle)
  | .unmap t [] => some ((s.goto t .idle).goto p .idle)
  | .unmap t (v :: vs) => unmapPage s p t v vs
  | .unmapPush t v x vs => some ((s.push x).goto p (.unmapClear t v vs))
  | .unmapClear t v vs => some ((s.setPt t ((s.pt t).clear v)).goto p (.unmap t vs))
  | .copy q [] _ => some ((s.goto q .idle).goto p .idle)
  | .copy q (v :: vs) done => some (copyPage s p q v vs done)
  | .copyMap q v e vs done =>
    -- an entry that is valid already is the panic `remap`
    if ((s.pt q).find v).isSome then none
    else if ok then
      some ((s.setPt q ((s.pt q).put v ⟨{ e with w := false }, false⟩)).goto p (.copyIncref q v e.pa vs done))
    else some (s.goto p (.unmap q done.reverse))
  | .copyIncref q v x vs done =>
    match (s.pt q).find v with
    | none => none
    | some e =>
      some (((s.setRef x (s.ref x + 1)).setPt q ((s.pt q).put v { e with counted := true })).goto p
        (.copy q vs (v :: done)))

def step (s : St) (a : Act) : Option St :=
  match a with
  | .cowfault p v => if s.pc p = .idle then some (cowfault s p v) else none
  | .vmfault p v =>
    if s.pc p = .idle then some (if ((s.pt p).find v).isSome then s else s.goto p (.kallocPop (.vmf v))) else none
  | .uvmunmap p vs => if s.pc p = .idle then some (s.goto p (.unmap p vs)) else none
  -- the child's slot is unused: no thread, no mapping
  | .uvmcopy p q n =>
    if s.pc p = .idle ∧ s.pc q = .idle ∧ p ≠ q ∧ s.pt q = [] then
      some ((s.goto q (.embryo p)).goto p (.copy q (List.range n) []))
    else none
  | .kalloc p => if s.pc p = .idle then some (s.goto p (.kallocPop .own)) else none
  | .kfree p x =>
    if s.pc p = .idle ∧ x ∈ s.owned then some ({ s with owned := s.owned.erase x }.goto p (.freeDec x)) else none
  | .advance p ok => advance s p ok

def boot : St :=
  { ref := fun _ => 0, free := List.range' Link.endPage (Vm.stopPage - Link.endPage), owned := [], pt := fun _ => [],
    pc := fun _ => .idle }

def Quiet (s : St) : Prop := ∀ p, s.pc p = .idle

instance (s : St) : Decidable (Quiet s) := inferInstanceAs (Decidable (∀ _, _))

/-- **No page is lost**: with nothing running, a page that no table maps and the kernel does not hold is free. -/
def NoneLost (s : St) : Prop :=
  Quiet s → ∀ x, InRange x → (∀ t v e, (s.pt t).find v = some e → e.pte.pa ≠ x) → x ∉ s.owned → x ∈ s.free

end

/-- The page whose count the action decrements in `cowfault`. -/
def decrefs (s : St) : Act → Option Nat
  | .advance p _ =>
    match s.pc p with
    | .cowDecref x => some x
    | _ => none
  | _ => none

/-- A `decref` of `cowfault` finds the count above one, as its `getref` did. -/
def Current (s : St) (a : Act) : Prop := ∀ x ∈ decrefs s a, 2 ≤ s.ref x

instance (s : St) (a : Act) : Decidable (Current s a) := inferInstanceAs (Decidable (∀ x ∈ decrefs s a, _))

end Xv6.Cow
