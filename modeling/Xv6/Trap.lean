import Mathlib
/-!
# Trap — `trampoline.S`, into the kernel and back

`uservec` stores the registers of a process into its trapframe and `userret` loads them, by hand-written offsets.
-/
namespace Xv6.Trap

open Function

/-- `x1` to `x31`, in the order of `struct trapframe`. -/
inductive Reg
  | ra | sp | gp | tp | t0 | t1 | t2 | s0 | s1 | a0 | a1 | a2 | a3 | a4 | a5 | a6 | a7 | s2 | s3 | s4 | s5 | s6 | s7 | s8 | s9
  | s10 | s11 | t3 | t4 | t5 | t6
  deriving DecidableEq

def trapframe : Nat := 0x3fffffe000

def Reg.addr (r : Reg) : Nat := trapframe + (40 + 8 * r.ctorIdx)

/-- A hart and its memory: `map` is the page that a page table, by its `satp`, has for a virtual page, `mem` the words of a
page by their offsets. -/
structure Hart where
  regs : Reg → Nat
  sscratch : Nat
  satp : Nat
  map : Nat → Nat → Nat
  mem : Nat → Nat → Nat

/-- What the page table of `satp` has at an address. -/
def Hart.word (s : Hart) (satp va : Nat) : Nat := s.mem (s.map satp (va / 4096)) (va % 4096)

def Hart.store (s : Hart) (va x : Nat) : Hart :=
  let p := s.map s.satp (va / 4096)
  { s with mem := update s.mem p (update (s.mem p) (va % 4096) x) }

/-- The instructions; the base of `sd` and `ld` is `a0`. -/
inductive Instr
  | csrwSscratch (r : Reg)
  | csrrSscratch (r : Reg)
  | csrwSatp (r : Reg)
  | liA0
  | sd (r : Reg) (off : Nat)
  | ld (r : Reg) (off : Nat)

def Instr.exec (s : Hart) : Instr → Hart
  | .csrwSscratch r => { s with sscratch := s.regs r }
  | .csrrSscratch r => { s with regs := update s.regs r s.sscratch }
  | .csrwSatp r => { s with satp := s.regs r }
  | .liA0 => { s with regs := update s.regs .a0 trapframe }
  | .sd r off => s.store (s.regs .a0 + off) (s.regs r)
  | .ld r off => { s with regs := update s.regs r (s.word s.satp (s.regs .a0 + off)) }

def uservec (s : Hart) : Hart :=
  [.csrwSscratch .a0, .liA0, .sd .ra 40, .sd .sp 48, .sd .gp 56, .sd .tp 64, .sd .t0 72, .sd .t1 80, .sd .t2 88, .sd .s0 96,
    .sd .s1 104, .sd .a1 120, .sd .a2 128, .sd .a3 136, .sd .a4 144, .sd .a5 152, .sd .a6 160, .sd .a7 168, .sd .s2 176,
    .sd .s3 184, .sd .s4 192, .sd .s5 200, .sd .s6 208, .sd .s7 216, .sd .s8 224, .sd .s9 232, .sd .s10 240, .sd .s11 248,
    .sd .t3 256, .sd .t4 264, .sd .t5 272, .sd .t6 280, .csrrSscratch .t0, .sd .t0 112, .ld .sp 8, .ld .tp 32, .ld .t0 16,
    .ld .t1 0, .csrwSatp .t1].foldl Instr.exec s

def userret (s : Hart) : Hart :=
  [.csrwSatp .a0, .liA0, .ld .ra 40, .ld .sp 48, .ld .gp 56, .ld .tp 64, .ld .t0 72, .ld .t1 80, .ld .t2 88, .ld .s0 96,
    .ld .s1 104, .ld .a1 120, .ld .a2 128, .ld .a3 136, .ld .a4 144, .ld .a5 152, .ld .a6 160, .ld .a7 168, .ld .s2 176,
    .ld .s3 184, .ld .s4 192, .ld .s5 200, .ld .s6 208, .ld .s7 216, .ld .s8 224, .ld .s9 232, .ld .s10 240, .ld .s11 248,
    .ld .t3 256, .ld .t4 264, .ld .t5 272, .ld .t6 280, .ld .a0 112].foldl Instr.exec s

/-- The page that the page table of a process has at `TRAPFRAME`. -/
def Hart.frame (s : Hart) : Nat := s.map s.satp (trapframe / 4096)

theorem uservec_spec (s : Hart) :
    ∃ m, (∀ r : Reg, m (r.addr % 4096) = s.regs r) ∧ (uservec s).mem = update s.mem s.frame m ∧ (uservec s).map = s.map := by
  refine ⟨(uservec s).mem s.frame, fun r => ?_, ?_, rfl⟩ <;>
    simp only [uservec, Instr.exec, Hart.store, Hart.frame, trapframe, Nat.reduceAdd, Nat.reduceDiv, List.foldl, update_self,
      update_idem, ne_eq, reduceCtorEq, not_false_eq_true, update_of_ne]
  -- each offset of the assembly is that of one register
  cases r <;> rfl

theorem userret_regs (s : Hart) : (userret s).regs = fun r => s.word (s.regs .a0) r.addr := by
  funext r
  cases r <;> rfl

theorem Reg.addr_page (r : Reg) : r.addr / 4096 = trapframe / 4096 := by cases r <;> rfl

/-- **A trap is transparent**: whatever the kernel does in between, on any hart, a process it returns to has each register
back whose word in the trapframe the kernel has left alone; and a trap stores to no page but that of the trapframe. -/
theorem trap_restores (s k : Hart) (hk : k.regs .a0 = s.satp) :
    (∀ r : Reg, k.word s.satp r.addr = (uservec s).word s.satp r.addr → (userret k).regs r = s.regs r) ∧
    (userret k).satp = s.satp ∧ ∀ q ≠ s.frame, (uservec s).mem q = s.mem q := by
  obtain ⟨m, hm, hf, hmap⟩ := uservec_spec s
  refine ⟨fun r hr => ?_, hk, fun q hq => ?_⟩
  · have hword : (uservec s).word s.satp r.addr = s.regs r := by
      rw [Hart.word, hmap, hf, r.addr_page]
      exact (congrFun (update_self ..) _).trans (hm r)
    rw [userret_regs, hk]
    exact hr.trans hword
  · rw [hf, update_of_ne hq]

def someHart : Hart := ⟨Reg.addr, 0, 7, fun satp _ => satp, fun _ _ => 0⟩

theorem trap_restores_all : (userret { uservec someHart with regs := fun _ => someHart.satp }).regs = someHart.regs :=
  funext fun r => (trap_restores someHart _ rfl).1 r rfl

end Xv6.Trap
