import Mathlib
/-!
# Param — the constants of `param.h`
-/
namespace Xv6

/-- `MAXOPBLOCKS`: the blocks any file-system operation may log. -/
def maxOpBlocks : Nat := 10

def logBlocks : Nat := maxOpBlocks * 3

def nbuf : Nat := maxOpBlocks * 3

def rootDev : Nat := 1

def nproc : Nat := 64

abbrev Slot := Fin nproc

theorem one_lt_nproc : 1 < nproc := by decide

@[irreducible] def procs : List Slot := List.finRange nproc

theorem mem_procs (p : Slot) : p ∈ procs := by
  unfold procs
  exact List.mem_finRange p

theorem nodup_procs : procs.Nodup := by
  unfold procs
  exact List.nodup_finRange nproc

def initSlot : Slot := ⟨0, by decide⟩

end Xv6
