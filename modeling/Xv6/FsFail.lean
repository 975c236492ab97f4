import Xv6.FsFile
/-!
# FsFail — what a call that fails leaves behind

`link`, `unlink`, `mkdir` and `mknod` give everything back when they fail (`failed_call_keeps`). `symlink` and `open` do not:
they
make the inode before they know that there is a block for the target, or a descriptor.
-/
namespace Xv6.Fs

open Function List Option Wp
variable {v v' v'' : Vol} {R : Multiset Ip} {L : List Ip} {s : FsState} {p : Slot} {x : Proc}

theorem excused_true (t : Tree) : Excused (fun _ => True) t :=
  ⟨fun _ _ _ _ => trivial, Or.inl trivial, Or.inl fun _ _ => trivial⟩

def namesOnly : Call → Bool
  | .mkdir _ | .mknod _ _ _ | .link _ _ | .unlink _ => true
  | _ => false

/-- **A call that fails to make or remove a name leaves the tree as it was**, with the types, links, sizes and contents of all
inodes that are allocated. -/
theorem failed_call_keeps {im : Image} (him : Consistent im) {calls : List (Slot × Call)} {s s' : FsState}
    {p : Slot} {x : Proc}
    {c : Call} (hs : Run.run fsStep (start im) calls = some s) (hp : s.panic = none) (hx : s.proc p = some x)
    (hc : namesOnly c = true) (hr : (program p x c).run s = .ok (-1, s')) : tree s'.vol = tree s.vol := by
  have hinv := reached_inv him hs hp
  obtain ⟨-, heff⟩ := wp_of_ok (program_spec c hinv hx (excused_true _)) hr
  cases c with
  | mkdir path =>
    rcases heff with ⟨-, ht⟩ | ⟨h0, -⟩
    · exact ht
    · cases h0
  | mknod path major minor =>
    rcases heff with ⟨-, ht⟩ | ⟨h0, -⟩
    · exact ht
    · cases h0
  | link old new =>
    rcases heff with ⟨-, ht⟩ | ⟨o, n, -, -, ⟨-, ht⟩ | ⟨h0, -⟩⟩
    · exact ht
    · exact ht
    · cases h0
  | unlink path =>
    rcases heff with ⟨-, ht⟩ | ⟨str, -, ⟨-, ht⟩ | ⟨h0, -⟩⟩
    · exact ht
    · exact ht
    · cases h0
  | _ => cases hc

theorem holds_of_eval (im : Image) (calls : List (Slot × Call)) (p : Slot) (P : FsState → Proc → Prop)
    [∀ s x, Decidable (P s x)]
    (h : ((Run.run fsStep (start im) calls).bind fun s => (s.proc p).map fun x => decide (P s x)) = some true) :
    ∃ s x, Run.run fsStep (start im) calls = some s ∧ s.proc p = some x ∧ P s x := by
  obtain ⟨s, hs, h⟩ := Option.bind_eq_some_iff.1 h
  obtain ⟨x, hx, h⟩ := Option.map_eq_some_iff.1 h
  exact ⟨s, x, hs, hx, of_decide_eq_true h⟩

theorem ok_of_toOption {α : Type} {o : Except Panic α} {a : α} (h : o.toOption = some a) : o = .ok a := by
  cases o with
  | error e => cases h
  | ok b =>
    cases h
    rfl

/-- A name that exists already. -/
theorem failed_call_keeps_root : ∃ s x s', Run.run fsStep (start rootImage) [(initSlot, .mkdir (some [97]))] = some s ∧
    (program initSlot x (.mkdir (some [97]))).run s = .ok (-1, s') ∧ tree s'.vol = tree s.vol := by
  obtain ⟨s, x, hs, hx, hp, hr⟩ :=
    holds_of_eval rootImage [(initSlot, .mkdir (some [97]))] initSlot (fun s x => s.panic = none ∧
    ((program initSlot x (.mkdir (some [97]))).run s).toOption.map Prod.fst = some (-1)) (by decide +kernel)
  obtain ⟨⟨r, s'⟩, ho, rfl⟩ := map_eq_some_iff.1 hr
  have hrun := ok_of_toOption ho
  exact ⟨s, x, s', hs, hrun, failed_call_keeps rootImage_consistent hs hp hx rfl hrun⟩

end Xv6.Fs
