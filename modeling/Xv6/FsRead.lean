import Xv6.ConsModel
import Xv6.FsFail
import Xv6.PipeCopy
/-!
# FsRead — how many bytes `sys_read` stores

`fileread` with what it stores in user memory: the bytes of an inode, or those that `piperead` or `consoleread` copy out. A
call
of the last two goes on once for each time that it has slept; what it finds then is an argument. A negative count is passed to
`readi` as an unsigned one, which is clamped to the size of the file only (`negative_count_reads`).
-/
namespace Xv6
namespace Console

variable {τ : Type} [DecidableEq τ]

/-- The byte an event stores in the memory of `t`. -/
def Event.stored (t : τ) : Event τ → Option UInt8
  | .gave t' c => if t' = t then some c else none
  | _ => none

/-- The bytes that `t` has got since the trace was `old`. -/
def storedSince (t : τ) (old trace : List (Event τ)) : List UInt8 := (trace.drop old.length).filterMap (Event.stored t)

theorem storedSince_append (t : τ) (old evs : List (Event τ)) :
    storedSince t old (old ++ evs) = evs.filterMap (Event.stored t) := by
  unfold storedSince
  rw [List.drop_left]

/-- What a call of `consoleread` by `t` stores, going on in the consoles given with `n` bytes still to come. -/
def consoleread (t : τ) (target room : Nat) : Nat → Nat → List (Bool × Cons τ) → List UInt8
  | _, _, [] => []
  | n, dst, (killed, cons) :: rest =>
    let r := readLoop t killed target room n dst cons
    let out := storedSince t cons.trace r.1.trace
    match r.2 with
    | .done => out
    | .sleep n dst => out ++ consoleread t target room n dst rest

def ReadEnd.left : ReadEnd → Nat
  | .done => 0
  | .sleep n _ => n

theorem readLoop_stored (t : τ) (killed : Bool) (target room : Nat) : ∀ (n dst : Nat) (cons : Cons τ),
    ∃ evs, (readLoop t killed target room n dst cons).1.trace = cons.trace ++ evs ∧
      (evs.filterMap (Event.stored t)).length + (readLoop t killed target room n dst cons).2.left ≤ n
  | 0, dst, cons => ⟨[_], rfl, le_refl 0⟩
  | n + 1, dst, cons => by
    unfold readLoop
    split
    · cases killed with
      | true => exact ⟨[_], rfl, Nat.zero_le _⟩
      | false => exact ⟨[], (List.append_nil _).symm, by simp [ReadEnd.left]⟩
    dsimp only
    split
    · split
      · exact ⟨[_], rfl, Nat.zero_le _⟩
      · exact ⟨[_, _], List.append_assoc .., Nat.zero_le _⟩
    split
    · exact ⟨[_], rfl, Nat.zero_le _⟩
    split
    · refine ⟨[_, _], List.append_assoc .., ?_⟩
      simp [List.filterMap_cons, Event.stored, ReadEnd.left]
    obtain ⟨evs, htrace, hle⟩ := readLoop_stored t killed target room n (dst + 1)
      (Cons.log { cons with r := inc cons.r } (.gave t (cons.buf (cons.r % inputBufSize))))
    refine ⟨.gave t (cons.buf (cons.r % inputBufSize)) :: evs, ?_, ?_⟩
    · rw [htrace]
      exact List.append_assoc _ [_] _
    · rw [List.filterMap_cons]
      simp only [Event.stored, if_true, List.length_cons]
      omega

theorem length_consoleread_le (t : τ) (target room : Nat) : ∀ (found : List (Bool × Cons τ)) (n dst : Nat),
    (consoleread t target room n dst found).length ≤ n
  | [], n, dst => Nat.zero_le n
  | (killed, cons) :: rest, n, dst => by
    obtain ⟨evs, htrace, hle⟩ := readLoop_stored t killed target room n dst cons
    unfold consoleread
    dsimp only
    rw [htrace, storedSince_append]
    cases hend : (readLoop t killed target room n dst cons).2 with
    | done => exact le_trans (Nat.le_add_right _ _) hle
    | sleep m dst' =>
      rw [hend] at hle
      have hrest := length_consoleread_le t target room rest m dst'
      dsimp only [ReadEnd.left] at hle
      rw [List.length_append]
      omega

end Console

namespace PipeBuf

/-- What a call of `piperead` stores, going on in the pipes given. -/
def pipereadAll (room : Nat) (n : Int) : List (Bool × Pipe) → List UInt8
  | [] => []
  | (killed, pi) :: rest =>
    match (piperead killed room pi n).2 with
    | .sleep => pipereadAll room n rest
    | e => e.delivered

theorem length_pipereadAll_le (room : Nat) (n : Int) : ∀ found : List (Bool × Pipe),
    (pipereadAll room n found).length ≤ n.toNat
  | [] => Nat.zero_le _
  | (killed, pi) :: rest => by
    have hle := length_delivered_le killed room pi n
    unfold pipereadAll
    cases hend : (piperead killed room pi n).2 with
    | sleep => exact length_pipereadAll_le room n rest
    | ret bytes =>
      rw [hend] at hle
      exact hle
    | fail => exact Nat.zero_le _

end PipeBuf

namespace Fs

open Wp

/-- What a call on a pipe or on the console finds each time it goes on, and what it returns. -/
structure Found where
  pipe : List (Bool × PipeBuf.Pipe)
  cons : List (Bool × Console.Cons Slot)
  answer : Int

/-- `fileread` by process `p`: what it returns, and what it stores. -/
def filereadOut (p : Slot) (f : Fp) (room : Nat) (n : Int) (found : Found) : SM (Int × Bytes) := do
  let x := (← get).ftable f
  if x.readable = false then return (-1, [])
  match x.type with
  | .pipe => return (found.answer, PipeBuf.pipereadAll room n found.pipe)
  | .device =>
    return (devsw x.major found.answer,
      if x.major = 1 then Console.consoleread p (n % 2 ^ 32).toNat room n.toNat 0 found.cons else [])
  | .inode =>
    onVol (ilock x.ip)
    let (r, out) ← onVol (readi x.ip room x.off (n % 2 ^ 32).toNat)
    setFile f (if 0 < r then { x with off := x.off + r.toNat } else x)
    onVol (iunlock x.ip)
    return (r, out)
  | .none => throw .fileread

def sysReadOut (p : Slot) (x : Proc) (fd : Int) (room : Nat) (n : Int) (found : Found) : SM (Int × Bytes) :=
  match argfd x fd with
  | none => return (-1, [])
  | some (_, f) => filereadOut p f room n found

theorem sysRead_eq (p : Slot) (x : Proc) (fd : Int) (room : Nat) (n : Int) (found : Found) :
    sysRead x fd room n found.answer = Prod.fst <$> sysReadOut p x fd room n found := by
  unfold sysRead sysReadOut
  cases argfd x fd with
  | none => rfl
  | some q =>
    obtain ⟨i, f⟩ := q
    dsimp only
    unfold fileread filereadOut
    rw [map_bind]
    congr 1
    funext s
    by_cases hr : (s.ftable f).readable = false
    · rw [if_pos hr, if_pos hr]
      rfl
    rw [if_neg hr, if_neg hr]
    cases (s.ftable f).type with
    | inode => simp only [map_bind, map_pure]
    | none => rfl
    | pipe => rfl
    | device => rfl

/-- **A call that stores too much**: its count is negative, and the descriptor is of an inode that can be read, with bytes
behind the offset and room for them, where `off + n` does not wrap. -/
def Overreads (s : FsState) (x : Proc) (fd n : Int) (room : Nat) : Prop :=
  ∃ i f m, argfd x fd = some (i, f) ∧ (s.ftable f).readable = true ∧ (s.ftable f).type = .inode ∧
    tree s.vol (s.vol.inode (s.ftable f).ip).inum = some m ∧
    n < 0 ∧ 0 < room ∧ ((s.ftable f).off : Int) < -n ∧ (s.ftable f).off < m.bytes.length

variable {s s' : FsState} {p : Slot} {x : Proc} {fd n r : Int} {room : Nat} {found : Found} {out : Bytes}

theorem length_readAns (bytes : Bytes) (off : Nat) (hn : -2 ^ 31 ≤ n ∧ n < 2 ^ 31) :
    ((readAns room bytes off (n % 2 ^ 32).toNat).2.length : Int) ≤ max n 0 ↔
      ¬ (n < 0 ∧ 0 < room ∧ (off : Int) < -n ∧ off < bytes.length) := by
  have hlen : ∀ l : Bytes, (readResult room [] l).2.length = min room l.length := by
    intro l
    unfold readResult
    split <;> simp_all
  unfold readAns
  split
  · rw [List.length_nil]
    omega
  · rw [hlen, List.length_take, List.length_drop]
    omega

theorem sysReadOut_spec (h : Inv s) (hn : -2 ^ 31 ≤ n ∧ n < 2 ^ 31) : wp (sysReadOut p x fd room n found)
    (fun r _ => (r.2.length : Int) ≤ max n 0 ↔ ¬ Overreads s x fd n room) (fun _ => True) s := by
  unfold sysReadOut
  cases hfd : argfd x fd with
  | none =>
    refine iff_of_true (by simp) ?_
    rintro ⟨i, f, m, hf, -⟩
    rw [hfd] at hf
    cases hf
  | some q =>
    obtain ⟨i, f⟩ := q
    -- where nothing is read of an inode the counts are kept to
    have hother : ∀ out : Bytes, out.length ≤ n.toNat → (s.ftable f).readable = false ∨ (s.ftable f).type ≠ .inode →
        ((out.length : Int) ≤ max n 0 ↔ ¬ Overreads s x fd n room) := by
      refine fun out hle hno => iff_of_true (by omega) ?_
      rintro ⟨i', f', m, hf, hread, htype, -⟩
      rw [hfd] at hf
      cases hf
      rcases hno with e | e
      · rw [hread] at e
        cases e
      · exact e htype
    unfold filereadOut
    refine wp_ite (fun hread => hother [] (Nat.zero_le _) (.inl hread)) (fun hread => ?_)
    cases htype : (s.ftable f).type with
    | none => trivial
    | pipe => exact hother _ (PipeBuf.length_pipereadAll_le room n found.pipe) (.inr (by rw [htype]; nofun))
    | device =>
      refine hother _ ?_ (.inr (by rw [htype]; nofun))
      split
      · exact Console.length_consoleread_le ..
      · exact Nat.zero_le _
    | inode =>
      have hip := mem_ip (C := cwds s) (.inl htype)
      simp only [wp_bind, wp_onVol, wp_setFile]
      refine wp_use (ilock_node h.mid hip (.inl List.not_mem_nil) (.inl trivial)) (fun _ v1 hv1 => ?_)
      obtain ⟨-, h1, -, -, hnode⟩ := hv1
      refine wp_use (readi_spec h1 List.mem_cons_self (by omega)) (fun r v2 hv2 => ?_)
      obtain ⟨-, hr⟩ := hv2
      refine wp_use (wp_true _ (fun _ => trivial) _) (fun _ _ _ => ?_)
      rw [wp_pure, hr, length_readAns _ _ hn, not_iff_not]
      constructor
      · exact fun hover => ⟨i, f, _, hfd, by simpa using hread, htype, hnode, hover⟩
      · rintro ⟨i', f', m, hf, -, -, hm, hover⟩
        rw [hfd] at hf
        cases hf
        rw [hnode] at hm
        cases hm
        exact hover

/-- **A read stores no more than it is asked for**, for any open file, any room in user memory and any count, exactly if it
is not one of an inode with a negative count that finds something to store. -/
theorem read_bounded (h : Inv s) (hn : -2 ^ 31 ≤ n ∧ n < 2 ^ 31)
    (hr : (sysReadOut p x fd room n found).run s = .ok ((r, out), s')) :
    (out.length : Int) ≤ max n 0 ↔ ¬ Overreads s x fd n room := by
  have hiff := wp_of_ok (sysReadOut_spec h hn) hr
  exact hiff

def noneFound : Found := ⟨[], [], 0⟩

def openRoot : List (Slot × Call) := [(initSlot, .open (some [47]) 0)]

/-- Sixteen bytes of the root directory. -/
theorem read_bounded_root : ∃ s x r out s', Run.run fsStep (start rootImage) openRoot = some s ∧ s.proc initSlot = some x ∧
    (sysReadOut initSlot x 0 100 16 noneFound).run s = .ok ((r, out), s') ∧ (out.length : Int) ≤ max 16 0 := by
  obtain ⟨s, x, hs, hx, hp, hr⟩ := holds_of_eval rootImage openRoot initSlot
    (fun s x => s.panic = none ∧ ((sysReadOut initSlot x 0 100 16 noneFound).run s).toOption.isSome = true) (by decide +kernel)
  obtain ⟨⟨⟨r, out⟩, s'⟩, hr⟩ := Option.isSome_iff_exists.1 hr
  have hrun := ok_of_toOption hr
  have hinv := reached_inv rootImage_consistent hs hp
  refine ⟨s, x, r, out, s', hs, hx, hrun, (read_bounded hinv (by decide) hrun).2 ?_⟩
  rintro ⟨i, f, m, -, -, -, -, hneg, -⟩
  omega

/-- **A read of -1 bytes stores the whole file**, here the 32 bytes of the root directory. -/
theorem negative_count_reads :
    ((Run.run fsStep (start rootImage) openRoot).bind fun s => (s.proc initSlot).bind fun x =>
      ((sysReadOut initSlot x 0 100 (-1) noneFound).run s).toOption.map fun r => (r.1.1, r.1.2.length)) = some (32, 32) := by
  decide +kernel

end Fs
end Xv6
