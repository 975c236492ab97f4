import Xv6.ConsModel
import Xv6.LibFifo
/-!
# ConsRun — the line discipline of the console

`Editor` says what the console is for: a line is edited until it is committed, and the reads share the committed bytes in
order.
Whatever the console does, the editor accepts what is seen of it, and the ring holds what the editor holds
(`console_discipline`).
-/
namespace Xv6.Console

open Function
variable {τ : Type}

/-! ## The editor -/

/-- A read: the count it asks for, the bytes it has got, and whether it has used up a `^D`. -/
structure Read where
  n : Int
  got : List UInt8
  eof : Bool
  deriving DecidableEq, Repr

/-- The read may go on: no newline, no `^D` and not all of the count. -/
def Read.goesOn (rd : Read) : Bool := decide ((rd.got.length : Int) < rd.n ∧ rd.got.getLast? ≠ some newline ∧ rd.eof = false)

/-- **A line editor**: `queue` is committed and not yet read, `line` can still be edited. -/
structure Editor (τ : Type) where
  queue : List UInt8
  line : List UInt8
  reads : τ → Option Read
  killed : τ → Bool

/-- A character at the end of the line, which is committed where it ends or where there is room for no more. -/
def Editor.put (ed : Editor τ) (c : UInt8) : Editor τ :=
  if c = newline ∨ c = ctrlD ∨ ed.queue.length + ed.line.length + 1 = inputBufSize then
    { ed with queue := ed.queue ++ (ed.line ++ [c]), line := [] }
  else { ed with line := ed.line ++ [c] }

def Editor.type (ed : Editor τ) (c : UInt8) : Editor τ :=
  if c = ctrlP then ed
  else if c = ctrlU then { ed with line := [] }
  else if c = ctrlH ∨ c = delete then { ed with line := ed.line.dropLast }
  else if c = 0 ∨ inputBufSize ≤ ed.queue.length + ed.line.length then ed
  else ed.put (if c = carriageReturn then newline else c)

theorem type_reads (ed : Editor τ) (c : UInt8) : (ed.type c).reads = ed.reads := by
  unfold Editor.type Editor.put
  split_ifs <;> rfl

theorem type_killed (ed : Editor τ) (c : UInt8) : (ed.type c).killed = ed.killed := by
  unfold Editor.type Editor.put
  split_ifs <;> rfl

/-- The read may return `k`: it has all it can get, a `^D` stands after what it has got, or it waits and `t` has been killed.
-/
def Editor.mayEnd (ed : Editor τ) (t : τ) (rd : Read) (k : Int) : Bool :=
  decide (k = rd.got.length ∧ (rd.goesOn = false ∨ rd.got ≠ [] ∧ ed.queue.head? = some ctrlD) ∨
    k = -1 ∧ ed.killed t = true ∧ ed.queue = [] ∧ rd.goesOn = true)

/-- **What may be seen of a console.** -/
def Editor.step [DecidableEq τ] (ed : Editor τ) : Event τ → Option (Editor τ)
  | .typed c => some (ed.type c)
  | .began t n => if ed.reads t = none then some { ed with reads := update ed.reads t (some ⟨n, [], false⟩) } else none
  | .gave t c =>
    match ed.reads t, ed.queue with
    | some rd, c' :: queue =>
      if c = c' ∧ c ≠ ctrlD ∧ rd.goesOn then
        some { ed with queue := queue, reads := update ed.reads t (some { rd with got := rd.got ++ [c] }) }
      else none
    | _, _ => none
  | .eof t =>
    match ed.reads t, ed.queue with
    | some rd, c :: queue =>
      if c = ctrlD ∧ rd.got = [] ∧ rd.goesOn then
        some { ed with queue := queue, reads := update ed.reads t (some { rd with eof := true }) }
      else none
    | _, _ => none
  | .ended t k =>
    match ed.reads t with
    | some rd => if ed.mayEnd t rd k then some { ed with reads := update ed.reads t none } else none
    | none => none
  | .killed t => some { ed with killed := update ed.killed t true }

def Editor.start : Editor τ := ⟨[], [], fun _ => none, fun _ => false⟩

/-! ## The ring -/

/-- **The ring holds the committed bytes and the line that is edited**, which has no newline. -/
structure Ring (cons : Cons τ) (queue line : List UInt8) : Prop where
  holds : ∃ k, Fifo.Holds inputBufSize (2 ^ 32) cons.buf cons.r cons.e k (queue ++ line) ∧ cons.w = (k + queue.length) % 2 ^ 32
  line : newline ∉ line

variable {cons : Cons τ} {ed ed' : Editor τ} {queue line got : List UInt8} {t : τ} {c x : UInt8}

section
variable (h : Ring cons queue line)
include h

theorem Ring.le : queue.length + line.length ≤ inputBufSize := by
  obtain ⟨k, hk, -⟩ := h.holds
  rw [← List.length_append]
  exact hk.le

theorem Ring.edit : dist cons.e cons.r = queue.length + line.length := by
  obtain ⟨k, hk, -⟩ := h.holds
  rw [← List.length_append]
  exact hk.count (by decide)

theorem Ring.committed : dist cons.w cons.r = queue.length := by
  obtain ⟨k, hk, hw⟩ := h.holds
  rw [hw]
  exact hk.front.count (by decide)

theorem Ring.uncommitted : dist cons.e cons.w = line.length := by
  obtain ⟨k, hk, hw⟩ := h.holds
  rw [hw]
  exact hk.back.count (by decide)

theorem Ring.cell {j : Nat} (hx : (queue ++ line)[j]? = some x) : cons.buf ((cons.r + j) % inputBufSize) = x := by
  obtain ⟨k, hk, -⟩ := h.holds
  have hr : (cons.r + j) % inputBufSize = (k + j) % inputBufSize := by
    rw [hk.read, ← Nat.mod_add_mod, Nat.mod_mod_of_dvd _ (by decide), Nat.mod_add_mod]
  rw [hr]
  exact hk.cell j x hx

theorem Ring.edit_eq : cons.e = cons.w ↔ line = [] := by
  obtain ⟨k, hk, hw⟩ := h.holds
  rw [hw, eq_comm]
  exact hk.back.empty_iff (by decide)

theorem Ring.read_eq : cons.r = cons.w ↔ queue = [] := by
  obtain ⟨k, hk, hw⟩ := h.holds
  rw [hw]
  exact hk.front.empty_iff (by decide)

theorem Ring.log (ev : Event τ) : Ring (cons.log ev) queue line := ⟨h.holds, h.line⟩

end

/-! ## `consoleintr` -/

theorem Ring.moved {k e : Nat} (h : Fifo.Holds inputBufSize (2 ^ 32) cons.buf cons.r e k (queue ++ line))
    (hw : cons.w = (k + queue.length) % 2 ^ 32) (hl : newline ∉ line) (c : Nat) :
    Ring (consputc { cons with e := e } c) queue line :=
  ⟨⟨k, h, hw⟩, hl⟩

theorem Ring.erase (h : Ring cons queue (line ++ [c])) :
    cons.buf (dec cons.e % inputBufSize) = c ∧ Ring (erase cons) queue line := by
  obtain ⟨k, hk, hw⟩ := h.holds
  rw [← List.append_assoc] at hk
  obtain ⟨hc, hk⟩ := hk.unpush (by decide) (by decide)
  exact ⟨hc, Ring.moved hk hw (fun hm => h.line (List.mem_append_left _ hm)) _⟩

theorem Ring.killLoop : ∀ (k : Nat) (cons : Cons τ) (line : List UInt8), Ring cons queue line → line.length ≤ k →
    Ring (killLoop k cons) queue []
  | 0, cons, line, h, hle => by
    obtain rfl : line = [] := List.length_eq_zero_iff.1 (Nat.le_zero.1 hle)
    exact h
  | k + 1, cons, line, h, hle => by
    unfold Console.killLoop
    rcases List.eq_nil_or_concat line with rfl | ⟨line', c, rfl⟩
    · rw [if_neg (fun hc => hc.1 (h.edit_eq.2 rfl))]
      exact h
    rw [List.concat_eq_append] at h hle
    obtain ⟨hc, h'⟩ := h.erase
    have hne : cons.e ≠ cons.w := fun e => List.append_ne_nil_of_right_ne_nil _ (List.cons_ne_nil _ _) (h.edit_eq.1 e)
    have hcn : c ≠ newline := fun e => h.line (List.mem_append_right _ (List.mem_singleton.2 e.symm))
    rw [if_pos ⟨hne, by rw [hc]; exact hcn⟩]
    rw [List.length_append, List.length_singleton] at hle
    exact Ring.killLoop k _ line' h' (by omega)

section
variable (h : Ring cons queue line)
include h

section
variable (hlt : queue.length + line.length < inputBufSize)
include hlt

theorem store_holds (c : UInt8) :
    ∃ k, Fifo.Holds inputBufSize (2 ^ 32) (store cons c).buf (store cons c).r (store cons c).e k (queue ++ (line ++ [c])) ∧
      (store cons c).w = (k + queue.length) % 2 ^ 32 := by
  obtain ⟨k, hk, hw⟩ := h.holds
  rw [← List.length_append] at hlt
  refine ⟨k, ?_, hw⟩
  rw [← List.append_assoc]
  exact hk.push (by decide) hlt c

theorem Ring.store (hc : c ≠ newline) : Ring (store cons c) queue (line ++ [c]) := by
  refine ⟨store_holds h hlt c, fun hm => ?_⟩
  rcases List.mem_append.1 hm with hm | hm
  · exact h.line hm
  · exact hc (List.mem_singleton.1 hm).symm

theorem Ring.commit (c : UInt8) :
    Ring { Console.store cons c with w := (Console.store cons c).e } (queue ++ (line ++ [c])) [] := by
  obtain ⟨k, hk, -⟩ := store_holds h hlt c
  refine ⟨⟨k, ?_, hk.write⟩, List.not_mem_nil⟩
  rw [List.append_nil]
  exact hk

theorem store_dist (c : UInt8) : dist (store cons c).e (store cons c).r = queue.length + line.length + 1 := by
  obtain ⟨k, hk, -⟩ := store_holds h hlt c
  have hcount := hk.count (by decide)
  rw [List.length_append, List.length_append, List.length_singleton, ← add_assoc] at hcount
  exact hcount

end

end

theorem consoleintr_ring (h : Ring cons ed.queue ed.line) (c : UInt8) :
    Ring (consoleintr c cons).1 (ed.type c).queue (ed.type c).line := by
  unfold consoleintr Editor.type
  split
  · exact h
  split
  · exact Ring.killLoop _ cons ed.line h (by rw [h.uncommitted])
  split
  · rcases List.eq_nil_or_concat ed.line with hl | ⟨line', x, hl⟩
    · rw [if_neg (not_not.2 (h.edit_eq.2 hl)), hl]
      rw [hl] at h
      exact h
    have hne : cons.e ≠ cons.w := by
      intro e
      rw [h.edit_eq.1 e] at hl
      cases line' <;> cases hl
    rw [List.concat_eq_append] at hl
    rw [if_pos hne, hl, List.dropLast_concat]
    rw [hl] at h
    exact h.erase.2
  rw [h.edit]
  by_cases hc : c ≠ 0 ∧ ed.queue.length + ed.line.length < inputBufSize
  · obtain ⟨hc0, hlt⟩ := hc
    have hroom : ¬ (c = 0 ∨ inputBufSize ≤ ed.queue.length + ed.line.length) := by
      rw [not_or]
      exact ⟨hc0, Nat.not_le.2 hlt⟩
    rw [if_pos ⟨hc0, hlt⟩, if_neg hroom]
    generalize (if c = carriageReturn then newline else c) = x
    unfold Editor.put
    dsimp only
    rw [store_dist h hlt]
    by_cases hx : x = newline ∨ x = ctrlD ∨ ed.queue.length + ed.line.length + 1 = inputBufSize
    · rw [if_pos hx, if_pos hx]
      exact h.commit hlt x
    · rw [if_neg hx, if_neg hx]
      rw [not_or] at hx
      exact h.store hlt hx.1
  · have hno : c = 0 ∨ inputBufSize ≤ ed.queue.length + ed.line.length := by
      by_contra hn
      rw [not_or] at hn
      exact hc ⟨hn.1, by omega⟩
    rw [if_neg hc, if_pos hno]
    exact h

theorem moved_trace (cons : Cons τ) (e c : Nat) : (consputc { cons with e := e } c).trace = cons.trace := rfl

theorem erase_trace (cons : Cons τ) : (erase cons).trace = cons.trace := moved_trace cons _ _

theorem store_trace (cons : Cons τ) (c : UInt8) : (store cons c).trace = cons.trace := rfl

theorem killLoop_trace : ∀ (k : Nat) (cons : Cons τ), (killLoop k cons).trace = cons.trace
  | 0, _ => rfl
  | k + 1, cons => by
    unfold killLoop
    split
    · rw [killLoop_trace k, erase_trace]
    · rfl

theorem consoleintr_trace (c : UInt8) (cons : Cons τ) : (consoleintr c cons).1.trace = cons.trace := by
  unfold consoleintr
  split
  · rfl
  split
  · exact killLoop_trace _ cons
  split
  · split
    · exact erase_trace cons
    · rfl
  split
  · generalize (if c = carriageReturn then newline else c) = x
    dsimp only
    split
    · exact store_trace cons x
    · exact store_trace cons x
  · rfl

/-! ## `consoleread` -/

theorem Ring.taken {k r : Nat} (h : Fifo.Holds inputBufSize (2 ^ 32) cons.buf r cons.e k (queue ++ line))
    (hw : cons.w = (k + queue.length) % 2 ^ 32) (hl : newline ∉ line) : Ring { cons with r := r } queue line :=
  ⟨⟨k, h, hw⟩, hl⟩

theorem Ring.get (h : Ring cons (c :: queue) line) :
    cons.buf (cons.r % inputBufSize) = c ∧ Ring { cons with r := inc cons.r } queue line := by
  obtain ⟨k, hk, hw⟩ := h.holds
  obtain ⟨hc, hk⟩ := hk.pop (by decide)
  rw [List.length_cons, add_comm queue.length, ← add_assoc] at hw
  exact ⟨hc, Ring.taken hk hw h.line⟩

theorem Ring.unget (h : Ring cons queue line) : { cons with r := dec (inc cons.r) } = cons := by
  obtain ⟨k, hk, -⟩ := h.holds
  have hr : dec (inc cons.r) = cons.r := by
    unfold dec inc
    rw [Fifo.mod_back _ (by decide), hk.read, Nat.mod_mod]
  rw [hr]

theorem result_eq {target n : Nat} (hn : n ≤ target) (ht : target < 2 ^ 31) : result target n = (target - n : Nat) := by
  unfold result
  rw [← Int.ofNat_sub hn]
  apply Int.bmod_eq_of_le
  · omega
  · omega

/-- The editor accepts what has been seen, and the ring holds what it holds. -/
structure Shows [DecidableEq τ] (cons : Cons τ) (ed : Editor τ) : Prop where
  trace : Run.run Editor.step Editor.start cons.trace = some ed
  ring : Ring cons ed.queue ed.line

variable [DecidableEq τ] {ev : Event τ} {rd : Read} {k n m : Int}

theorem shows_log (h : Run.run Editor.step Editor.start cons.trace = some ed) (hev : ed.step ev = some ed')
    (hring : Ring cons ed'.queue ed'.line) : Shows (cons.log ev) ed' := ⟨Run.run_concat h hev, hring.log ev⟩

section
variable (hr : ed.reads t = some rd)
include hr

theorem step_gave (hq : ed.queue = c :: queue) (hc : c ≠ ctrlD) (hg : rd.goesOn = true) :
    ed.step (.gave t c) =
      some { ed with queue := queue, reads := update ed.reads t (some { rd with got := rd.got ++ [c] }) } := by
  simp only [Editor.step, hr, hq]
  rw [if_pos ⟨trivial, hc, hg⟩]

theorem step_eof (hq : ed.queue = ctrlD :: queue) (hgot : rd.got = []) (hg : rd.goesOn = true) :
    ed.step (.eof t) = some { ed with queue := queue, reads := update ed.reads t (some { rd with eof := true }) } := by
  simp only [Editor.step, hr, hq]
  rw [if_pos ⟨trivial, hgot, hg⟩]

theorem step_ended (hk : ed.mayEnd t rd k = true) :
    ed.step (.ended t k) = some { ed with reads := update ed.reads t none } := by
  simp only [Editor.step, hr]
  rw [if_pos hk]

end

/-- What a thread in `consoleread` is to the editor. -/
def Matches : Th → Option Read → Prop
  | .out, rd => rd = none
  | .read target room n dst _, rd => ∃ got, rd = some ⟨target, got, false⟩ ∧ got.length = dst ∧ n + dst = target ∧ 0 < n ∧
    target ≤ room ∧ target < 2 ^ 31 ∧ got.getLast? ≠ some newline

def ReadEnd.th (target room : Nat) : ReadEnd → Th
  | .done => .out
  | .sleep n dst => .read target room n dst true

theorem goesOn_eq (hlt : (got.length : Int) < n) (hl : got.getLast? ≠ some newline) :
    Read.goesOn ⟨n, got, false⟩ = true := decide_eq_true ⟨hlt, hl, rfl⟩

/-- **What the loop of `consoleread` leaves**: the editor allows what has been seen, and only the read of `t` has changed. -/
def Goes (t : τ) (target room : Nat) (ed : Editor τ) (out : Cons τ × ReadEnd) : Prop :=
  ∃ ed', Shows out.1 ed' ∧ ed'.killed = ed.killed ∧ (∀ q, q ≠ t → ed'.reads q = ed.reads q) ∧
    Matches (out.2.th target room) (ed'.reads t)

variable {target room n dst : Nat} {got : List UInt8}

theorem goes_end (h : Shows cons ed) (hr : ed.reads t = some rd) (hend : ed.mayEnd t rd k = true) :
    Goes t target room ed (cons.log (.ended t k), .done) :=
  ⟨_, shows_log h.trace (step_ended hr hend) h.ring, rfl, fun _ hq => update_of_ne hq _ _, update_self ..⟩

theorem goes_over (h : Shows cons ed) (hr : ed.reads t = some rd) (hover : rd.goesOn = false) (hk : k = rd.got.length) :
    Goes t target room ed (cons.log (.ended t k), .done) := goes_end h hr (decide_eq_true (.inl ⟨hk, .inl hover⟩))

theorem Goes.after {out : Cons τ × ReadEnd} (h : Goes t target room ed' out) (hk : ed'.killed = ed.killed)
    (ho : ∀ q, q ≠ t → ed'.reads q = ed.reads q) : Goes t target room ed out := by
  obtain ⟨ed1, hs, hk1, ho1, hm⟩ := h
  exact ⟨ed1, hs, hk1.trans hk, fun q hq => (ho1 q hq).trans (ho q hq), hm⟩

theorem result_got (ht : target < 2 ^ 31) (hm : m = n) (hn : n + got.length = target) : result target m = got.length := by
  rw [hm, result_eq (by omega) ht]
  omega

theorem goes_eof (ht : target < 2 ^ 31) (h : Shows cons ed) (hr : ed.reads t = some ⟨target, got, false⟩)
    (hq : ed.queue = ctrlD :: queue) (hgoes : Read.goesOn ⟨target, got, false⟩ = true) (hn : n + 1 + got.length = target) :
    Goes t target room ed
      (if n + 1 < target then (Cons.log { cons with r := dec (inc cons.r) } (.ended t (result target (n + 1))), .done)
        else ((Cons.log { cons with r := inc cons.r } (.eof t)).log (.ended t (result target (n + 1))), .done)) := by
  have hring := h.ring
  rw [hq] at hring
  have hres : result target ((n : Int) + 1) = got.length := result_got ht rfl hn
  rw [hres]
  split
  · -- bytes have been given: the `^D` stays in the ring
    have hgn : got ≠ [] := by
      rintro rfl
      rw [List.length_nil] at hn
      omega
    rw [hring.unget]
    exact goes_end h hr (decide_eq_true (.inl ⟨rfl, .inr ⟨hgn, by rw [hq]; rfl⟩⟩))
  · have hgn : got = [] := List.length_eq_zero_iff.1 (by omega)
    have h1 : Shows (Cons.log { cons with r := inc cons.r } (.eof t)) _ :=
      shows_log h.trace (step_eof hr hq hgn hgoes) hring.get.2
    refine (goes_over h1 (update_self ..) ?_ rfl).after rfl (fun q hqt => update_of_ne hqt _ _)
    exact decide_eq_false (fun hg => nomatch hg.2.2)

theorem readLoop_spec (killed : Bool) (ht : target < 2 ^ 31) (hroom : target ≤ room) :
    ∀ (n dst : Nat) (cons : Cons τ) (ed : Editor τ) (got : List UInt8), Shows cons ed → ed.killed t = killed →
      ed.reads t = some ⟨target, got, false⟩ → got.length = dst → n + got.length = target → got.getLast? ≠ some newline →
      Goes t target room ed (readLoop t killed target room n dst cons)
  | 0, dst, cons, ed, got, h, hkill, hr, hgot, hn, hlast => by
    refine goes_over h hr (decide_eq_false ?_) (result_got ht rfl hn)
    rintro ⟨hlt, -⟩
    dsimp only at hlt
    omega
  | n + 1, dst, cons, ed, got, h, hkill, hr, hgot, hn, hlast => by
    have hgoes : Read.goesOn ⟨target, got, false⟩ = true := goesOn_eq (by omega) hlast
    unfold readLoop
    cases hq : ed.queue with
    | nil =>
      rw [if_pos (h.ring.read_eq.2 hq)]
      cases killed with
      | true => exact goes_end h hr (decide_eq_true (.inr ⟨rfl, hkill, hq, hgoes⟩))
      | false => exact ⟨ed, h, rfl, fun _ _ => rfl, got, hr, hgot, by omega, Nat.succ_pos n, hroom, ht, hlast⟩
    | cons c queue =>
      have hring := h.ring
      rw [hq] at hring
      obtain ⟨hc, hget⟩ := hring.get
      have hne : cons.r ≠ cons.w := fun e => List.cons_ne_nil c queue (hring.read_eq.1 e)
      rw [if_neg hne]
      dsimp only
      rw [hc]
      by_cases hd : c = ctrlD
      · rw [if_pos hd]
        exact goes_eof ht h hr (by rw [hq, hd]) hgoes hn
      rw [if_neg hd, if_neg (by omega)]
      have h1 : Shows (Cons.log { cons with r := inc cons.r } (.gave t c)) _ :=
        shows_log h.trace (step_gave hr hq hd hgoes) hget
      have hr1 : update ed.reads t (some ⟨target, got ++ [c], false⟩) t = some ⟨target, got ++ [c], false⟩ :=
        update_self ..
      have hlen : (got ++ [c]).length = got.length + 1 := by
        rw [List.length_append, List.length_singleton]
      by_cases hnl : c = newline
      · rw [if_pos hnl]
        have hres : result target (n : Int) = (got ++ [c]).length := result_got ht rfl (by omega)
        refine (goes_over h1 hr1 (decide_eq_false ?_) hres).after rfl (fun q hqt => update_of_ne hqt _ _)
        rintro ⟨-, hl, -⟩
        apply hl
        rw [List.getLast?_concat, hnl]
      · rw [if_neg hnl]
        have hlast1 : (got ++ [c]).getLast? ≠ some newline := by
          rw [List.getLast?_concat]
          exact fun e => hnl (Option.some.inj e)
        have hgo := readLoop_spec killed ht hroom n (dst + 1) _ _ (got ++ [c]) h1 hkill hr1 (by omega) (by omega) hlast1
        exact hgo.after rfl (fun q hqt => update_of_ne hqt _ _)

/-! ## Runs -/

structure Inv (s : St τ) (ed : Editor τ) : Prop where
  shown : Shows s.cons ed
  reads : ∀ t, Matches (s.th t) (ed.reads t)
  killed : ed.killed = s.killed

def Act.valid : Act τ → Prop
  | .consoleread _ n room => n ≤ room
  | _ => True

instance (a : Act τ) : Decidable a.valid := by
  cases a <;> unfold Act.valid <;> infer_instance

theorem matches_wake {th : Th} {o : Option Read} (h : Matches th o) : Matches th.wake o := by
  cases th with
  | out => exact h
  | read target room n dst asleep => exact h

theorem readSection_eq (s : St τ) (t : τ) (target room n dst : Nat) :
    readSection s t target room n dst =
      { s with
        cons := (readLoop t (s.killed t) target room n dst s.cons).1
        th := update s.th t ((readLoop t (s.killed t) target room n dst s.cons).2.th target room) } := by
  unfold readSection
  cases h : (readLoop t (s.killed t) target room n dst s.cons).2 with
  | done => simp only [h, ReadEnd.th]
  | sleep n dst => simp only [h, ReadEnd.th]

variable {s s' : St τ}

theorem readSection_inv (hgo : Goes t target room ed (readLoop t (s.killed t) target room n dst s.cons))
    (hk : ed.killed = s.killed) (ho : ∀ q, q ≠ t → Matches (s.th q) (ed.reads q)) :
    ∃ ed', Inv (readSection s t target room n dst) ed' := by
  obtain ⟨ed', hs, hk', ho', hm⟩ := hgo
  rw [readSection_eq]
  refine ⟨ed', hs, fun q => ?_, hk'.trans hk⟩
  by_cases e : q = t
  · dsimp only
    rw [e, update_self]
    exact hm
  · dsimp only
    rw [update_of_ne e, ho' q e]
    exact ho q e

theorem result_nonpos {n : Int} (hn : n ≤ 0) (hlow : -2 ^ 31 ≤ n) : result (n % 2 ^ 32).toNat n = 0 := by
  unfold result
  rw [Int.toNat_of_nonneg (by omega)]
  rcases Int.lt_or_eq_of_le hn with hneg | rfl
  · rw [show n % 2 ^ 32 - n = 2 ^ 32 by omega]
    decide
  · decide

theorem consoleread_inv (h : Inv s ed) (hv : m ≤ room) (hs : step s (.consoleread t m room) = some s') :
    ∃ ed', Inv s' ed' := by
  obtain ⟨hshown, hreads, hkilled⟩ := h
  simp only [step] at hs
  split at hs
  swap
  · cases hs
  rename_i hc
  obtain ⟨hout, hlow, hhigh⟩ := hc
  have hnone : ed.reads t = none := by
    have hm := hreads t
    rw [hout] at hm
    exact hm
  -- the read begins
  have hbegan : ed.step (.began t m) = some { ed with reads := update ed.reads t (some ⟨m, [], false⟩) } := by
    simp only [Editor.step]
    rw [if_pos hnone]
  have h1 := shows_log hshown.trace hbegan hshown.ring
  have hothers : ∀ q, q ≠ t → Matches (s.th q) (update ed.reads t (some ⟨m, [], false⟩) q) := by
    intro q hq
    rw [update_of_ne hq]
    exact hreads q
  split at hs
  · rename_i hpos
    cases hs
    obtain ⟨n, rfl⟩ := Int.eq_ofNat_of_zero_le hpos.le
    have htarget : ((n : Int) % 2 ^ 32).toNat = n := by omega
    rw [htarget, Int.toNat_natCast]
    have hroom : n ≤ room := by omega
    have hgo := readLoop_spec (s.killed t) (by omega) hroom n 0 _ _ [] h1 (by rw [hkilled]) (update_self _ _ _) rfl rfl
      (by decide)
    exact readSection_inv hgo hkilled hothers
  · rename_i hpos
    cases hs
    have hover : Read.goesOn ⟨m, [], false⟩ = false := decide_eq_false (fun hg => hpos hg.1)
    have hgo : Goes t 0 0 _ _ := goes_over h1 (update_self ..) hover (result_nonpos (by omega) hlow)
    obtain ⟨ed', hs', hk', ho', hm'⟩ := hgo
    refine ⟨ed', hs', fun q => ?_, hk'.trans hkilled⟩
    by_cases e : q = t
    · rw [e]
      rw [hout]
      exact hm'
    · rw [ho' q e]
      exact hothers q e

theorem step_inv {a : Act τ} (h : Inv s ed) (hv : a.valid) (hs : step s a = some s') : ∃ ed', Inv s' ed' := by
  obtain ⟨hshown, hreads, hkilled⟩ := h
  cases a with
  | consoleintr c =>
    cases hs
    refine ⟨ed.type c, ⟨?_, ?_⟩, ?_, ?_⟩
    · rw [consoleintr_trace]
      exact Run.run_concat hshown.trace rfl
    · exact consoleintr_ring (hshown.ring.log _) c
    · intro q
      rw [type_reads]
      split
      · exact matches_wake (hreads q)
      · exact hreads q
    · rw [type_killed]
      exact hkilled
  | consoleread t n room => exact consoleread_inv ⟨hshown, hreads, hkilled⟩ hv hs
  | advance t =>
    simp only [step] at hs
    split at hs
    · rename_i target room n dst hth
      cases hs
      have hm := hreads t
      rw [hth] at hm
      obtain ⟨got, hr, hgot, hn, -, hroom, ht, hlast⟩ := hm
      have hgo := readLoop_spec _ ht hroom n dst s.cons ed got hshown rfl hr hgot (by omega) hlast
      rw [hkilled] at hgo
      exact readSection_inv hgo hkilled (fun q _ => hreads q)
    · cases hs
  | kill t =>
    cases hs
    refine ⟨{ ed with killed := update ed.killed t true }, shows_log hshown.trace rfl hshown.ring, fun q => ?_, ?_⟩
    · dsimp only
      by_cases e : q = t
      · rw [e, update_self]
        exact matches_wake (hreads t)
      · rw [update_of_ne e]
        exact hreads q
    · rw [hkilled]

/-- **The console shows a line editor**: the indices are in order, every cell between them holds what the editor has there,
and the editor accepts everything that has been seen. -/
structure Disciplined (s : St τ) (ed : Editor τ) : Prop where
  seen : Run.run Editor.step Editor.start s.cons.trace = some ed
  distances : dist s.cons.w s.cons.r ≤ dist s.cons.e s.cons.r ∧ dist s.cons.e s.cons.r ≤ inputBufSize
  committed : dist s.cons.w s.cons.r = ed.queue.length
  edited : dist s.cons.e s.cons.r = ed.queue.length + ed.line.length
  cells : ∀ j x, (ed.queue ++ ed.line)[j]? = some x → s.cons.buf ((s.cons.r + j) % inputBufSize) = x

theorem Inv.disciplined (h : Inv s ed) : Disciplined s ed := by
  have hring := h.shown.ring
  refine ⟨h.shown.trace, ⟨?_, ?_⟩, hring.committed, hring.edit, fun j x hx => hring.cell hx⟩
  · rw [hring.committed, hring.edit]
    exact Nat.le_add_right _ _
  · rw [hring.edit]
    exact hring.le

theorem start_inv : Inv (start : St τ) Editor.start :=
  ⟨⟨rfl, ⟨0, Fifo.holds_nil .., rfl⟩, List.not_mem_nil⟩, fun _ => rfl, rfl⟩

/-- **In every run** of characters and reads with valid buffers the console is a line editor. -/
theorem console_discipline (acts : List (Act τ)) (h : ∀ a ∈ acts, a.valid) :
    Run.allStates step (fun s => ∃ ed, Disciplined s ed) start acts := by
  have hinv : Run.allStates step (fun s => ∃ ed, Inv s ed) start acts :=
    Run.allStates_of_allSteps (fun s a s' ⟨ed, hi⟩ hv => step_inv hi hv) acts start ⟨_, start_inv⟩
      (Run.allSteps_of_forall acts start h)
  exact Run.allStates_mono (fun s ⟨ed, hi⟩ => ⟨ed, hi.disciplined⟩) acts start hinv

def lineRun : List (Act Nat) :=
  [.consoleread 0 10 10, .consoleintr 0x68, .consoleintr 0x78, .consoleintr ctrlH, .consoleintr 0x69,
    .consoleintr carriageReturn, .advance 0, .consoleintr 0x61, .consoleintr ctrlD, .consoleread 1 4 8, .consoleread 0 4 4]

theorem console_discipline_line : Run.allStates step (fun s => ∃ ed, Disciplined s ed) start lineRun ∧
    (Run.run step start lineRun).map (fun s => s.cons.trace) =
      some [.began 0 10, .typed 0x68, .typed 0x78, .typed ctrlH, .typed 0x69, .typed carriageReturn,
        .gave 0 0x68, .gave 0 0x69,
        .gave 0 newline, .ended 0 3, .typed 0x61, .typed ctrlD, .began 1 4, .gave 1 0x61, .ended 1 1, .began 0 4, .eof 0,
        .ended 0 0] :=
  ⟨console_discipline lineRun (by decide), by decide +kernel⟩

end Xv6.Console
