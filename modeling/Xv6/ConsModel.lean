import Xv6.LibRun
/-!
# ConsModel — the input of `console.c`

A call of `consoleread` holds `cons.lock` from its start to its end, except while it sleeps, and `consoleintr` holds it
throughout:
what is done in one go is a function of `cons`. The indices are counted modulo 2^32. `procdump` has no part in the input and is
left out.
-/
namespace Xv6.Console

open Function

def inputBufSize : Nat := 128

def backspace : Nat := 0x100

def ctrl (x : UInt8) : UInt8 := x - 0x40

def ctrlP : UInt8 := ctrl 0x50
def ctrlU : UInt8 := ctrl 0x55
def ctrlH : UInt8 := ctrl 0x48
def ctrlD : UInt8 := ctrl 0x44

def delete : UInt8 := 0x7f
def newline : UInt8 := 0x0a
def carriageReturn : UInt8 := 0x0d

/-- What is seen of the console from outside: characters that are typed, and reads that begin, get a byte, use up a `^D` and
return. -/
inductive Event (τ : Type) where
  | typed (c : UInt8)
  | began (t : τ) (n : Int)
  | gave (t : τ) (c : UInt8)
  | eof (t : τ)
  | ended (t : τ) (k : Int)
  | killed (t : τ)
  deriving DecidableEq, Repr

/-- `cons`. `echo` is what `consputc` has sent; `trace` records the events, and nothing reads it. -/
structure Cons (τ : Type) where
  buf : Nat → UInt8
  r : Nat
  w : Nat
  e : Nat
  echo : List Nat
  trace : List (Event τ)

variable {τ : Type}

def Cons.log (cons : Cons τ) (ev : Event τ) : Cons τ := { cons with trace := cons.trace ++ [ev] }

def consputc (cons : Cons τ) (c : Nat) : Cons τ := { cons with echo := cons.echo ++ [c] }

def inc (i : Nat) : Nat := (i + 1) % 2 ^ 32
def dec (i : Nat) : Nat := (i + 2 ^ 32 - 1) % 2 ^ 32
def dist (i j : Nat) : Nat := (i + 2 ^ 32 - j) % 2 ^ 32

/-! ## `consoleintr` -/

def erase (cons : Cons τ) : Cons τ := consputc { cons with e := dec cons.e } backspace

/-- The loop of `C('U')`; after `cons.e - cons.w` turns the indices are equal. -/
def killLoop : Nat → Cons τ → Cons τ
  | 0, cons => cons
  | k + 1, cons =>
    if cons.e ≠ cons.w ∧ cons.buf (dec cons.e % inputBufSize) ≠ newline then killLoop k (erase cons) else cons

def store (cons : Cons τ) (c : UInt8) : Cons τ :=
  let cons := consputc cons c.toNat
  { cons with buf := update cons.buf (cons.e % inputBufSize) c, e := inc cons.e }

/-- What `consoleintr` leaves, and whether it does `wakeup(&cons.r)`. -/
def consoleintr (c : UInt8) (cons : Cons τ) : Cons τ × Bool :=
  if c = ctrlP then (cons, false)
  else if c = ctrlU then (killLoop (dist cons.e cons.w) cons, false)
  else if c = ctrlH ∨ c = delete then (if cons.e ≠ cons.w then erase cons else cons, false)
  else if c ≠ 0 ∧ dist cons.e cons.r < inputBufSize then
    let c := if c = carriageReturn then newline else c
    let cons := store cons c
    if c = newline ∨ c = ctrlD ∨ dist cons.e cons.r = inputBufSize then ({ cons with w := cons.e }, true) else (cons, false)
  else (cons, false)

/-! ## `consoleread` -/

/-- How what `consoleread` does in one go ends: it has returned, or it sleeps with `n` and `dst`. -/
inductive ReadEnd where
  | done
  | sleep (n dst : Nat)
  deriving DecidableEq, Repr

def result (target : Nat) (n : Int) : Int := ((target : Int) - n).bmod (2 ^ 32)

/-- The loop of `consoleread` by `t`. `dst` is counted from the start of the user buffer, of which `room` bytes can be
written. -/
def readLoop (t : τ) (killed : Bool) (target room : Nat) : Nat → Nat → Cons τ → Cons τ × ReadEnd
  | 0, _, cons => (cons.log (.ended t (result target 0)), .done)
  | n + 1, dst, cons =>
    if cons.r = cons.w then
      if killed then (cons.log (.ended t (-1)), .done) else (cons, .sleep (n + 1) dst)
    else
      let c := cons.buf (cons.r % inputBufSize)
      let cons := { cons with r := inc cons.r }
      if c = ctrlD then
        if n + 1 < target then
          -- saved for the next read
          (Cons.log { cons with r := dec cons.r } (.ended t (result target (n + 1))), .done)
        else ((cons.log (.eof t)).log (.ended t (result target (n + 1))), .done)
      else if room ≤ dst then (cons.log (.ended t (result target (n + 1))), .done)
      else
        let cons := cons.log (.gave t c)
        if c = newline then (cons.log (.ended t (result target n)), .done)
        else readLoop t killed target room n (dst + 1) cons

/-! ## The system -/

/-- Where a thread is: out of `consoleread`, or in it, where it is asleep on `&cons.r` or not. -/
inductive Th where
  | out
  | read (target room n dst : Nat) (asleep : Bool)
  deriving DecidableEq, Repr

structure St (τ : Type) where
  cons : Cons τ
  th : τ → Th
  killed : τ → Bool

def Th.wake : Th → Th
  | .read target room n dst _ => .read target room n dst false
  | x => x

inductive Act (τ : Type) where
  | consoleintr (c : UInt8)
  | consoleread (t : τ) (n : Int) (room : Nat)
  /-- A thread in `consoleread` that is not asleep goes on. -/
  | advance (t : τ)
  | kill (t : τ)
  deriving DecidableEq, Repr

variable [DecidableEq τ]

def readSection (s : St τ) (t : τ) (target room n dst : Nat) : St τ :=
  let r := readLoop t (s.killed t) target room n dst s.cons
  match r.2 with
  | .done => { s with cons := r.1, th := update s.th t .out }
  | .sleep n dst => { s with cons := r.1, th := update s.th t (.read target room n dst true) }

def step (s : St τ) : Act τ → Option (St τ)
  | .consoleintr c =>
    let r := consoleintr c (s.cons.log (.typed c))
    some { s with cons := r.1, th := if r.2 then fun t => (s.th t).wake else s.th }
  | .consoleread t n room =>
    if s.th t = .out ∧ -2 ^ 31 ≤ n ∧ n < 2 ^ 31 then
      let target := (n % 2 ^ 32).toNat
      let s := { s with cons := s.cons.log (.began t n) }
      if 0 < n then some (readSection s t target room n.toNat 0)
      else some { s with cons := s.cons.log (.ended t (result target n)) }
    else none
  | .advance t =>
    match s.th t with
    | .read target room n dst false => some (readSection s t target room n dst)
    | _ => none
  | .kill t =>
    some { s with cons := s.cons.log (.killed t), th := update s.th t (s.th t).wake, killed := update s.killed t true }

def start : St τ := ⟨⟨fun _ => 0, 0, 0, 0, [], []⟩, fun _ => .out, fun _ => false⟩

end Xv6.Console
