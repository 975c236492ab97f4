import Mathlib
/-!
# Printf — `printint` of the kernel and of the user library

Both write digits into a buffer of 20 bytes, the last one first, and send it backwards. They print the one canonical numeral of
the value, the kernel in small letters and the library in capital ones (`printint_canonical`).
-/
namespace Xv6.Printf

open List

/-- The loop that fills `buf`; its first argument bounds the turns. -/
def digitLoop (digits : List Char) (base : Nat) : Nat → Nat → List Char → List Char
  | 0, _, buf => buf
  | fuel + 1, x, buf =>
    let buf := buf ++ [digits.getD (x % base) ' ']
    if x / base = 0 then buf else digitLoop digits base fuel (x / base) buf

def filled (digits : List Char) (base : Nat) (x : BitVec 64) (neg : Bool) : List Char :=
  let buf := digitLoop digits base 64 x.toNat []
  if neg then buf ++ ['-'] else buf

def kernelDigits : List Char := "0123456789abcdef".toList

def userDigits : List Char := "0123456789ABCDEF".toList

/-- The kernel's `printint`, which takes `sign = (xx < 0)` for the sign. -/
def kernelPrintint (xx : BitVec 64) (base : Nat) (sign : Bool) : List Char :=
  let sign := sign && decide (xx.toInt < 0)
  (filled kernelDigits base (if sign then -xx else xx) sign).reverse

def userPrintint (xx : BitVec 64) (base : Nat) (sgn : Bool) : List Char :=
  (if sgn ∧ xx.toInt < 0 then filled userDigits base (-xx) true else filled userDigits base xx false).reverse

def digitVal (c : Char) : Nat := kernelDigits.idxOf c.toLower

def value (base : Nat) (ds : List Char) : Nat := ds.foldl (fun n c => n * base + digitVal c) 0

/-- The value of a numeral, in letters of either case. -/
def parse (base : Nat) : List Char → Int
  | '-' :: ds => -value base ds
  | ds => value base ds

/-- The numeral of `x`: at least one digit, digits of the base only, and no zero in front. -/
structure Canonical (base x : Nat) (ds : List Char) : Prop where
  val : value base ds = x
  nonempty : ds ≠ []
  digit : ∀ c ∈ ds, digitVal c < base
  lead : ds.head? = some '0' → ds = ['0']

/-- A table of digits, in letters of one case. -/
def Table (digits : List Char) : Prop := ∀ d < 16, digitVal (digits.getD d ' ') = d

variable {digits : List Char} {base : Nat}

theorem digitLoop_spec (ht : Table digits) (hb : 2 ≤ base) (h16 : base ≤ 16) : ∀ (fuel x : Nat) (buf : List Char),
    x < base ^ (fuel + 1) → ∃ ds, digitLoop digits base (fuel + 1) x buf = buf ++ ds.reverse ∧ Canonical base x ds ∧
      ∀ n, x < base ^ (n + 1) → ds.length ≤ n + 1
  | fuel, x, buf, hx => by
    have hmod : x % base < base := Nat.mod_lt _ (by omega)
    have hval := ht (x % base) (lt_of_lt_of_le hmod h16)
    have hdigit := hval.trans_lt hmod
    unfold digitLoop
    generalize digits.getD (x % base) ' ' = c at hval hdigit ⊢
    by_cases hlt : x / base = 0
    · have hx : x < base := (Nat.div_eq_zero_iff_lt (by omega)).1 hlt
      rw [Nat.mod_eq_of_lt hx] at hval
      exact ⟨[c], by simp [hlt], ⟨by simpa [value] using hval, by simp, by simpa using hdigit, by simp⟩, by simp⟩
    · cases fuel with
      | zero => exact absurd (Nat.div_eq_of_lt (by simpa using hx)) hlt
      | succ fuel =>
        obtain ⟨ds, hds, hcan, hlen⟩ := digitLoop_spec ht hb h16 fuel (x / base) (buf ++ [c])
          (Nat.div_lt_of_lt_mul (by rwa [← pow_succ']))
        refine ⟨ds ++ [c], by simp [hlt, hds], ⟨?_, by simp, fun c' hc => ?_, fun h => ?_⟩, fun n hn => ?_⟩
        · have hv := hcan.val
          unfold value at hv ⊢
          rw [foldl_append, hv, foldl_cons, foldl_nil, hval, Nat.div_add_mod']
        · rcases mem_append.1 hc with hc | hc
          · exact hcan.digit c' hc
          · rwa [mem_singleton.1 hc]
        · rw [head?_append, Option.or_of_isSome (by simpa using hcan.nonempty)] at h
          refine absurd ?_ hlt
          simp [← hcan.val, hcan.lead h, value, show digitVal '0' = 0 by decide]
        · cases n with
          | zero => exact absurd (Nat.div_eq_of_lt (by simpa using hn)) hlt
          | succ n => simpa using hlen n (Nat.div_lt_of_lt_mul (by rwa [← pow_succ']))

theorem digitLoop_upper (h16 : base ≤ 16) (h0 : 0 < base) : ∀ (fuel x : Nat) (buf : List Char),
    digitLoop userDigits base fuel x (buf.map Char.toUpper) = (digitLoop kernelDigits base fuel x buf).map Char.toUpper
  | 0, _, _ => rfl
  | fuel + 1, x, buf => by
    have hd : ∀ d < 16, userDigits.getD d ' ' = (kernelDigits.getD d ' ').toUpper := by decide
    have hbuf : buf.map Char.toUpper ++ [userDigits.getD (x % base) ' '] =
        (buf ++ [kernelDigits.getD (x % base) ' ']).map Char.toUpper := by
      rw [hd _ (lt_of_lt_of_le (Nat.mod_lt _ h0) h16), map_append, map_singleton]
    unfold digitLoop
    dsimp only
    rw [hbuf, digitLoop_upper h16 h0 fuel]
    split <;> rfl

theorem magnitude (xx : BitVec 64) (h : xx.toInt < 0) : ((-xx).toNat : Int) = -xx.toInt ∧ (-xx).toNat < 10 ^ 19 := by
  have := xx.isLt
  rw [BitVec.toNat_neg]
  rw [BitVec.toInt_eq_toNat_cond] at h ⊢
  split at h <;> rw [if_neg (by omega)] <;> omega

theorem sent_spec (ht : Table digits) (hb : 10 ≤ base) (h16 : base ≤ 16) (xx : BitVec 64) (sign : Bool) {out : List Char}
    (hout : out = (if sign ∧ xx.toInt < 0 then filled digits base (-xx) true else filled digits base xx false).reverse) :
    (∃ x ds, Canonical base x ds ∧ out = if sign ∧ xx.toInt < 0 then '-' :: ds else ds) ∧
      parse base out = (if sign then xx.toInt else xx.toNat) ∧ out.length ≤ 20 := by
  have hloop : ∀ x : BitVec 64, ∃ ds, digitLoop digits base 64 x.toNat [] = ds.reverse ∧ Canonical base x.toNat ds ∧
      ∀ n, x.toNat < 10 ^ (n + 1) → ds.length ≤ n + 1 := fun x => by
    obtain ⟨ds, hds, hcan, hlen⟩ := digitLoop_spec ht (by omega) h16 63 x.toNat []
      (lt_of_lt_of_le x.isLt (Nat.pow_le_pow_left (by omega) 64))
    exact ⟨ds, hds, hcan, fun n hn => hlen n (lt_of_lt_of_le hn (Nat.pow_le_pow_left hb _))⟩
  unfold filled at hout
  subst hout
  by_cases hneg : sign = true ∧ xx.toInt < 0
  · obtain ⟨ds, hds, hcan, hlen⟩ := hloop (-xx)
    obtain ⟨hv, hmax⟩ := magnitude xx hneg.2
    rw [if_pos hneg, if_pos hneg.1, hds]
    simp only [if_true, reverse_append, reverse_reverse, reverse_singleton, singleton_append]
    refine ⟨⟨_, ds, hcan, by rw [if_pos hneg]⟩, ?_, Nat.succ_le_succ (hlen 18 hmax)⟩
    rw [parse, hcan.val, hv, neg_neg]
  · obtain ⟨ds, hds, hcan, hlen⟩ := hloop xx
    rw [if_neg hneg, hds]
    simp only [Bool.false_eq_true, if_false, reverse_reverse]
    refine ⟨⟨_, ds, hcan, by rw [if_neg hneg]⟩, ?_, hlen 19 (by have := xx.isLt; omega)⟩
    have hp : parse base ds = value base ds := by
      unfold parse
      split
      · have hminus : digitVal '-' = 16 := by decide
        have := hcan.digit '-' mem_cons_self
        omega
      · rfl
    rw [hp, hcan.val]
    cases sign with
    | false => rfl
    | true =>
      rw [BitVec.toInt_eq_toNat_cond] at hneg ⊢
      have := xx.isLt
      split at hneg <;> simp_all

/-- **`printint` of the kernel and of the library print one numeral**, up to the case of letters: canonical, with a minus for a
negative value if a sign is asked for; it is read back as the value, and the buffer of 20 bytes holds it. -/
theorem printint_canonical (xx : BitVec 64) {base : Nat} (hbase : base = 10 ∨ base = 16) (sign : Bool) :
    (∃ x ds, Canonical base x ds ∧ kernelPrintint xx base sign = if sign ∧ xx.toInt < 0 then '-' :: ds else ds) ∧
    userPrintint xx base sign = (kernelPrintint xx base sign).map Char.toUpper ∧
    parse base (kernelPrintint xx base sign) = (if sign then xx.toInt else xx.toNat) ∧
    parse base (userPrintint xx base sign) = (if sign then xx.toInt else xx.toNat) ∧
    (kernelPrintint xx base sign).length ≤ 20 ∧ (userPrintint xx base sign).length ≤ 20 := by
  have hk : kernelPrintint xx base sign = (if sign ∧ xx.toInt < 0 then filled kernelDigits base (-xx) true
      else filled kernelDigits base xx false).reverse := by
    unfold kernelPrintint
    cases sign <;> by_cases h : xx.toInt < 0 <;> simp [h]
  obtain ⟨hcan, hpk, hlk⟩ := sent_spec (by unfold Table; decide) (by omega) (by omega) xx sign hk
  have hu : userPrintint xx base sign = (if sign ∧ xx.toInt < 0 then filled userDigits base (-xx) true
      else filled userDigits base xx false).reverse := by rw [userPrintint]
  obtain ⟨-, hpu, hlu⟩ := sent_spec (by unfold Table; decide) (by omega) (by omega) xx sign hu
  refine ⟨hcan, ?_, hpk, hpu, hlk, hlu⟩
  have hup : ∀ x neg, filled userDigits base x neg = (filled kernelDigits base x neg).map Char.toUpper := fun x neg => by
    have hloop := digitLoop_upper (by omega : base ≤ 16) (by omega) 64 x.toNat []
    rw [map_nil] at hloop
    unfold filled
    rw [hloop]
    cases neg <;> simp
  rw [hk, userPrintint, hup, hup, map_reverse]
  split <;> rfl

theorem printint_canonical_least :
    parse 10 (kernelPrintint (BitVec.ofInt 64 (-2 ^ 63)) 10 true) = (BitVec.ofInt 64 (-2 ^ 63)).toInt :=
  (printint_canonical _ (.inl rfl) _).2.2.1

end Xv6.Printf
