import Xv6.VmStore
/-!
# VmString — `copyinstr` against `copyin`

`copyinstr` looks a page up and walks its bytes; it is the byte-by-byte function of `VmTable` (`copyinstrLoop_spec`). On pages
that are mapped it returns the string `copyin` would deliver (`copyinstr_agrees`). It never calls `vmfault`, so on a lazily
allocated page nobody has touched `copyin` delivers an empty string and `copyinstr` fails (`copyinstr_lazy`).
-/
namespace Xv6.Vm

open Function Wp

/-- The inner loop of `copyinstr`, `n` turns from the byte `o` of a page: whether it found the NUL, and what is at `dst`. -/
def copyinstrPage (k : Kmem) (pa : Nat) : Nat → Nat → List UInt8 → Bool × List UInt8
  | 0, _, dst => (false, dst)
  | n + 1, o, dst => if k.mem pa o = 0 then (true, dst ++ [0]) else copyinstrPage k pa n (o + 1) (dst ++ [k.mem pa o])

/-- The outer loop; its first argument bounds the turns. -/
def copyinstrLoop (k : Kmem) (t : Pt) : Nat → Nat → Nat → List UInt8 → Bool × List UInt8
  | 0, _, _, dst => (false, dst)
  | fuel + 1, src, max, dst =>
    if max = 0 then (false, dst)
    else
      match walkaddr t (src / 4096) with
      | none => (false, dst)
      | some pa =>
        let n := min (4096 - src % 4096) max
        match copyinstrPage k pa n (src % 4096) dst with
        | (true, dst) => (true, dst)
        | (false, dst) => copyinstrLoop k t fuel ((src / 4096 + 1) * 4096) (max - n) dst

/-- `copyinstr` with the bytes it stores. Every turn but the last stores one at least. -/
def copyinstrOut (k : Kmem) (t : Pt) (src max : Nat) : Bool × List UInt8 := copyinstrLoop k t max src max []

/-- What a user program reads at an address. -/
def userByte (k : Kmem) (t : Pt) (a : Nat) : Option UInt8 := (walkaddr t (a / 4096)).map (fun pa => k.mem pa (a % 4096))

variable {k : Kmem} {t : Pt} {pa v sz : Nat}

theorem userByte_page {o : Nat} (hpa : walkaddr t v = some pa) (ho : o < 4096) :
    userByte k t (v * 4096 + o) = some (k.mem pa o) := by
  unfold userByte
  rw [show (v * 4096 + o) / 4096 = v by omega, show (v * 4096 + o) % 4096 = o by omega, hpa]
  rfl

theorem copyinstr_succ (src m : Nat) : copyinstr k t src (m + 1) = (userByte k t src).bind
    (fun b => if b = 0 then some [] else (copyinstr k t (src + 1) m).map (b :: ·)) := by
  unfold userByte
  rw [copyinstr]
  cases walkaddr t (src / 4096) with
  | none => rfl
  | some pa => rfl

theorem copyinstrPage_spec {m : Nat} (hpa : walkaddr t v = some pa) : ∀ (n o : Nat) (dst : List UInt8), o + n ≤ 4096 →
    ∃ w, (copyinstrPage k pa n o dst).2 = dst ++ w ∧ w.length ≤ n ∧ if (copyinstrPage k pa n o dst).1 then
        ∃ s, w = s ++ [0] ∧ copyinstr k t (v * 4096 + o) (n + m) = some s
      else copyinstr k t (v * 4096 + o) (n + m) = (copyinstr k t (v * 4096 + (o + n)) m).map (w ++ ·)
  | 0, o, dst, _ => ⟨[], by simp [copyinstrPage], by simp [copyinstrPage]⟩
  | n + 1, o, dst, ho => by
    rw [show n + 1 + m = n + m + 1 by omega, copyinstr_succ, userByte_page hpa (by omega), Option.bind_some]
    unfold copyinstrPage
    by_cases h0 : k.mem pa o = 0
    · rw [if_pos h0, if_pos h0]
      exact ⟨[0], by simp⟩
    rw [if_neg h0, if_neg h0]
    obtain ⟨w, hw, hl, h⟩ := copyinstrPage_spec hpa n (o + 1) (dst ++ [k.mem pa o]) (by omega)
    rw [← add_assoc] at h
    refine ⟨k.mem pa o :: w, by rw [hw]; simp, by simpa using hl, ?_⟩
    split at h
    · obtain ⟨s, rfl, hs⟩ := h
      rw [if_pos ‹_›, hs]
      exact ⟨k.mem pa o :: s, rfl, rfl⟩
    · rw [if_neg ‹_›, h, show o + 1 + n = o + (n + 1) by omega, Option.map_map]
      rfl

/-- **The nested loop is the walk byte by byte.** -/
theorem copyinstrLoop_spec : ∀ (fuel src max : Nat) (dst : List UInt8), max ≤ fuel →
    ∃ w, copyinstrLoop k t fuel src max dst = ((copyinstr k t src max).isSome, dst ++ w) ∧ w.length ≤ max ∧
      ∀ s, copyinstr k t src max = some s → w = s ++ [0]
  | 0, src, max, dst, hm => by
    obtain rfl : max = 0 := by omega
    exact ⟨[], by simp [copyinstrLoop, copyinstr], le_rfl, nofun⟩
  | fuel + 1, src, max, dst, hm => by
    unfold copyinstrLoop
    by_cases h0 : max = 0
    · subst h0
      exact ⟨[], by simp [copyinstr], le_rfl, nofun⟩
    rw [if_neg h0]
    cases hpa : walkaddr t (src / 4096) with
    | none =>
      obtain ⟨m, rfl⟩ := Nat.exists_eq_succ_of_ne_zero h0
      have hnone : copyinstr k t src (m + 1) = none := by rw [copyinstr, hpa]
      rw [hnone]
      exact ⟨[], by simp, Nat.zero_le _, nofun⟩
    | some pa =>
      obtain ⟨n, hn⟩ : ∃ n, n = min (4096 - src % 4096) max := ⟨_, rfl⟩
      dsimp only
      rw [← hn]
      obtain ⟨w, hw, hl, h⟩ := copyinstrPage_spec hpa n (src % 4096) dst (by omega)
      rw [show src / 4096 * 4096 + src % 4096 = src by omega, show n + (max - n) = max by omega] at h
      generalize copyinstrPage k pa n (src % 4096) dst = r at hw h ⊢
      obtain ⟨g, d⟩ := r
      obtain rfl : d = dst ++ w := hw
      cases g with
      | true =>
        obtain ⟨s, rfl, hs⟩ := h
        rw [hs]
        exact ⟨s ++ [0], rfl, by omega, fun s' e => by rw [Option.some.inj e]⟩
      | false =>
        replace h : copyinstr k t src max = _ := h
        obtain ⟨w', hw', hl', hs'⟩ := copyinstrLoop_spec fuel ((src / 4096 + 1) * 4096) (max - n) (dst ++ w) (by omega)
        have hnext : copyinstr k t (src / 4096 * 4096 + (src % 4096 + n)) (max - n) =
            copyinstr k t ((src / 4096 + 1) * 4096) (max - n) := by
          by_cases hlast : n = max
          · rw [hlast, Nat.sub_self, copyinstr, copyinstr]
          · rw [show src / 4096 * 4096 + (src % 4096 + n) = (src / 4096 + 1) * 4096 by omega]
        rw [hnext] at h
        refine ⟨w ++ w', ?_, by rw [List.length_append]; omega, fun s hs => ?_⟩
        · dsimp only
          rw [hw', h, Option.isSome_map, List.append_assoc]
        · rw [h] at hs
          obtain ⟨s', e, rfl⟩ := Option.map_eq_some_iff.1 hs
          rw [hs' s' e, List.append_assoc]

/-- **The string that is read**: a NUL within `max` bytes, and before it bytes that are not. -/
theorem copyinstr_iff : ∀ (max src : Nat) (ws : List UInt8), copyinstr k t src max = some ws ↔
    ws.length < max ∧ 0 ∉ ws ∧ ∀ i ≤ ws.length, userByte k t (src + i) = (ws ++ [0])[i]?
  | 0, src, ws => by simp [copyinstr]
  | max + 1, src, ws => by
    have hall : ∀ {b ws}, (∀ i ≤ (b :: ws).length, userByte k t (src + i) = (b :: ws ++ [0])[i]?) ↔
        userByte k t src = some b ∧ ∀ i ≤ ws.length, userByte k t (src + 1 + i) = (ws ++ [0])[i]? := by
      intro b ws
      refine ⟨fun h => ⟨h 0 (Nat.zero_le _), fun i hi => ?_⟩, fun h i hi => ?_⟩
      · rw [show src + 1 + i = src + (i + 1) by omega]
        exact h (i + 1) (Nat.succ_le_succ hi)
      cases i with
      | zero => exact h.1
      | succ i =>
        rw [show src + (i + 1) = src + 1 + i by omega]
        exact h.2 i (Nat.le_of_succ_le_succ hi)
    rw [copyinstr_succ]
    cases ws with
    | nil =>
      cases hb : userByte k t src with
      | none => simp [hb]
      | some b => by_cases h0 : b = 0 <;> simp [hb, h0]
    | cons c ws =>
      rw [hall]
      cases hb : userByte k t src with
      | none => simp
      | some b =>
        by_cases h0 : b = 0
        · simp only [h0, Option.bind_some, if_true, List.mem_cons]
          refine iff_of_false (by simp) (fun h => h.2.1 (.inl (Option.some.inj h.2.2.1)))
        simp only [Option.bind_some, if_neg h0, Option.map_eq_some_iff, List.cons.injEq, copyinstr_iff max]
        constructor
        · rintro ⟨s, h, rfl, rfl⟩
          exact ⟨by simpa using h.1, by simpa [Ne.symm h0] using h.2.1, rfl, h.2.2⟩
        · rintro ⟨hl, hn, e, h⟩
          cases e
          exact ⟨ws, ⟨by simpa using hl, fun hm => hn (List.mem_cons_of_mem _ hm), h⟩, rfl, rfl⟩

variable [Link]

/-- **`copyin` of pages that are mapped.** -/
theorem copyinLoop_mapped {F : Panic → Prop} : ∀ (fuel src len : Nat) (dst : List UInt8), len ≤ fuel →
    (∀ i < len, (walkaddr t ((src + i) / 4096)).isSome) → wp (copyinLoop fuel ⟨t, none⟩ sz src len dst)
      (fun r _ => ∃ w, r.1 = some (dst ++ w) ∧ w.length = len ∧ ∀ i < len, userByte k t (src + i) = w[i]?) F k
  | 0, src, len, dst, hl, _ => ⟨[], by simp, by simp; omega, by omega⟩
  | fuel + 1, src, len, dst, hl, hm => by
    unfold copyinLoop
    apply wp_ite
    · rintro rfl
      exact ⟨[], by simp, rfl, by omega⟩
    intro h0
    obtain ⟨pa, hpa⟩ := Option.isSome_iff_exists.1 (hm 0 (by omega))
    obtain ⟨n, hn⟩ : ∃ n, n = min (4096 - src % 4096) len := ⟨_, rfl⟩
    rw [add_zero] at hpa
    rw [hpa, pure_bind, ← hn]
    simp only [wp_bind]
    have hsrc : ∀ i, n + i < len → (src / 4096 + 1) * 4096 + i = src + (n + i) := by omega
    apply wp_use (copyinLoop_mapped fuel ((src / 4096 + 1) * 4096) (len - n) _ (by omega) (fun i hi => ?_))
    · rintro r k' ⟨w, hr, hw, hb⟩
      refine ⟨(List.range n).map (fun i => k.mem pa (src % 4096 + i)) ++ w, by rw [hr, List.append_assoc], by simp; omega,
        fun i hi => ?_⟩
      by_cases hin : i < n
      · rw [List.getElem?_append_left (by simpa using hin), List.getElem?_map, List.getElem?_range hin, Option.map_some,
          ← userByte_page hpa (by omega), show src / 4096 * 4096 + (src % 4096 + i) = src + i by omega]
      · rw [List.getElem?_append_right (by simpa using hin), List.length_map, List.length_range, ← hb _ (by omega),
          hsrc _ (by omega), Nat.add_sub_of_le (by omega)]
    · rw [hsrc i (by omega)]
      exact hm _ (by omega)

/-- **`copyinstr` agrees with `copyin`**: a string `copyin` can deliver with its NUL, from pages that are all mapped, is what
it stores; it succeeds only on a string whose NUL is within `max` readable bytes; and it stores at most `max` bytes. -/
theorem copyinstr_agrees (k : Kmem) (t : Pt) (sz src max : Nat) :
    (∀ ws a k', (copyin ⟨t, none⟩ sz src (ws.length + 1)).run k = .ok ((some (ws ++ [0]), a), k') → 0 ∉ ws →
      ws.length < max → (∀ i ≤ ws.length, (walkaddr t ((src + i) / 4096)).isSome) →
      copyinstrOut k t src max = (true, ws ++ [0])) ∧
    ((copyinstrOut k t src max).1 = true → ∃ ws, ws.length < max ∧ 0 ∉ ws ∧
      (∀ i ≤ ws.length, userByte k t (src + i) = (ws ++ [0])[i]?) ∧ (copyinstrOut k t src max).2 = ws ++ [0]) ∧
    (copyinstrOut k t src max).2.length ≤ max := by
  obtain ⟨w, hw, hl, hs⟩ := copyinstrLoop_spec max src max [] le_rfl
  have hout : copyinstrOut k t src max = ((copyinstr k t src max).isSome, w) := hw
  rw [hout]
  refine ⟨fun ws a k' hrun h0 hlen hm => ?_, fun hg => ?_, hl⟩
  · obtain ⟨w', hr, -, hb⟩ := wp_of_ok (copyinLoop_mapped (F := Any) _ src _ [] le_rfl (fun i hi => hm i (by omega))) hrun
    rw [List.nil_append, Option.some.injEq] at hr
    subst hr
    have hstr := (copyinstr_iff max src ws).2 ⟨hlen, h0, fun i hi => hb i (by omega)⟩
    rw [hs ws hstr, hstr]
    rfl
  · obtain ⟨ws, hws⟩ := Option.isSome_iff_exists.1 hg
    obtain ⟨hlen, h0, hb⟩ := (copyinstr_iff max src ws).1 hws
    exact ⟨ws, hlen, h0, hb, hs ws hws⟩

omit [Link] in
/-- **A string in a page nobody has touched**: the first program grows lazily; `copyin` delivers the empty string of the new
page and `copyinstr` fails. -/
theorem copyinstr_lazy : ((Run.run (@vmStep kernelImage) (@vmBoot kernelImage)
    (.kvminit :: (toInit ++ [.sbrk initSlot 4096 true]))).bind fun s => (s.proc initSlot).pagetable.map fun t =>
      (((@copyin kernelImage ⟨t, none⟩ (s.proc initSlot).sz 8192 1).run s.k).toOption.map (fun r => r.1.1),
        copyinstrOut s.k t 8192 128)) = some (some (some [0]), false, []) := by
  rw [@run_booted kernelImage (by decide)]
  decide +kernel

/-- The first program grows by a page and stores `abc` across its start. -/
def acrossPages : List VmAct := .kvminit :: (toInit ++ [.sbrk initSlot 4096 false, .store initSlot 8190 97,
  .store initSlot 8191 98, .store initSlot 8192 99])

omit [Link] in
theorem copyinstr_agrees_across : ∃ s t, Run.run (@vmStep kernelImage) (@vmBoot kernelImage) acrossPages = some s ∧
    (s.proc initSlot).pagetable = some t ∧ copyinstrOut s.k t 8190 128 = (true, [97, 98, 99, 0]) := by
  obtain ⟨s, t, hs, ht, hm, heval⟩ := holds_of_boot acrossPages.tail (fun s t => (List.range 4).all (fun i =>
      (walkaddr t ((8190 + i) / 4096)).isSome) = true ∧ ((@copyin kernelImage ⟨t, none⟩ (s.proc initSlot).sz 8190 4).run
        s.k).toOption.map (fun r => r.1.1) = some (some [97, 98, 99, 0])) (by decide +kernel)
  cases hr : (@copyin kernelImage ⟨t, none⟩ (s.proc initSlot).sz 8190 4).run s.k with
  | error e => simp [hr, Except.toOption] at heval
  | ok r =>
    obtain ⟨⟨w, a⟩, k'⟩ := r
    obtain rfl : w = some [97, 98, 99, 0] := by simpa [hr, Except.toOption] using heval
    exact ⟨s, t, hs, ht, (@copyinstr_agrees kernelImage s.k t _ 8190 128).1 [97, 98, 99] a k' hr (by decide) (by decide)
      (fun i hi => List.all_eq_true.1 hm i (List.mem_range.2 (Nat.lt_succ_of_le hi)))⟩

end Xv6.Vm
