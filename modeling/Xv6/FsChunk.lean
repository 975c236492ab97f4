import Xv6.FsFail
/-!
# FsChunk — `filewrite` calls that share an open file

`filewrite` writes at most `writeMax` bytes in one transaction, with the inode locked and at the offset of the open file, which
it advances. Between two such chunks other calls through the same open file may write theirs (`chunkStep`). What has been
written is then one range from the first offset on, chunk after chunk, with the bytes of each call in their order.
-/
namespace Xv6.Fs

open Function List Wp

/-! ## Interleaved calls -/

/-- **A call of `filewrite`** on its way: `src` and `n` are the bytes still to come, `i` is what it has counted. -/
structure Writer where
  src : Bytes
  n : Nat
  i : Nat
  broken : Bool
  deriving DecidableEq, Repr

def Writer.Ended (w : Writer) : Prop := w.broken = true ∨ w.n = 0

instance (w : Writer) : Decidable w.Ended := inferInstanceAs (Decidable (_ ∨ _))

def Writer.ret (w : Writer) (n : Nat) : Int := if w.i = n then n else -1

def Writer.next (w : Writer) (r : Int) : Writer :=
  if r ≠ min w.n writeMax then { w with broken := true }
  else ⟨w.src.drop (min w.n writeMax), w.n - min w.n writeMax, w.i + min w.n writeMax, false⟩

/-- The calls `ι` through one open file, and what their chunks have written: the call, the offset and the bytes. -/
structure Sharing (ι : Type) where
  fs : FsState
  writer : ι → Writer
  trace : List (ι × Nat × Bytes)

variable {ι : Type} [DecidableEq ι]

/-- **One chunk of the call `j`.** -/
def chunkStep (f : Fp) (ip : Ip) (y : Sharing ι) (j : ι) : Option (Sharing ι) :=
  let w := y.writer j
  if w.Ended then none
  else
    match (writeChunk f ip w.src (min w.n writeMax)).run y.fs with
    | .error _ => none
    | .ok (r, s) => some ⟨s, update y.writer j (w.next r), y.trace ++ [(j, (y.fs.ftable f).off, w.src.take r.toNat)]⟩

def sharing (s : FsState) (call : ι → Bytes × Nat) : Sharing ι := ⟨s, fun j => ⟨(call j).1, (call j).2, 0, false⟩, []⟩

def wrote (trace : List (ι × Nat × Bytes)) : Bytes := trace.flatMap (fun e => e.2.2)

def wroteBy (j : ι) (trace : List (ι × Nat × Bytes)) : Bytes := wrote (trace.filter (fun e => e.1 = j))

theorem writeChunks_turn (f : Fp) (ip : Ip) (fuel : Nat) (w : Writer) (hw : ¬ w.Ended) :
    writeChunks f ip (fuel + 1) w.src w.n w.i = writeChunk f ip w.src (min w.n writeMax) >>= fun r =>
      if (w.next r).broken then pure (w.next r).i
      else writeChunks f ip fuel (w.next r).src (w.next r).n (w.next r).i := by
  have hn : w.n ≠ 0 := fun e => hw (.inr e)
  conv_lhs => unfold writeChunks
  rw [if_neg hn]
  dsimp only
  congr 1
  funext r
  unfold Writer.next
  split <;> rfl

/-! ## One range -/

variable {l a b c src : Bytes} {off k n t : Nat} {w : Writer}

theorem patch_append (h : off ≤ l.length) : patch (patch l off a) (off + a.length) b = patch l off (a ++ b) := by
  have htake : (patch l off a).take (off + a.length) = l.take off ++ a := by
    unfold patch
    rw [← append_assoc, take_left' (by rw [length_append, length_take]; omega)]
  have hdrop : (patch l off a).drop (off + a.length + b.length) = l.drop (off + (a ++ b).length) := by
    unfold patch
    rw [← append_assoc, drop_append, drop_of_length_le (by rw [length_append, length_take]; omega),
      nil_append, drop_drop, length_append, length_append, length_take]
    congr 1
    omega
  change (patch l off a).take (off + a.length) ++ (b ++ (patch l off a).drop (off + a.length + b.length)) = _
  rw [htake, hdrop]
  unfold patch
  rw [append_assoc, append_assoc]

theorem slice_patch (h : off ≤ l.length) : ((patch l off (a ++ (b ++ c))).drop (off + a.length)).take b.length = b := by
  have hlen : (l.take off ++ a).length = off + a.length := by
    rw [length_append, length_take]
    omega
  unfold patch
  rw [append_assoc, ← append_assoc (l.take off), drop_left' hlen, append_assoc, take_left' rfl]

omit [DecidableEq ι] in
theorem wrote_append (t t' : List (ι × Nat × Bytes)) : wrote (t ++ t') = wrote t ++ wrote t' := List.flatMap_append

theorem wroteBy_snoc (j k : ι) (t : List (ι × Nat × Bytes)) (off : Nat) (bs : Bytes) :
    wroteBy j (t ++ [(k, off, bs)]) = wroteBy j t ++ if k = j then bs else [] := by
  unfold wroteBy
  by_cases h : k = j
  · simp [wrote, h]
  · simp [h]

structure Writer.Has (w : Writer) (src : Bytes) (n k : Nat) : Prop where
  le : k ≤ n
  going : w.broken = false → w.i = k ∧ w.n = n - k ∧ w.src = src.drop k
  broke : w.broken = true → k < n ∧ w.i < n

theorem Writer.Has.next {r : Int} (h : w.Has src n k) (hw : ¬ w.Ended)
    (ht : t ≤ min w.n writeMax) (hr : r = t ∨ t = 0 ∧ r = -1) : (w.next r).Has src n (k + t) := by
  unfold Writer.Ended at hw
  rw [not_or, Bool.not_eq_true] at hw
  obtain ⟨hi, hn, hsrc⟩ := h.going hw.1
  have hpos : 0 < min w.n writeMax := by
    have : 0 < writeMax := by decide
    omega
  unfold Writer.next
  split
  · refine ⟨by omega, nofun, fun _ => ⟨by omega, ?_⟩⟩
    dsimp only
    omega
  · rename_i he
    obtain rfl : t = min w.n writeMax := by omega
    refine ⟨by omega, fun _ => ⟨by dsimp only; omega, by dsimp only; omega, ?_⟩, nofun⟩
    rw [hsrc, drop_drop]

/-- **What has happened**: the file has one range written, from the first offset on. -/
structure Shared (f : Fp) (m : Node) (s : FsState) (call : ι → Bytes × Nat) (y : Sharing ι) : Prop where
  file : FileWrote (cwds s) (uses s) f m s y.fs
  off : (y.fs.ftable f).off = (s.ftable f).off + (wrote y.trace).length
  starts : wrote y.trace = [] ∨ (s.ftable f).off ≤ m.bytes.length
  tree : tree y.fs.vol = update (tree s.vol) (s.vol.inode (s.ftable f).ip).inum
    (some { m with bytes := patch m.bytes (s.ftable f).off (wrote y.trace) })
  chunk : ∀ pre e post, y.trace = pre ++ e :: post → e.2.1 = (s.ftable f).off + (wrote pre).length
  call : ∀ j, ∃ k, wroteBy j y.trace = (call j).1.take k ∧ (y.writer j).Has (call j).1 (call j).2 k

variable {f : Fp} {m : Node} {s s' : FsState} {call : ι → Bytes × Nat} {y y' : Sharing ι}

theorem shared_start (h : Inv s) (hm : tree s.vol (s.vol.inode (s.ftable f).ip).inum = some m) :
    Shared f m s call (sharing s call) := by
  refine ⟨FileWrote.refl h hm, rfl, .inl rfl, ?_, fun pre e post he => ?_, fun j =>
    ⟨0, rfl, Nat.zero_le _, fun _ => ⟨rfl, rfl, rfl⟩, nofun⟩⟩
  · rw [show wrote (sharing s call).trace = [] from rfl, patch_nil]
    exact (update_eq_self_iff.2 hm.symm).symm
  · exact absurd he.symm (by simp [sharing])

theorem Shared.step (h : Shared f m s call y) (ht : (s.ftable f).type = .inode)
    (hsrc : ∀ j, (call j).2 ≤ (call j).1.length) (j : ι)
    (hw : ¬ (y.writer j).Ended) : ∃ y', chunkStep f (s.ftable f).ip y j = some y' ∧ Shared f m s call y' := by
  obtain ⟨o, ho⟩ := h.file.file
  have hself : y.fs.ftable f = { s.ftable f with off := o } := by rw [ho, update_self]
  have hip : (y.fs.ftable f).ip = (s.ftable f).ip := by rw [hself]
  have hinum : (y.fs.vol.inode (y.fs.ftable f).ip).inum = (s.vol.inode (s.ftable f).ip).inum := by
    rw [hip, h.file.did.inum _ (mem_ip (.inl ht))]
  have hm : Fs.tree y.fs.vol (y.fs.vol.inode (y.fs.ftable f).ip).inum =
      some { m with bytes := patch m.bytes (s.ftable f).off (wrote y.trace) } := by
    rw [hinum, h.tree, update_self]
  have hty : (y.fs.ftable f).type = .inode := by rw [hself]; exact ht
  have hspec : wp (writeChunk f (y.fs.ftable f).ip (y.writer j).src (min (y.writer j).n writeMax)) _ (fun _ => False) y.fs :=
    writeChunk_spec h.file.res hty (min_le_right _ _) hm
  obtain ⟨r, s', hrun, hfile, hwrote⟩ := wp_run hspec
  obtain ⟨k, hby, hhas⟩ := h.call j
  have hgoing : (y.writer j).broken = false := Bool.not_eq_true _ ▸ fun e => hw (.inl e)
  obtain ⟨-, hn, hsrc'⟩ := hhas.going hgoing
  have hlen : (y.writer j).n ≤ (y.writer j).src.length := by
    have := hsrc j
    rw [hn, hsrc', length_drop]
    omega
  obtain ⟨t, hc⟩ := hwrote (by omega)
  have htake : (y.writer j).src.take r.toNat = (y.writer j).src.take t := by
    rcases hc.ret with e | ⟨rfl, e⟩
    · rw [e, Int.toNat_natCast]
    · rw [e]
      rfl
  have htl : ((y.writer j).src.take t).length = t := by
    have := hc.le
    rw [length_take]
    omega
  have hwr : wrote (y.trace ++ [(j, (y.fs.ftable f).off, (y.writer j).src.take t)]) =
      wrote y.trace ++ (y.writer j).src.take t := by
    simp [wrote]
  have hstarts : (y.writer j).src.take t = [] ∨ (s.ftable f).off ≤ m.bytes.length := by
    rcases hc.starts with rfl | hle
    · exact .inl (take_zero)
    · rcases h.starts with h0 | hs
      · rw [h.off, h0, patch_nil] at hle
        exact .inr (by simpa using hle)
      · exact .inr hs
  refine ⟨⟨s', update y.writer j ((y.writer j).next r), y.trace ++ [(j, (y.fs.ftable f).off, (y.writer j).src.take t)]⟩, ?_,
    h.file.trans hfile ht rfl, ?_, ?_, ?_, fun pre e post he => ?_, fun i => ?_⟩
  · unfold chunkStep
    rw [if_neg hw, ← hip, hrun, ← htake]
  · rw [hwr, length_append, htl, hc.off, h.off, add_assoc]
  · rw [hwr]
    rcases hstarts with h0 | hs
    · rw [h0, append_nil]
      exact h.starts
    · exact .inr hs
  · rw [hwr, hc.tree, hinum, h.tree, update_idem, h.off]
    rcases hstarts with h0 | hs
    · rw [h0, patch_nil, append_nil]
    · rw [patch_append hs]
  · rcases eq_nil_or_concat post with rfl | ⟨post, last, rfl⟩
    · obtain ⟨rfl, hlast⟩ := append_inj' he rfl
      rw [← (cons.inj hlast).1]
      exact h.off
    · refine h.chunk pre e post ?_
      rw [concat_eq_append, ← cons_append, ← append_assoc] at he
      exact append_inj_left' he rfl
  · dsimp only
    by_cases e : i = j
    · subst e
      refine ⟨k + t, ?_, ?_⟩
      · rw [wroteBy_snoc, if_pos rfl, hby, hsrc', take_add]
      · rw [update_self]
        exact hhas.next hw hc.le hc.ret
    · obtain ⟨k', hby', hhas'⟩ := h.call i
      refine ⟨k', ?_, ?_⟩
      · rw [wroteBy_snoc, if_neg (Ne.symm e), append_nil, hby']
      · rw [update_of_ne e]
        exact hhas'

theorem Shared.run (ht : (s.ftable f).type = .inode) (hsrc : ∀ j, (call j).2 ≤ (call j).1.length) :
    ∀ (js : List ι) {y y' : Sharing ι}, Shared f m s call y → Run.run (chunkStep f (s.ftable f).ip) y js = some y' →
      Shared f m s call y'
  | [], y, y', h, hr => by
    cases hr
    exact h
  | j :: js, y, y', h, hr => by
    obtain ⟨y1, hs, hr⟩ := Option.bind_eq_some_iff.1 hr
    have hw : ¬ (y.writer j).Ended := fun hw => by
      unfold chunkStep at hs
      rw [if_pos hw] at hs
      cases hs
    obtain ⟨y2, hs', h2⟩ := h.step ht hsrc j hw
    rw [hs] at hs'
    cases hs'
    exact Shared.run ht hsrc js h2 hr

theorem writeChunks_run (f : Fp) (ip : Ip) : ∀ (fuel : Nat) (y : Sharing Unit) (i : Nat) (s' : FsState),
    (y.writer ()).n ≤ fuel → (y.writer ()).broken = false →
    (writeChunks f ip fuel (y.writer ()).src (y.writer ()).n (y.writer ()).i).run y.fs = .ok (i, s') →
    ∃ js y', Run.run (chunkStep f ip) y js = some y' ∧ y'.fs = s' ∧ (y'.writer ()).Ended ∧ (y'.writer ()).i = i
  | 0, y, i, s', hn, hb, hr => by
    cases hr
    exact ⟨[], y, rfl, rfl, .inr (Nat.le_zero.1 hn), rfl⟩
  | fuel + 1, y, i, s', hn, hb, hr => by
    by_cases hw : (y.writer ()).Ended
    · have h0 : (y.writer ()).n = 0 := hw.resolve_left (by rw [hb]; exact nofun)
      unfold writeChunks at hr
      rw [if_pos h0] at hr
      cases hr
      exact ⟨[], y, rfl, rfl, hw, rfl⟩
    rw [writeChunks_turn f ip fuel _ hw, StateT.run_bind] at hr
    cases hc : (writeChunk f ip (y.writer ()).src (min (y.writer ()).n writeMax)).run y.fs with
    | error e =>
      rw [hc] at hr
      cases hr
    | ok x =>
      obtain ⟨r, s1⟩ := x
      rw [hc] at hr
      obtain ⟨y1, hs, hfs, hwr⟩ : ∃ y1, chunkStep f ip y () = some y1 ∧ y1.fs = s1 ∧ y1.writer () = (y.writer ()).next r := by
        refine ⟨⟨s1, update y.writer () ((y.writer ()).next r),
          y.trace ++ [((), (y.fs.ftable f).off, (y.writer ()).src.take r.toNat)]⟩, ?_, rfl, by simp⟩
        unfold chunkStep
        rw [if_neg hw, hc]
      have hrun : ∀ js, Run.run (chunkStep f ip) y (() :: js) = Run.run (chunkStep f ip) y1 js := fun js => by
        rw [Run.run_cons, hs, Option.bind_some]
      change ((if ((y.writer ()).next r).broken then pure ((y.writer ()).next r).i else _ : SM Nat).run s1) = _ at hr
      rw [← hwr] at hr
      split at hr
      · rename_i hbr
        cases hr
        exact ⟨[()], y1, hrun [], hfs, .inl hbr, rfl⟩
      rename_i hbr
      rw [Bool.not_eq_true] at hbr
      rw [← hfs] at hr
      have hless : (y1.writer ()).n ≤ fuel := by
        have hpos : 0 < writeMax := by decide
        rw [hwr] at hbr ⊢
        unfold Writer.next at hbr ⊢
        split at hbr
        · cases hbr
        · rw [if_neg ‹_›]
          dsimp only
          omega
      obtain ⟨js, y', hrun', h'⟩ := writeChunks_run f ip fuel y1 i s' hless hbr hr
      exact ⟨() :: js, y', (hrun js).trans hrun', h'⟩

omit [DecidableEq ι] in
theorem wroteBy_unit (trace : List (Unit × Nat × Bytes)) : wroteBy () trace = wrote trace := by
  unfold wroteBy
  simp

/-- **What `k` bytes of its source a call has written when it has ended.** -/
structure Writer.Returned (w : Writer) (src written : Bytes) (n : Nat) : Prop where
  order : ∃ k ≤ n, written = src.take k
  ret : w.ret n = n ∧ written = src.take n ∨ w.ret n = -1 ∧ written.length < n

theorem Writer.Has.returned (h : w.Has src n k) (hsrc : n ≤ src.length) (hw : w.Ended) :
    w.Returned src (src.take k) n := by
  have hle := h.le
  refine ⟨⟨k, hle, rfl⟩, ?_⟩
  unfold Writer.ret
  cases hb : w.broken with
  | true =>
    obtain ⟨hk, hi⟩ := h.broke hb
    rw [if_neg (by omega), length_take]
    exact .inr ⟨rfl, by omega⟩
  | false =>
    obtain ⟨hi, hn, -⟩ := h.going hb
    have h0 : w.n = 0 := hw.resolve_left (by rw [hb]; exact nofun)
    obtain rfl : k = n := by omega
    rw [if_pos hi]
    exact .inl ⟨rfl, rfl⟩

theorem filewrite_alone {answer : Int} (h : Inv s) (ht : (s.ftable f).type = .inode)
    (hm : tree s.vol (s.vol.inode (s.ftable f).ip).inum = some m) (hn : n ≤ src.length) (hw : (s.ftable f).writable = true)
    (hr : (filewrite f src n answer).run s = .ok ((n : Int), s')) :
    tree s'.vol = update (tree s.vol) (s.vol.inode (s.ftable f).ip).inum
      (some { m with bytes := patch m.bytes (s.ftable f).off (src.take n) }) := by
  have hspec : wp (filewrite f src n answer) (fun r s' => r = n →
      (writeChunks f (s.ftable f).ip n src n 0).run s = .ok (n, s')) (fun _ => True) s := by
    unfold filewrite
    rw [wp_bind, wp_get]
    rw [if_neg (by rw [hw]; exact nofun), ht]
    rw [wp_bind, Int.toNat_natCast]
    apply wp_use (wp_self _ (fun _ => trivial) _)
    intro i s1 hrun hret
    split at hret
    · rename_i hi
      rw [hrun, Int.ofNat.inj hi]
    · omega
  obtain ⟨js, y, hrun, hfs, hend, hi⟩ := writeChunks_run f (s.ftable f).ip n (sharing s fun _ => (src, n)) n s' (le_refl n) rfl
    (wp_of_ok hspec hr rfl)
  have hy := Shared.run ht (fun _ => hn) js (shared_start h hm) hrun
  obtain ⟨k, hby, hhas⟩ := hy.call ()
  have hgoing : (y.writer ()).broken = false := by
    rw [← Bool.not_eq_true]
    intro hb
    have := (hhas.broke hb).2
    omega
  obtain rfl : k = n := (hhas.going hgoing).1.symm.trans hi
  rw [wroteBy_unit] at hby
  have htree := hy.tree
  rwa [hby, hfs] at htree

/-- **Chunked writes**: whatever calls share the open file and in whatever order their chunks come, the chunks are written
one after the other from the first offset on, the file holds them, the offset is at their end, and a call that has ended
returns `n` if all its bytes were written and -1 if not. No chunk panics. A call that runs alone and returns `n` has written
the `n` bytes at the offset, and leaves the contents that one `writei` of them leaves. -/
theorem chunked_writes {ι : Type} [DecidableEq ι] {f : Fp} {s : FsState} (call : ι → Bytes × Nat) (h : Inv s)
    (ht : (s.ftable f).type = .inode) (hsrc : ∀ j, (call j).2 ≤ (call j).1.length) :
    (∀ js y, Run.run (chunkStep f (s.ftable f).ip) (sharing s call) js = some y →
      (∀ pre e post, y.trace = pre ++ e :: post → e.2.1 = (s.ftable f).off + (wrote pre).length) ∧
      (∃ m, tree s.vol (s.vol.inode (s.ftable f).ip).inum = some m ∧
        tree y.fs.vol = update (tree s.vol) (s.vol.inode (s.ftable f).ip).inum
          (some { m with bytes := patch m.bytes (s.ftable f).off (wrote y.trace) }) ∧
        ∀ e ∈ y.trace, (((patch m.bytes (s.ftable f).off (wrote y.trace)).drop e.2.1).take e.2.2.length) = e.2.2) ∧
      (y.fs.ftable f).off = (s.ftable f).off + (wrote y.trace).length ∧
      (∀ j, ∃ k ≤ (call j).2, wroteBy j y.trace = (call j).1.take k) ∧
      ∀ j, ((y.writer j).Ended → (y.writer j).Returned (call j).1 (wroteBy j y.trace) (call j).2) ∧
        (¬ (y.writer j).Ended → chunkStep f (s.ftable f).ip y j ≠ none)) ∧
    ∀ (src : Bytes) (n : Nat) (answer : Int) (s' : FsState), n ≤ src.length → n < 2 ^ 31 → (s.ftable f).writable = true →
      (filewrite f src n answer).run s = .ok ((n : Int), s') →
      (∃ m, tree s.vol (s.vol.inode (s.ftable f).ip).inum = some m ∧
        tree s'.vol = update (tree s.vol) (s.vol.inode (s.ftable f).ip).inum
          (some { m with bytes := patch m.bytes (s.ftable f).off (src.take n) })) ∧
      ∀ v v', (ilock (s.ftable f).ip).run (began s.vol) = .ok ((), v) →
        (writei (s.ftable f).ip src (s.ftable f).off n).run v = .ok ((n : Int), v') → tree s'.vol = tree v' := by
  obtain ⟨hv, -⟩ := h.opened f (.inl ht)
  have hm := h.mid.node (mem_ip (.inl ht)) hv
  constructor
  · intro js y hr
    have hy := Shared.run ht hsrc js (shared_start h hm) hr
    refine ⟨hy.chunk, ⟨_, hm, hy.tree, fun e he => ?_⟩, hy.off, fun j => ?_, fun j => ⟨fun hw => ?_, fun hw hnone => ?_⟩⟩
    · obtain ⟨pre, post, htr⟩ := append_of_mem he
      have hwr : wrote y.trace = wrote pre ++ (e.2.2 ++ wrote post) := by
        rw [htr, wrote_append]
        rfl
      rw [hy.chunk pre e post htr]
      rcases hy.starts with h0 | hle
      · rw [hwr, append_eq_nil_iff, append_eq_nil_iff] at h0
        rw [h0.2.1]
        exact take_zero
      · rw [hwr, slice_patch hle]
    · obtain ⟨k, hby, hhas⟩ := hy.call j
      exact ⟨k, hhas.le, hby⟩
    · obtain ⟨k, hby, hhas⟩ := hy.call j
      rw [hby]
      exact hhas.returned (hsrc j) hw
    · obtain ⟨y', hs, -⟩ := hy.step ht hsrc j hw
      rw [hs] at hnone
      cases hnone
  · intro src n answer s' hn hint hwr hr
    have halone := filewrite_alone h ht hm hn hwr hr
    refine ⟨⟨_, hm, halone⟩, fun v v' hlock hwrite => ?_⟩
    have hmem : (s.ftable f).ip ∈ cwds s + fileIps s.ftable := mem_ip (.inl ht)
    obtain ⟨-, h1, hq1, hst1, hnode⟩ := wp_of_ok (ilock_node (F := fun _ => True) (began_mid h.mid) hmem
      (.inl not_mem_nil) (.inl trivial)) hlock
    have hnode1 : nodeAt v (s.ftable f).ip = nodeAt s.vol (s.ftable f).ip := by
      have hnode' : tree s.vol (s.vol.inode (s.ftable f).ip).inum = some (nodeAt v (s.ftable f).ip) := hnode
      rw [hm] at hnode'
      exact (Option.some.inj hnode').symm
    have hi1 : (v.inode (s.ftable f).ip).inum = (s.vol.inode (s.ftable f).ip).inum := hst1.inum _ hmem
    obtain ⟨-, -, -, ⟨hneg, -⟩ | ⟨t, done, hret, -, -, hts, hall, hoff, htree⟩⟩ := wp_of_ok
      (writei_spec (F := fun _ => True) h1 mem_cons_self (by omega)) hwrite
    · omega
    obtain ⟨rfl, -⟩ := hall hn
    obtain rfl : n = t := Int.ofNat.inj hret
    have hwritten : written (nodeAt s.vol (s.ftable f).ip) src (s.ftable f).off n n =
        { nodeAt s.vol (s.ftable f).ip with
          bytes := patch (nodeAt s.vol (s.ftable f).ip).bytes (s.ftable f).off (src.take n) } := by
      rw [← written_bytes (hnode1 ▸ hoff) hts]
      rfl
    rw [halone, htree, hi1, hnode1, hwritten]
    exact congrArg (fun t => update t _ _) hq1.tree.symm

/-- Two calls through one open file. -/
theorem chunked_writes_two : ∃ (s : FsState) (y : Sharing Bool),
    Run.run fsStep (start rootImage) [(initSlot, .open (some [102]) 0x202)] = some s ∧
    Run.run (chunkStep 0 (s.ftable 0).ip) (sharing s fun j => if j then ([97, 98], 2) else ([99], 1)) [true, false] = some y ∧
    (y.fs.ftable 0).off = (s.ftable 0).off + (wrote y.trace).length := by
  obtain ⟨s, x, hs, hx, hp, hty, hr⟩ := holds_of_eval rootImage [(initSlot, .open (some [102]) 0x202)] initSlot
    (fun s x => s.panic = none ∧ (s.ftable 0).type = .inode ∧ (Run.run (chunkStep 0 (s.ftable 0).ip)
      (sharing s fun j : Bool => if j then ([97, 98], 2) else ([99], 1)) [true, false]).isSome = true) (by decide +kernel)
  obtain ⟨y, hy⟩ := Option.isSome_iff_exists.1 hr
  have hinv := reached_inv rootImage_consistent hs hp
  exact ⟨s, y, hs, hy, ((chunked_writes _ hinv hty (by decide)).1 _ y hy).2.2.1⟩

end Xv6.Fs
