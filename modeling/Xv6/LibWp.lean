import Mathlib
/-!
# LibWp — weakest preconditions for state with failure

Programs are `StateT σ (Except ε)`: they read and change a state and may stop with an error. `wp m Q F s` says that `m`,
run from `s`, either returns a value and a state satisfying `Q` or stops with an error satisfying `F`. A sequence is
verified one statement at a time: `wp_bind` opens it and `wp_mono` applies what is known of the statement.
-/
namespace Wp

variable {σ ε α β : Type}

/-- **Weakest precondition** of `m` for the outcome `Q` or an error in `F`. -/
def wp (m : StateT σ (Except ε) α) (Q : α → σ → Prop) (F : ε → Prop) (s : σ) : Prop :=
  match m.run s with
  | .ok (a, s') => Q a s'
  | .error e => F e

variable {s s' t : σ} {Q Q' : α → σ → Prop} {m' m : StateT σ (Except ε) α} {F F' : ε → Prop} {a : α} {e : ε}
  {f g : α → StateT σ (Except ε) β} {c A : Prop}

theorem wp_of_ok (h : wp m Q F s) (hm : m.run s = .ok (a, s')) : Q a s' := by
  unfold wp at h
  rw [hm] at h
  exact h

theorem wp_of_error (h : wp m Q F s) (hm : m.run s = .error e) : F e := by
  unfold wp at h
  rw [hm] at h
  exact h

theorem wp_run (h : wp m Q (fun _ => False) s) : ∃ a s', m.run s = .ok (a, s') ∧ Q a s' := by
  unfold wp at h
  split at h
  · rename_i a s' e
    exact ⟨a, s', e, h⟩
  · exact absurd h id

theorem wp_mono (h : wp m Q F s) (hQ : ∀ a s', Q a s' → Q' a s') (hF : ∀ e, F e → F' e) : wp m Q' F' s := by
  unfold wp at h ⊢
  split
  · rename_i a s' e
    rw [e] at h
    exact hQ a s' h
  · rename_i e'
    rw [e'] at h
    exact hF _ h

theorem wp_use (h : wp m Q F s) (hQ : ∀ a s', Q a s' → Q' a s') : wp m Q' F s := wp_mono h hQ (fun _ => id)

@[simp] theorem wp_pure : wp (pure a : StateT σ (Except ε) α) Q F s ↔ Q a s := Iff.rfl

@[simp] theorem wp_bind {Q : β → σ → Prop} : wp (m >>= f) Q F s ↔ wp m (fun a => wp (f a) Q F) F s := by
  unfold wp
  rw [StateT.run_bind]
  cases m.run s with
  | ok r => rfl
  | error e => rfl

theorem wp_then {Q' : β → σ → Prop} (h : wp m Q F s)
    (hf : ∀ a s', Q a s' → wp (f a) Q' F s') : wp (m >>= f) Q' F s := wp_bind.2 (wp_use h hf)

@[simp] theorem wp_map {f : α → β} {Q : β → σ → Prop} : wp (f <$> m) Q F s ↔ wp m (fun a => Q (f a)) F s := by
  unfold wp
  rw [StateT.run_map]
  cases m.run s with
  | ok r => rfl
  | error e => rfl

@[simp] theorem wp_get {Q : σ → σ → Prop} : wp (get : StateT σ (Except ε) σ) Q F s ↔ Q s s := Iff.rfl

@[simp] theorem wp_set {Q : PUnit → σ → Prop} : wp (set t : StateT σ (Except ε) PUnit) Q F s ↔ Q ⟨⟩ t := Iff.rfl

@[simp] theorem wp_modify {Q : PUnit → σ → Prop} {f : σ → σ} :
    wp (modify f : StateT σ (Except ε) PUnit) Q F s ↔ Q ⟨⟩ (f s) := Iff.rfl

@[simp] theorem wp_throw : wp (throw e : StateT σ (Except ε) α) Q F s ↔ F e := Iff.rfl

theorem wp_ite [Decidable c] (h : c → wp m Q F s) (h' : ¬ c → wp m' Q F s) : wp (if c then m else m') Q F s := by
  split
  · exact h ‹_›
  · exact h' ‹_›

theorem bind_congr_of_wp (h : wp m (fun a s' => f a s' = g a s') (fun _ => True) s) : (m >>= f) s = (m >>= g) s := by
  unfold wp StateT.run at h
  change (m s >>= fun p => f p.1 p.2) = (m s >>= fun p => g p.1 p.2)
  cases hm : m s with
  | ok r =>
    rw [hm] at h
    exact h
  | error e => rfl

theorem wp_true (m : StateT σ (Except ε) α) (hF : ∀ e, F e) (s : σ) : wp m (fun _ _ => True) F s := by
  unfold wp
  split
  · trivial
  · exact hF _

theorem wp_self (m : StateT σ (Except ε) α) (hF : ∀ e, F e) (s : σ) : wp m (fun a s' => m.run s = .ok (a, s')) F s := by
  unfold wp
  split
  · assumption
  · exact hF _

theorem wp_skip {Q : β → σ → Prop} (hF : ∀ e, F e) (h : ∀ a s', wp (f a) Q F s') : wp (m >>= f) Q F s :=
  wp_bind.2 (wp_use (wp_true m hF s) (fun a s' _ => h a s'))

theorem run_bind_congr (hm : m'.run s = m.run s) (h : wp m Q F s) (hfg : ∀ a s', Q a s' → (f a).run s' = (g a).run s') :
    (m' >>= f).run s = (m >>= g).run s := by
  rw [StateT.run_bind, StateT.run_bind, hm]
  cases hr : m.run s with
  | error e => rfl
  | ok r => exact hfg r.1 r.2 (wp_of_ok h hr)

theorem wp_and (h : wp m Q F s) (h' : wp m Q' F' s) : wp m (fun a s' => Q a s' ∧ Q' a s') F s := by
  unfold wp at h h' ⊢
  cases hm : m.run s with
  | ok r =>
    rw [hm] at h h'
    exact ⟨h, h'⟩
  | error e =>
    rw [hm] at h
    exact h

theorem wp_imp (hF : ∀ e, F e) (h : A → wp m Q F s) : wp m (fun a s' => A → Q a s') F s := by
  by_cases hA : A
  · exact wp_use (h hA) (fun _ _ hQ _ => hQ)
  · exact wp_use (wp_true m hF s) (fun _ _ _ hA' => absurd hA' hA)

theorem wp_forM {f : β → StateT σ (Except ε) PUnit} {I : List β → σ → Prop}
    (hstep : ∀ b bs s, I (b :: bs) s → wp (f b) (fun _ s' => I bs s') F s) :
    ∀ (l : List β) (s : σ), I l s → wp (l.forM f) (fun _ s' => I [] s') F s
  | [], _, h => h
  | b :: bs, s, h => by
    refine wp_bind.2 ?_
    exact wp_use (hstep b bs s h) (fun _ s' => wp_forM hstep bs s')

/-! ## What a program does to its state -/

/-- Every run of `m` relates the state before to the state after. -/
def Does (R : σ → σ → Prop) (F : ε → Prop) (m : StateT σ (Except ε) α) : Prop := ∀ s, wp m (fun _ s' => R s s') F s

section Does
variable {R R' : σ → σ → Prop} {F : ε → Prop} {m : StateT σ (Except ε) α} {f : α → StateT σ (Except ε) β}

theorem Does.mono (h : Does R F m) (hR : ∀ s s', R s s' → R' s s') : Does R' F m :=
  fun s => wp_use (h s) (fun _ => hR s)

theorem Does.pure (hr : ∀ s, R s s) (a : α) : Does R F (pure a) := hr

theorem Does.throw (he : F e) : Does R F (throw e : StateT σ (Except ε) α) := fun _ => he

theorem Does.bind (ht : ∀ a b c, R a b → R b c → R a c) (hm : Does R F m) (hf : ∀ a, Does R F (f a)) :
    Does R F (m >>= f) := by
  intro s
  rw [wp_bind]
  exact wp_use (hm s) (fun a s' h => wp_use (hf a s') (fun _ _ => ht _ _ _ h))

theorem Does.read {f : σ → StateT σ (Except ε) β} (hf : ∀ s, wp (f s) (fun _ s' => R s s') F s) :
    Does R F (get >>= f) := by
  intro s
  rw [wp_bind, wp_get]
  exact hf s

theorem Does.ite [Decidable c] (h : c → Does R F m) (h' : ¬ c → Does R F m') : Does R F (if c then m else m') :=
  fun s => wp_ite (fun hc => h hc s) (fun hc => h' hc s)

theorem Does.forM (hr : ∀ s, R s s) (ht : ∀ a b c, R a b → R b c → R a c) {g : β → StateT σ (Except ε) PUnit}
    (hg : ∀ b, Does R F (g b)) (l : List β) : Does R F (l.forM g) := by
  intro s
  exact wp_forM (I := fun _ s' => R s s') (fun b _ s1 h => wp_use (hg b s1) (fun _ _ => ht _ _ _ h)) l s (hr s)

end Does

end Wp
