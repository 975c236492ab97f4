import Mathlib
/-!
# LibRun — runs of a partial step function

A system is a step function `step : σ → α → Option σ`; `none` is an action the state does not allow. A run is a list
of actions folded through it. `allSteps` reads a condition at every step of a run, `allStates` a property in every
state the run passes through. The induction is packaged once: what the start satisfies and every step meeting the
condition keeps, every state of the run satisfies.
-/
namespace Run

open List Option
variable {σ α : Type}

/-- The state a list of actions leads to, `none` when one of them is not allowed where it is taken. -/
def run (step : σ → α → Option σ) (s : σ) (as : List α) : Option σ := as.foldlM step s

/-- **Every step of the run meets `ok`**, read at the state the step is taken in. -/
def allSteps (step : σ → α → Option σ) (ok : σ → α → Prop) : σ → List α → Prop
  | _, [] => True
  | s, a :: as => ok s a ∧ (match step s a with | none => True | some s' => allSteps step ok s' as)

/-- **Every state the run passes through satisfies `P`**, its first and its last included. -/
def allStates (step : σ → α → Option σ) (P : σ → Prop) : σ → List α → Prop
  | s, [] => P s
  | s, a :: as => P s ∧ (match step s a with | none => True | some s' => allStates step P s' as)

def decAllSteps (step : σ → α → Option σ) (ok : σ → α → Prop) (d : ∀ s a, Decidable (ok s a)) :
    ∀ (s : σ) (as : List α), Decidable (allSteps step ok s as)
  | _, [] => isTrue trivial
  | s, a :: as =>
    match d s a with
    | isFalse h => isFalse (fun hh => h hh.1)
    | isTrue h =>
      match hs : step s a with
      | none => isTrue ⟨h, by simp only [hs]⟩
      | some s' =>
        match decAllSteps step ok d s' as with
        | isTrue h' => isTrue ⟨h, by simp only [hs]; exact h'⟩
        | isFalse h' => isFalse (fun hh => h' (by have := hh.2; simp only [hs] at this; exact this))

def decAllStates (step : σ → α → Option σ) (P : σ → Prop) (d : ∀ s, Decidable (P s)) :
    ∀ (s : σ) (as : List α), Decidable (allStates step P s as)
  | s, [] => d s
  | s, a :: as =>
    match d s with
    | isFalse h => isFalse (fun hh => h hh.1)
    | isTrue h =>
      match hs : step s a with
      | none => isTrue ⟨h, by simp only [hs]⟩
      | some s' =>
        match decAllStates step P d s' as with
        | isTrue h' => isTrue ⟨h, by simp only [hs]; exact h'⟩
        | isFalse h' => isFalse (fun hh => h' (by have := hh.2; simp only [hs] at this; exact this))

instance (step : σ → α → Option σ) (P : σ → Prop) [d : ∀ s, Decidable (P s)] (s : σ) (as : List α) :
    Decidable (allStates step P s as) := decAllStates step P d s as

instance (step : σ → α → Option σ) (ok : σ → α → Prop) [d : ∀ s a, Decidable (ok s a)] (s : σ) (as : List α) :
    Decidable (allSteps step ok s as) := decAllSteps step ok d s as

variable {step : σ → α → Option σ} {ok : σ → α → Prop} {P I Q : σ → Prop} {s s' : σ} {a : α} {as bs : List α}
  {ok' : σ → α → Prop}

theorem run_cons (step : σ → α → Option σ) (s : σ) (a : α) (as : List α) :
    run step s (a :: as) = (step s a).bind (fun s' => run step s' as) := by simp [run, foldlM_cons, bind_eq_bind]

theorem run_append {t : σ} (h : run step s as = some t) : run step s (as ++ bs) = run step t bs := by
  unfold run at h ⊢
  rw [foldlM_append, h]
  rfl

theorem run_concat {t u : σ} (h : run step s as = some t) (ha : step t a = some u) : run step s (as ++ [a]) = some u := by
  rw [run_append h, run_cons, ha]
  rfl

theorem allSteps_of_some (h : allSteps step ok s (a :: as)) (hs : step s a = some s') : allSteps step ok s' as := by
  have := h.2
  simp only [hs] at this
  exact this

theorem allStates_of_some (h : allStates step P s (a :: as)) (hs : step s a = some s') : allStates step P s' as := by
  have := h.2
  simp only [hs] at this
  exact this

theorem allStates_head (h : allStates step P s as) : P s := by
  cases as with
  | nil => exact h
  | cons a as => exact h.1

theorem allStates_last : ∀ (as : List α) (s t : σ), allStates step P s as → run step s as = some t → P t
  | [], s, t, h, hr => by
    cases hr
    exact h
  | a :: as, s, t, h, hr => by
    rw [run_cons] at hr
    obtain ⟨s', hs', hr'⟩ := bind_eq_some_iff.1 hr
    exact allStates_last as s' t (allStates_of_some h hs') hr'

theorem allStates_drop :
    ∀ (as : List α) (s t : σ), allStates step P s (as ++ bs) → run step s as = some t → allStates step P t bs
  | [], s, t, h, hr => by
    cases hr
    exact h
  | a :: as, s, t, h, hr => by
    rw [run_cons] at hr
    obtain ⟨s', hs, hr⟩ := bind_eq_some_iff.1 hr
    exact allStates_drop as s' t (allStates_of_some h hs) hr

theorem allStates_mono (hPQ : ∀ s, P s → Q s) : ∀ (as : List α) (s : σ), allStates step P s as → allStates step Q s as
  | [], s, h => hPQ s h
  | a :: as, s, h => by
    refine ⟨hPQ s h.1, ?_⟩
    cases hs : step s a with
    | none => trivial
    | some s' => exact allStates_mono hPQ as s' (allStates_of_some h hs)

theorem allSteps_mono (h : ∀ s a, ok s a → ok' s a) :
    ∀ (as : List α) (s : σ), allSteps step ok s as → allSteps step ok' s as
  | [], _, _ => trivial
  | a :: as, s, hok => by
    refine ⟨h s a hok.1, ?_⟩
    cases hs : step s a with
    | none => trivial
    | some s' => exact allSteps_mono h as s' (allSteps_of_some hok hs)

theorem allSteps_of_forall {ok : α → Prop} :
    ∀ (as : List α) (s : σ), (∀ a ∈ as, ok a) → allSteps step (fun _ a => ok a) s as
  | [], _, _ => trivial
  | a :: as, s, h => by
    refine ⟨h a mem_cons_self, ?_⟩
    cases step s a with
    | none => trivial
    | some s' => exact allSteps_of_forall as s' (fun b hb => h b (mem_cons_of_mem _ hb))

theorem allSteps_true (as : List α) (s : σ) : allSteps step (fun _ _ => True) s as :=
  allSteps_of_forall as s (fun _ _ => trivial)

theorem allSteps_and : ∀ (as : List α) (s : σ), allSteps step ok s as → allSteps step ok' s as →
      allSteps step (fun s a => ok s a ∧ ok' s a) s as
  | [], _, _, _ => trivial
  | a :: as, s, h, h' => by
    refine ⟨⟨h.1, h'.1⟩, ?_⟩
    cases hs : step s a with
    | none => trivial
    | some s' => exact allSteps_and as s' (allSteps_of_some h hs) (allSteps_of_some h' hs)

theorem allStates_of_allSteps (hstep : ∀ s a s', I s → ok s a → step s a = some s' → I s') :
    ∀ (as : List α) (s : σ), I s → allSteps step ok s as → allStates step I s as
  | [], s, hI, _ => hI
  | a :: as, s, hI, hok => by
    refine ⟨hI, ?_⟩
    cases hs : step s a with
    | none => trivial
    | some s' => exact allStates_of_allSteps hstep as s' (hstep s a s' hI hok.1 hs) (allSteps_of_some hok hs)

theorem allStates_of_allStates (hstep : ∀ s a s', I s → P s → step s a = some s' → P s' → I s') :
    ∀ (as : List α) (s : σ), I s → allStates step P s as → allStates step (fun s => I s ∧ P s) s as
  | [], _, hI, hP => ⟨hI, hP⟩
  | a :: as, s, hI, hP => by
    refine ⟨⟨hI, hP.1⟩, ?_⟩
    cases hs : step s a with
    | none => trivial
    | some s' =>
      have hP' := allStates_of_some hP hs
      exact allStates_of_allStates hstep as s' (hstep s a s' hI hP.1 hs (allStates_head hP')) hP'

theorem allSteps_next :
    ∀ (as : List α) (s : σ), allStates step P s as → allSteps step (fun s a => ∀ s', step s a = some s' → P s') s as
  | [], _, _ => trivial
  | a :: as, s, h => by
    refine ⟨fun s' hs => allStates_head (allStates_of_some h hs), ?_⟩
    cases hs : step s a with
    | none => trivial
    | some s' => exact allSteps_next as s' (allStates_of_some h hs)

theorem inv_of_run {ok : α → Prop} (hstep : ∀ s a s', I s → ok a → step s a = some s' → I s') :
    ∀ (as : List α) (s t : σ), I s → (∀ a ∈ as, ok a) → run step s as = some t → I t
  | [], s, t, hI, _, hr => by
    cases hr
    exact hI
  | a :: as, s, t, hI, hok, hr => by
    rw [run_cons] at hr
    obtain ⟨s', hs', hr'⟩ := bind_eq_some_iff.1 hr
    exact inv_of_run hstep as s' t (hstep s a s' hI (hok a mem_cons_self) hs')
      (fun b hb => hok b (mem_cons_of_mem _ hb)) hr'

/-- **The converse**: where a step that breaks `ok` ends in a state that breaks `P`, a run that keeps `P` throughout
has taken no such step. `I` is what the steps taken so far have kept. -/
theorem allSteps_of_allStates (hstep : ∀ s a s', I s → ok s a → step s a = some s' → I s')
    (hbreak : ∀ s a, I s → P s → ok' s a → ¬ ok s a → ∃ s', step s a = some s' ∧ ¬ P s') :
    ∀ (as : List α) (s : σ), I s → allSteps step ok' s as → allStates step P s as → allSteps step ok s as
  | [], _, _, _, _ => trivial
  | a :: as, s, hI, hok', hP => by
    have hok : ok s a := by
      by_contra hn
      obtain ⟨s', hs', hPs'⟩ := hbreak s a hI hP.1 hok'.1 hn
      exact hPs' (allStates_head (allStates_of_some hP hs'))
    refine ⟨hok, ?_⟩
    cases hs : step s a with
    | none => trivial
    | some s' =>
      exact allSteps_of_allStates hstep hbreak as s' (hstep s a s' hI hok hs) (allSteps_of_some hok' hs)
        (allStates_of_some hP hs)

theorem allSteps_iff
    (hstep : ∀ s a s', I s → ok s a → step s a = some s' → I s') (hiff : ∀ s a, I s → (ok' s a ↔ ok s a)) :
    ∀ (as : List α) (s : σ), I s → (allSteps step ok' s as ↔ allSteps step ok s as)
  | [], _, _ => Iff.rfl
  | a :: as, s, hI => by
    simp only [allSteps]
    rw [hiff s a hI]
    refine and_congr_right (fun hok => ?_)
    cases hs : step s a with
    | none => exact Iff.rfl
    | some s' => exact allSteps_iff hstep hiff as s' (hstep s a s' hI hok hs)

theorem allSteps_last : ∀ (as : List α) (s t : σ), allSteps step ok s (as ++ [a]) → run step s as = some t → ok t a
  | [], s, t, h, hr => by
    cases hr
    exact h.1
  | b :: as, s, t, h, hr => by
    rw [run_cons] at hr
    obtain ⟨s', hs', hr'⟩ := bind_eq_some_iff.1 hr
    exact allSteps_last as s' t (allSteps_of_some h hs') hr'

end Run
