import Mathlib

/-!
# Transition systems: reachable states and runs

A system has initial states and labelled steps.

* `Reachable` — the states of finite runs, `Reachable.invariant` — induction over them: an invariant
  holds at the start and every step keeps it;
* `execAll`, `Reachable.execAll` — the state after a list of steps;
* `System.restrict` — the runs whose steps all meet a condition on the state before the step,
  `guarded` — their steps where they are computed;
* `Run` — a run with its states by position, `Run.stays` — what every step of a stretch of the run
  keeps still holds at its end.
-/

namespace PS4Recomp.Library.Transition

variable {S A : Type*}

/-- Initial states and labelled steps. -/
structure System (S A : Type*) where
  init : S → Prop
  step : S → A → S → Prop

/-- The states some finite run ends in. -/
inductive Reachable (M : System S A) : S → Prop
  | init {s} : M.init s → Reachable M s
  | step {s a s'} : Reachable M s → M.step s a s' → Reachable M s'

variable {M : System S A}

/-- **Invariants.**  A property that holds at the start and is kept by every step from a reachable
state holds of every reachable state. -/
theorem Reachable.invariant {P : S → Prop} (hinit : ∀ s, M.init s → P s)
    (hstep : ∀ s a s', Reachable M s → P s → M.step s a s' → P s') {s : S}
    (h : Reachable M s) : P s := by
  induction h with
  | init h => exact hinit _ h
  | step hr hs ih => exact hstep _ _ _ hr ih hs

/-- The state after a list of steps of a system whose steps are computed. -/
def execAll (exec : S → A → Option S) : S → List A → Option S
  | s, [] => some s
  | s, a :: as => (exec s a).bind fun s' => execAll exec s' as

theorem Reachable.execAll {exec : S → A → Option S}
    (hexec : ∀ s a s', exec s a = some s' → M.step s a s') (as : List A) {s s' : S}
    (h : Reachable M s) (hs : Transition.execAll exec s as = some s') : Reachable M s' := by
  induction as generalizing s with
  | nil =>
      cases hs
      exact h
  | cons a as ih =>
      obtain ⟨s₁, ha, has⟩ := Option.bind_eq_some_iff.1 hs
      exact ih (.step h (hexec s a s₁ ha)) has

/-- The steps of `M` whose start meets `ok`. -/
def System.restrict (M : System S A) (ok : S → A → Prop) : System S A where
  init := M.init
  step s a s' := ok s a ∧ M.step s a s'

/-- A computed step, where `ok` admits it. -/
def guarded (ok : S → A → Prop) [∀ s a, Decidable (ok s a)] (exec : S → A → Option S) (s : S) (a : A) :
    Option S :=
  if ok s a then exec s a else none

theorem Reachable.guarded {ok : S → A → Prop} [∀ s a, Decidable (ok s a)] {exec : S → A → Option S}
    (hexec : ∀ s a s', exec s a = some s' → M.step s a s') (as : List A) {s s' : S}
    (h : Reachable (M.restrict ok) s)
    (hs : Transition.execAll (Transition.guarded ok exec) s as = some s') :
    Reachable (M.restrict ok) s' := by
  refine Reachable.execAll (fun s a s' hstep => ?_) as h hs
  unfold Transition.guarded at hstep
  split at hstep
  · rename_i hok
    exact ⟨hok, hexec s a s' hstep⟩
  · cases hstep

theorem Reachable.of_restrict {ok : S → A → Prop} {s : S} (h : Reachable (M.restrict ok) s) :
    Reachable M s := by
  induction h with
  | init h => exact .init h
  | step _ hs ih => exact .step ih hs.2

/-- A finite run: its states by position, the label of each step. -/
structure Run (M : System S A) where
  len : ℕ
  state : ℕ → S
  label : ℕ → A
  init : M.init (state 0)
  step : ∀ i < len, M.step (state i) (label i) (state (i + 1))

theorem Run.reachable (r : Run M) : ∀ i ≤ r.len, Reachable M (r.state i) := by
  intro i
  induction i with
  | zero => exact fun _ => .init r.init
  | succ i ih =>
      intro hi
      have hprev := ih (by omega)
      exact .step hprev (r.step i (by omega))

/-- **A stretch of a run.**  What holds at position `i` and is kept by each step up to `j` holds
at `j`. -/
theorem Run.stays (r : Run M) {P : S → Prop} {i j : ℕ} (hij : i ≤ j) (hP : P (r.state i))
    (hstep : ∀ k, i ≤ k → k < j → P (r.state k) → P (r.state (k + 1))) : P (r.state j) := by
  induction j, hij using Nat.le_induction with
  | base => exact hP
  | succ j hij ih =>
      have hj := ih fun k h1 h2 => hstep k h1 (by omega)
      exact hstep j hij (by omega) hj

end PS4Recomp.Library.Transition
