import Mathlib.Data.List.Induction
import Mathlib.Logic.Function.Basic
import Mathlib.Logic.Nontrivial.Basic

/-!
# Known values of registers

What a list of instructions makes of one register, where most of them are known only by the
registers they may write.

* `Effect` — a constant or a copy put into a register, or registers that may get any value;
* `Step`, `Run` — the registers before and after;
* `Known` — going back from the end, the value comes by copies from a constant;
* `known_iff` — a register holds a value at the end of every run exactly if it is known to.
-/

namespace PS4Recomp.Library.KnownValue

variable {R V : Type} [DecidableEq R]

/-- What an instruction does to the registers. -/
inductive Effect (R V : Type) where
  | const (r : R) (v : V)
  | copy (dst src : R)
  | havoc (written : R → Prop)

/-- One instruction.  A register that may be written may hold anything afterwards. -/
def Step : Effect R V → (R → V) → (R → V) → Prop
  | .const r v, ρ, ρ' => ρ' = Function.update ρ r v
  | .copy dst src, ρ, ρ' => ρ' = Function.update ρ dst (ρ src)
  | .havoc written, ρ, ρ' => ∀ r, ¬ written r → ρ' r = ρ r

/-- A list of instructions, in order. -/
def Run : List (Effect R V) → (R → V) → (R → V) → Prop
  | [], ρ, ρ' => ρ' = ρ
  | e :: es, ρ, ρ' => ∃ ρ₁, Step e ρ ρ₁ ∧ Run es ρ₁ ρ'

/-- The value of a register comes by copies from a constant; the list is searched backwards, so its
last instruction is first. -/
def Known : List (Effect R V) → R → V → Prop
  | [], _, _ => False
  | .const r' v' :: before, r, v => if r' = r then v' = v else Known before r v
  | .copy dst src :: before, r, v => if dst = r then Known before src v else Known before r v
  | .havoc written :: before, r, v => ¬ written r ∧ Known before r v

theorem run_append (es es' : List (Effect R V)) : ∀ ρ ρ' : R → V,
    Run (es ++ es') ρ ρ' ↔ ∃ ρ₁, Run es ρ ρ₁ ∧ Run es' ρ₁ ρ' := by
  induction es with
  | nil =>
      intro ρ ρ'
      constructor
      · exact fun h => ⟨ρ, rfl, h⟩
      · rintro ⟨ρ₁, h₁, h⟩
        cases h₁
        exact h
  | cons e es ih =>
      intro ρ ρ'
      constructor
      · rintro ⟨ρ₁, hstep, hrun⟩
        obtain ⟨ρ₂, h₁, h₂⟩ := (ih ρ₁ ρ').1 hrun
        exact ⟨ρ₂, ⟨ρ₁, hstep, h₁⟩, h₂⟩
      · rintro ⟨ρ₂, ⟨ρ₁, hstep, h₁⟩, h₂⟩
        exact ⟨ρ₁, hstep, (ih ρ₁ ρ').2 ⟨ρ₂, h₁, h₂⟩⟩

theorem run_concat (es : List (Effect R V)) (e : Effect R V) (ρ ρ' : R → V) :
    Run (es ++ [e]) ρ ρ' ↔ ∃ ρ₁, Run es ρ ρ₁ ∧ Step e ρ₁ ρ' := by
  rw [run_append]
  constructor
  · rintro ⟨ρ₁, hrun, ρ₂, hstep, h⟩
    cases h
    exact ⟨ρ₁, hrun, hstep⟩
  · rintro ⟨ρ₁, hrun, hstep⟩
    exact ⟨ρ₁, hrun, ρ', hstep, rfl⟩

theorem exists_step (e : Effect R V) (ρ : R → V) : ∃ ρ', Step e ρ ρ' := by
  cases e with
  | const r v => exact ⟨_, rfl⟩
  | copy dst src => exact ⟨_, rfl⟩
  | havoc written => exact ⟨ρ, fun _ _ => rfl⟩

theorem exists_run (es : List (Effect R V)) : ∀ ρ : R → V, ∃ ρ', Run es ρ ρ' := by
  induction es with
  | nil => exact fun ρ => ⟨ρ, rfl⟩
  | cons e es ih =>
      intro ρ
      obtain ⟨ρ₁, hstep⟩ := exists_step e ρ
      obtain ⟨ρ', hrun⟩ := ih ρ₁
      exact ⟨ρ', ρ₁, hstep, hrun⟩

/-- What holds after every run and one more instruction holds of the states it can start from. -/
theorem forall_concat (es : List (Effect R V)) (e : Effect R V) (P : (R → V) → Prop) :
    (∀ ρ ρ', Run (es ++ [e]) ρ ρ' → P ρ') ↔
      ∀ ρ ρ₁, Run es ρ ρ₁ → ∀ ρ', Step e ρ₁ ρ' → P ρ' := by
  constructor
  · exact fun h ρ ρ₁ hrun ρ' hstep => h ρ ρ' ((run_concat es e ρ ρ').2 ⟨ρ₁, hrun, hstep⟩)
  · intro h ρ ρ' hrun
    obtain ⟨ρ₁, hrun, hstep⟩ := (run_concat es e ρ ρ').1 hrun
    exact h ρ ρ₁ hrun ρ' hstep

/-- **Known values.**  A register holds a value at the end of every run exactly if it is known to. -/
theorem known_iff [Nontrivial V] (es : List (Effect R V)) : ∀ (r : R) (v : V),
    (∀ ρ ρ', Run es ρ ρ' → ρ' r = v) ↔ Known es.reverse r v := by
  induction es using List.reverseRecOn with
  | nil =>
      intro r v
      obtain ⟨u, hu⟩ := exists_ne v
      exact ⟨fun h => hu (h (fun _ => u) _ rfl), fun h => absurd h id⟩
  | append_singleton es e ih =>
      intro r v
      rw [forall_concat, List.reverse_append, List.reverse_singleton, List.singleton_append]
      cases e with
      | const r' v' =>
          simp only [Step, Known, forall_eq]
          by_cases hr : r' = r
          · subst hr
            simp only [Function.update_self, if_true]
            obtain ⟨ρ₁, hrun⟩ := exists_run es fun _ => v
            exact ⟨fun h => h _ ρ₁ hrun, fun h _ _ _ => h⟩
          · rw [if_neg hr, ← ih]
            simp only [Function.update_of_ne (Ne.symm hr)]
      | copy dst src =>
          simp only [Step, Known, forall_eq]
          by_cases hr : dst = r
          · subst hr
            rw [if_pos rfl, ← ih]
            simp only [Function.update_self]
          · rw [if_neg hr, ← ih]
            simp only [Function.update_of_ne (Ne.symm hr)]
      | havoc written =>
          simp only [Known]
          constructor
          · intro h
            have hkept : ¬ written r := by
              intro hw
              obtain ⟨u, hu⟩ := exists_ne v
              obtain ⟨ρ₁, hrun⟩ := exists_run es fun _ => v
              have hset := h _ ρ₁ hrun (Function.update ρ₁ r u) fun s hs => by
                rw [Function.update_of_ne]
                intro hsr
                exact hs (hsr ▸ hw)
              rw [Function.update_self] at hset
              exact hu hset
            exact ⟨hkept, (ih r v).1 fun ρ ρ₁ hrun => h ρ ρ₁ hrun ρ₁ fun _ _ => rfl⟩
          · rintro ⟨hkept, hknown⟩ ρ ρ₁ hrun ρ' hstep
            rw [hstep r hkept]
            exact (ih r v).2 hknown ρ ρ₁ hrun

end PS4Recomp.Library.KnownValue
