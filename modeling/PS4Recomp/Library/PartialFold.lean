import Mathlib

/-!
# Folds of partial steps

A list folded with a step that may fail.

* `foldlM_invariant` — what every step keeps holds at the end;
* `foldlM_around` — the steps before an element, its own, and those behind it;
* `mapM_total` — a partial function that is defined on a list.
-/

namespace PS4Recomp.Library

variable {α S : Type*} {f : S → α → Option S}

/-- **Invariants.**  What every step of a fold keeps holds at its end. -/
theorem foldlM_invariant {P : S → Prop} {l : List α} {s s' : S} (h : l.foldlM f s = some s')
    (hs : P s) (hstep : ∀ a ∈ l, ∀ s s', f s a = some s' → P s → P s') : P s' := by
  induction l generalizing s with
  | nil =>
      cases h
      exact hs
  | cons a l ih =>
      rw [List.foldlM_cons] at h
      obtain ⟨s₁, ha, hl⟩ := Option.bind_eq_some_iff.1 h
      have hs₁ := hstep a List.mem_cons_self s s₁ ha hs
      exact ih hl hs₁ fun b hb => hstep b (List.mem_cons_of_mem a hb)

theorem foldlM_around {pre post : List α} {a : α} {s s' : S}
    (h : (pre ++ a :: post).foldlM f s = some s') :
    ∃ s₁ s₂, pre.foldlM f s = some s₁ ∧ f s₁ a = some s₂ ∧ post.foldlM f s₂ = some s' := by
  rw [List.foldlM_append] at h
  obtain ⟨s₁, hpre, hrest⟩ := Option.bind_eq_some_iff.1 h
  rw [List.foldlM_cons] at hrest
  obtain ⟨s₂, ha, hpost⟩ := Option.bind_eq_some_iff.1 hrest
  exact ⟨s₁, s₂, hpre, ha, hpost⟩

theorem mapM_total {β : Type*} {g : α → Option β} {l : List α} (h : ∀ a ∈ l, ∃ b, g a = some b) :
    ∃ bs, l.mapM g = some bs := by
  induction l with
  | nil => exact ⟨[], rfl⟩
  | cons a l ih =>
      obtain ⟨b, hb⟩ := h a List.mem_cons_self
      obtain ⟨bs, hbs⟩ := ih fun a ha => h a (List.mem_cons_of_mem _ ha)
      exact ⟨b :: bs, by rw [List.mapM_cons, hb, hbs]; rfl⟩

end PS4Recomp.Library
