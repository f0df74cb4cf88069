import PS4Recomp.Disasm.JumpTable

/-!
# Searches by levels

The breadth-first searches of `disasmBranchFollowing` in the predecessor blocks.

* `BlockPath`, `pathInsts` — the ways from the entry to a block through the edges found so far;
* `mem_foldl_visitNew`, `foldl_visitNew` — an item is queued unless its key was visited;
* `foldlM_error` — a level that ends the search does so at one of its items, in a state that the
  items before it led to;
* `searchLevels_error`, `searchLevels_ok` — what ends the search, and what holds when it runs out of
  items or levels, from what holds of one level.
-/

namespace PS4Recomp.Disasm

open X86

/-! ### the ways to a block -/

/-- A way from the entry to a block, through the edges found so far: the blocks before it. -/
inductive BlockPath (w : Walk) (entryAddr : Addr) : Addr → List Addr → Prop where
  | entry : BlockPath w entryAddr entryAddr []
  | step {p b : Addr} {path : List Addr} : BlockPath w entryAddr p path → p ∈ w.blockPreds b →
      BlockPath w entryAddr b (path ++ [p])

/-- The instructions of the blocks of a way. -/
def pathInsts (w : Walk) (path : List Addr) : List Instruction := path.flatMap w.blockInsts

/-! ### levels -/

section Levels

variable {α σ β : Type} {step : σ → List α → Except β (σ × List α)} {I : σ → List α → Prop}

/-- What ends a search, if every level keeps an invariant. -/
theorem searchLevels_error {E : β → Prop}
    (hok : ∀ st queue st' next, I st queue → step st queue = .ok (st', next) → I st' next)
    (herror : ∀ st queue b, I st queue → step st queue = .error b → E b) :
    ∀ (n : ℕ) (st : σ) (queue : List α) (b : β), I st queue →
      searchLevels step n st queue = .error b → E b := by
  intro n
  induction n with
  | zero => intro st queue b _ h; cases h
  | succ n ih =>
      intro st queue b hI h
      simp only [searchLevels] at h
      split at h
      · cases h
      · cases hstep : step st queue with
        | error b' =>
            rw [hstep] at h
            cases h
            exact herror st queue b hI hstep
        | ok r =>
            rw [hstep] at h
            exact ih r.1 r.2 b (hok st queue r.1 r.2 hI hstep) h

/-- Where a search stops without a result, its invariant holds. -/
theorem searchLevels_ok
    (hok : ∀ st queue st' next, I st queue → step st queue = .ok (st', next) → I st' next) :
    ∀ (n : ℕ) (st : σ) (queue : List α) (st' : σ) (queue' : List α), I st queue →
      searchLevels step n st queue = .ok (st', queue') → I st' queue' := by
  intro n
  induction n with
  | zero =>
      intro st queue st' queue' hI h
      cases h
      exact hI
  | succ n ih =>
      intro st queue st' queue' hI h
      simp only [searchLevels] at h
      split at h
      · cases h
        exact hI
      · cases hstep : step st queue with
        | error b => rw [hstep] at h; cases h
        | ok r =>
            rw [hstep] at h
            exact ih r.1 r.2 st' queue' (hok st queue r.1 r.2 hI hstep) h

end Levels

section Level

variable {α τ β : Type} {item : τ → α → Except β τ} {J : τ → List α → Prop}

/-- A level goes through its items; `J` relates its state to the items left. -/
theorem foldlM_ok (hok : ∀ st it items st', J st (it :: items) → item st it = .ok st' → J st' items) :
    ∀ (items : List α) (st st' : τ), J st items → items.foldlM item st = .ok st' → J st' [] := by
  intro items
  induction items with
  | nil =>
      intro st st' hJ h
      cases h
      exact hJ
  | cons it items ih =>
      intro st st' hJ h
      rw [List.foldlM_cons] at h
      cases hitem : item st it with
      | error b => rw [hitem] at h; cases h
      | ok st₁ =>
          rw [hitem] at h
          exact ih st₁ st' (hok st it items st₁ hJ hitem) h

theorem foldlM_error {E : β → Prop}
    (hok : ∀ st it items st', J st (it :: items) → item st it = .ok st' → J st' items)
    (herror : ∀ st it items b, J st (it :: items) → item st it = .error b → E b) :
    ∀ (items : List α) (st : τ) (b : β), J st items → items.foldlM item st = .error b → E b := by
  intro items
  induction items with
  | nil => intro st b _ h; cases h
  | cons it items ih =>
      intro st b hJ h
      rw [List.foldlM_cons] at h
      cases hitem : item st it with
      | error b' =>
          rw [hitem] at h
          cases h
          exact herror st it items b hJ hitem
      | ok st₁ =>
          rw [hitem] at h
          exact ih st₁ b (hok st it items st₁ hJ hitem) h

end Level

section Visit

variable {α κ : Type} [DecidableEq κ] (key : α → κ)

/-- Items are queued in front of no other, and their keys are noted. -/
theorem mem_foldl_visitNew (items : List α) : ∀ (st : List κ × List α) (a : α),
    a ∈ (items.foldl (visitNew key) st).2 → a ∈ st.2 ∨ a ∈ items := by
  induction items with
  | nil => exact fun st a h => .inl h
  | cons b items ih =>
      intro st a h
      rcases ih _ a h with h | h
      · unfold visitNew at h
        split at h
        · exact .inl h
        · rcases List.mem_append.1 h with h | h
          · exact .inl h
          · rw [List.mem_singleton.1 h]
            exact .inr List.mem_cons_self
      · exact .inr (List.mem_cons_of_mem b h)

theorem foldl_visitNew [DecidableEq α] (items : List α) : ∀ st : List α × List α,
    ∃ new, (items.foldl (visitNew id) st).1 = st.1 ++ new ∧
      (items.foldl (visitNew id) st).2 = st.2 ++ new ∧ ∀ a ∈ items, a ∈ st.1 ++ new := by
  induction items with
  | nil => exact fun st => ⟨[], by simp, by simp, by simp⟩
  | cons b items ih =>
      intro st
      rw [List.foldl_cons]
      by_cases hb : b ∈ st.1
      · obtain ⟨new, h1, h2, h3⟩ := ih st
        rw [visitNew, id, if_pos hb]
        refine ⟨new, h1, h2, fun a ha => ?_⟩
        rcases List.mem_cons.1 ha with rfl | ha
        · exact List.mem_append_left _ hb
        · exact h3 a ha
      · obtain ⟨new, h1, h2, h3⟩ := ih (st.1 ++ [b], st.2 ++ [b])
        rw [visitNew, id, if_neg hb]
        refine ⟨b :: new, by rw [h1]; simp, by rw [h2]; simp, fun a ha => ?_⟩
        rcases List.mem_cons.1 ha with rfl | ha
        · simp
        · have hmem := h3 a ha
          simpa using hmem

end Visit

end PS4Recomp.Disasm
