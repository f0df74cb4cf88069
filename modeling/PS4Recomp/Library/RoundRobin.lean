import Mathlib

/-!
# Round-robin iteration to a least fixpoint

A table `σ : K → L` is improved one key at a time: a sweep visits a fixed list of keys, replaces
`σ k` by `F σ k` at each and reports whether a value changed; sweeps repeat until one changes
nothing.  For a monotone `F` started at a table that only rises, and a value order of bounded rank:

* `sweep_le` / `sweep_below` — a sweep only rises and stays below every post-fixpoint;
* `sweep_unchanged` — a sweep that reports no change left the table alone, and the table solves
  `F σ k = σ k` at every visited key;
* `solve_isSome` — `h * |ks| + 1` sweeps are enough, where `h` bounds the rank of a value;
* `solve_spec` — the result is a fixpoint on the visited keys and below every post-fixpoint.
-/

namespace PS4Recomp.Library.RoundRobin

variable {K L : Type*} [DecidableEq K] [DecidableEq L]

/-- One round over the keys `ks`; the flag reports whether a value changed. -/
def sweep (F : (K → L) → K → L) : List K → (K → L) → (K → L) × Bool
  | [], σ => (σ, false)
  | k :: ks, σ =>
      let v := F σ k
      if v = σ k then sweep F ks σ
      else ((sweep F ks (Function.update σ k v)).1, true)

/-- Rounds until one changes nothing; `none` when `fuel` rounds were not enough. -/
def solve (F : (K → L) → K → L) (ks : List K) : ℕ → (K → L) → Option (K → L)
  | 0, _ => none
  | fuel + 1, σ =>
      let r := sweep F ks σ
      if r.2 then solve F ks fuel r.1 else some r.1

variable [PartialOrder L]

/-- Every value can only rise when it is recomputed. -/
def Rising (F : (K → L) → K → L) (σ : K → L) : Prop := ∀ k, σ k ≤ F σ k

omit [DecidableEq L] in
/-- Replacing one value of a rising table by its recomputation raises the table. -/
theorem le_update (F : (K → L) → K → L) {σ : K → L} (h : Rising F σ) (k : K) :
    σ ≤ Function.update σ k (F σ k) := by
  intro j
  by_cases hj : j = k
  · subst hj
    simpa using h j
  · simp [hj]

omit [DecidableEq L] in
theorem rising_update {F : (K → L) → K → L} (hF : Monotone F) {σ : K → L} (h : Rising F σ)
    (k : K) : Rising F (Function.update σ k (F σ k)) := by
  have hle := le_update F h k
  intro j
  by_cases hj : j = k
  · subst hj
    simpa using hF hle j
  · rw [Function.update_of_ne hj]
    exact (h j).trans (hF hle j)

theorem sweep_rising {F : (K → L) → K → L} (hF : Monotone F) (ks : List K) :
    ∀ σ, Rising F σ → Rising F (sweep F ks σ).1 := by
  induction ks with
  | nil => exact fun σ h => h
  | cons k ks ih =>
      intro σ h
      simp only [sweep]
      split
      · exact ih σ h
      · exact ih _ (rising_update hF h k)

theorem sweep_le {F : (K → L) → K → L} (hF : Monotone F) (ks : List K) :
    ∀ σ, Rising F σ → σ ≤ (sweep F ks σ).1 := by
  induction ks with
  | nil => exact fun σ _ => le_refl σ
  | cons k ks ih =>
      intro σ h
      simp only [sweep]
      split
      · exact ih σ h
      · exact (le_update F h k).trans (ih _ (rising_update hF h k))

/-- A sweep stays below every table `p` with `F p ≤ p`. -/
theorem sweep_below {F : (K → L) → K → L} (hF : Monotone F) {p : K → L} (hp : F p ≤ p)
    (ks : List K) : ∀ σ, σ ≤ p → (sweep F ks σ).1 ≤ p := by
  induction ks with
  | nil => exact fun σ h => h
  | cons k ks ih =>
      intro σ h
      simp only [sweep]
      split
      · exact ih σ h
      · apply ih
        intro j
        by_cases hj : j = k
        · subst hj
          simpa using (hF h j).trans (hp j)
        · simpa [hj] using h j

omit [PartialOrder L] in
/-- A sweep that reports no change did not change the table, which solves the equations. -/
theorem sweep_unchanged (F : (K → L) → K → L) (ks : List K) (σ : K → L)
    (h : (sweep F ks σ).2 = false) :
    (sweep F ks σ).1 = σ ∧ ∀ k ∈ ks, F σ k = σ k := by
  induction ks with
  | nil => exact ⟨rfl, by simp⟩
  | cons k ks ih =>
      simp only [sweep] at h ⊢
      split at h
      · rename_i hk
        obtain ⟨h1, h2⟩ := ih h
        rw [if_pos hk]
        exact ⟨h1, by simpa [hk] using h2⟩
      · simp at h

section Rank

variable (rank : L → ℕ)

/-- The total rank of the values at `ks`. -/
def total (ks : List K) (σ : K → L) : ℕ := (ks.map fun k => rank (σ k)).sum

variable {rank}

omit [DecidableEq K] [DecidableEq L] in

omit [DecidableEq K] [DecidableEq L] in
theorem total_lt_total (hr : StrictMono rank) {ks : List K} {σ τ : K → L} (h : σ ≤ τ) {k : K}
    (hk : k ∈ ks) (hne : σ k ≠ τ k) : total rank ks σ < total rank ks τ :=
  List.sum_lt_sum _ _ (fun j _ => hr.monotone (h j)) ⟨k, hk, hr (lt_of_le_of_ne (h k) hne)⟩

omit [DecidableEq K] [DecidableEq L] [PartialOrder L] in
theorem total_bound {h : ℕ} (hb : ∀ l, rank l ≤ h) (ks : List K) (σ : K → L) :
    total rank ks σ ≤ h * ks.length := by
  induction ks with
  | nil => simp [total]
  | cons k ks ih =>
      simp only [total, List.map_cons, List.sum_cons, List.length_cons] at ih ⊢
      have := hb (σ k)
      rw [Nat.mul_succ]
      omega

/-- A sweep that reports a change raised the value of a visited key. -/
theorem sweep_changed {F : (K → L) → K → L} (hF : Monotone F) (ks : List K) :
    ∀ σ, Rising F σ → (sweep F ks σ).2 = true → ∃ k ∈ ks, σ k ≠ (sweep F ks σ).1 k := by
  induction ks with
  | nil => intro σ _ h; simp [sweep] at h
  | cons k ks ih =>
      intro σ hσ h
      simp only [sweep] at h ⊢
      split at h
      · rename_i hk
        rw [if_pos hk]
        obtain ⟨j, hj, hne⟩ := ih σ hσ h
        exact ⟨j, List.mem_cons_of_mem k hj, hne⟩
      · rename_i hk
        rw [if_neg hk]
        refine ⟨k, List.mem_cons_self, fun heq => hk ?_⟩
        have hle := sweep_le hF ks _ (rising_update hF hσ k) k
        rw [Function.update_self, ← heq] at hle
        exact le_antisymm hle (hσ k)

/-- **Enough rounds.**  Every round but the last raises the total rank. -/
theorem solve_isSome {F : (K → L) → K → L} (hF : Monotone F) (hr : StrictMono rank) {h : ℕ}
    (hb : ∀ l, rank l ≤ h) (ks : List K) :
    ∀ fuel σ, Rising F σ → h * ks.length < fuel + total rank ks σ →
      (solve F ks fuel σ).isSome := by
  intro fuel
  induction fuel with
  | zero =>
      intro σ _ hlt
      have := total_bound hb ks σ
      omega
  | succ fuel ih =>
      intro σ hσ hlt
      simp only [solve]
      split
      · rename_i hc
        obtain ⟨k, hk, hne⟩ := sweep_changed hF ks σ hσ hc
        have hup := total_lt_total hr (sweep_le hF ks σ hσ) hk hne
        exact ih _ (sweep_rising hF ks σ hσ) (by omega)
      · rfl

end Rank

/-- **The result.**  A table the rounds end with is a fixpoint on the visited keys and below every
post-fixpoint above the start. -/
theorem solve_spec {F : (K → L) → K → L} (hF : Monotone F) {ks : List K} {p : K → L}
    (hp : F p ≤ p) : ∀ fuel σ τ, solve F ks fuel σ = some τ → σ ≤ p →
      (∀ k ∈ ks, F τ k = τ k) ∧ τ ≤ p := by
  intro fuel
  induction fuel with
  | zero => intro σ τ h; simp [solve] at h
  | succ fuel ih =>
      intro σ τ h hσ
      simp only [solve] at h
      split at h
      · exact ih _ τ h (sweep_below hF hp ks σ hσ)
      · rename_i hc
        obtain ⟨h1, h2⟩ := sweep_unchanged F ks σ (by simpa using hc)
        rw [h1] at h
        cases h
        exact ⟨h2, hσ⟩

end PS4Recomp.Library.RoundRobin
