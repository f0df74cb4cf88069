import Mathlib

/-!
# Binary search

Search in a list whose elements compare with a target.

* `search` — the halving loop over positions, `search_spec` — it stops at the first position that is
  not below the target, when the positions below it come first, `search_stop` — it never stops at one
  that is below;
* `probes` — the positions it looks at, `search_agree` — they decide where it stops, `search_early` —
  it stops no later than at one that is not below after all;
* `binarySearch` — the position and whether the element there matches, `binarySearch_found` — an
  element that matches is found, `binarySearch_miss`, `binarySearch_congr`.
-/

namespace PS4Recomp.Library

/-- The loop over `[i, j)`, with a bound on its length. -/
def search (below : ℕ → Bool) : ℕ → ℕ → ℕ → ℕ
  | 0, i, _ => i
  | n + 1, i, j =>
      if i < j then
        if below ((i + j) / 2) then search below n ((i + j) / 2 + 1) j
        else search below n i ((i + j) / 2)
      else i

theorem search_succ (f : ℕ → Bool) (n i j : ℕ) : search f (n + 1) i j =
    if i < j then if f ((i + j) / 2) then search f n ((i + j) / 2 + 1) j
      else search f n i ((i + j) / 2) else i := rfl

/-- When the positions below the target come first, the loop stops behind them. -/
theorem search_spec {below : ℕ → Bool} {n i j t : ℕ} (hn : j - i ≤ n) (hit : i ≤ t) (htj : t ≤ j)
    (h : ∀ k, i ≤ k → k < j → (below k = true ↔ k < t)) : search below n i j = t := by
  induction n generalizing i j with
  | zero =>
      show i = t
      omega
  | succ n ih =>
      rw [search_succ]
      by_cases hij : i < j
      · rw [if_pos hij]
        have hmid := h ((i + j) / 2) (by omega) (by omega)
        by_cases hlt : (i + j) / 2 < t
        · rw [if_pos (hmid.2 hlt)]
          exact ih (by omega) (by omega) htj fun k hk hk' => h k (by omega) hk'
        · rw [if_neg fun hb => hlt (hmid.1 hb)]
          exact ih (by omega) hit (by omega) fun k hk hk' => h k hk (by omega)
      · rw [if_neg hij]
        omega

/-- Where the loop stops before the end, the position is not below the target. -/
theorem search_stop (below : ℕ → Bool) {n i j : ℕ} (hn : j - i ≤ n) (hij : i ≤ j) :
    search below n i j = j ∨ below (search below n i j) = false := by
  induction n generalizing i j with
  | zero =>
      left
      show i = j
      omega
  | succ n ih =>
      rw [search_succ]
      by_cases hlt : i < j
      · rw [if_pos hlt]
        cases hmid : below ((i + j) / 2) with
        | true =>
            rw [if_pos rfl]
            exact ih (by omega) (by omega)
        | false =>
            rw [if_neg Bool.false_ne_true]
            rcases ih (i := i) (j := (i + j) / 2) (by omega) (by omega) with hstop | hstop
            · right
              rw [hstop, hmid]
            · exact .inr hstop
      · rw [if_neg hlt]
        left
        omega

/-- The positions that the loop looks at. -/
def probes (below : ℕ → Bool) : ℕ → ℕ → ℕ → List ℕ
  | 0, _, _ => []
  | n + 1, i, j =>
      if i < j then
        (i + j) / 2 :: if below ((i + j) / 2) then probes below n ((i + j) / 2 + 1) j
          else probes below n i ((i + j) / 2)
      else []

theorem probes_succ (f : ℕ → Bool) (n i j : ℕ) : probes f (n + 1) i j =
    if i < j then (i + j) / 2 :: if f ((i + j) / 2) then probes f n ((i + j) / 2 + 1) j
      else probes f n i ((i + j) / 2) else [] := rfl

theorem probes_ge {f : ℕ → Bool} {n i j p : ℕ} (h : p ∈ probes f n i j) : i ≤ p := by
  induction n generalizing i j with
  | zero => cases h
  | succ n ih =>
      rw [probes_succ] at h
      by_cases hij : i < j
      · rw [if_pos hij] at h
        rcases List.mem_cons.1 h with heq | h
        · omega
        · split at h
          · exact Nat.le_trans (by omega) (ih h)
          · exact ih h
      · rw [if_neg hij] at h
        cases h

theorem search_agree {f g : ℕ → Bool} {n i j : ℕ} (h : ∀ p ∈ probes f n i j, g p = f p) :
    search g n i j = search f n i j := by
  induction n generalizing i j with
  | zero => rfl
  | succ n ih =>
      rw [search_succ, search_succ]
      rw [probes_succ] at h
      by_cases hij : i < j
      · rw [if_pos hij] at h ⊢
        rw [if_pos hij, h _ List.mem_cons_self]
        cases hmid : f ((i + j) / 2) with
        | true =>
            rw [if_pos rfl, if_pos rfl]
            refine ih fun p hp => h p (List.mem_cons_of_mem _ ?_)
            rwa [if_pos hmid]
        | false =>
            rw [if_neg Bool.false_ne_true, if_neg Bool.false_ne_true]
            refine ih fun p hp => h p (List.mem_cons_of_mem _ ?_)
            rwa [if_neg (by rw [hmid]; exact Bool.false_ne_true)]
      · rw [if_neg hij, if_neg hij]

theorem search_le {f : ℕ → Bool} {n i j : ℕ} (hij : i ≤ j) : search f n i j ≤ j := by
  induction n generalizing i j with
  | zero => exact hij
  | succ n ih =>
      rw [search_succ]
      by_cases hlt : i < j
      · rw [if_pos hlt]
        split
        · exact ih (by omega)
        · exact (ih (by omega)).trans (by omega)
      · rwa [if_neg hlt]

/-- With fewer positions below, the loop stops no later than at one that it looks at with more of
them and that is not below now. -/
theorem search_early {f g : ℕ → Bool} {n i j p : ℕ} (hsub : ∀ k, g k = true → f k = true)
    (hp : p ∈ probes f n i j) (hg : g p = false) : search g n i j ≤ p := by
  induction n generalizing i j with
  | zero => cases hp
  | succ n ih =>
      rw [search_succ]
      rw [probes_succ] at hp
      by_cases hij : i < j
      · rw [if_pos hij] at hp ⊢
        rcases List.mem_cons.1 hp with heq | hp
        · -- the loop looks at `p` itself and goes to the left of it
          rw [← heq, hg, if_neg Bool.false_ne_true]
          exact search_le (by omega)
        · cases hmid : g ((i + j) / 2) with
          | true =>
              rw [if_pos (hsub _ hmid)] at hp
              rw [if_pos rfl]
              exact ih hp
          | false =>
              rw [if_neg Bool.false_ne_true]
              cases hfmid : f ((i + j) / 2) with
              | true =>
                  rw [if_pos hfmid] at hp
                  have hle : search g n i ((i + j) / 2) ≤ (i + j) / 2 := search_le (by omega)
                  have hright := probes_ge hp
                  omega
              | false =>
                  rw [if_neg (by rw [hfmid]; exact Bool.false_ne_true)] at hp
                  exact ih hp
      · rw [if_neg hij] at hp
        cases hp

variable {α : Type*}

/-- The position of the search in a list, and whether the element there matches. -/
def binarySearch (cmp : α → Ordering) (xs : List α) : ℕ × Bool :=
  let i := search (fun k => (xs[k]?.map cmp) == some .lt) xs.length 0 xs.length
  (i, (xs[i]?.map cmp) == some .eq)

theorem binarySearch_congr {β : Type*} {cmp : α → Ordering} {cmp' : β → Ordering} {f : α → β}
    {xs : List α} (h : ∀ x ∈ xs, cmp' (f x) = cmp x) :
    binarySearch cmp' (xs.map f) = binarySearch cmp xs := by
  have helem : ∀ k : ℕ, (xs.map f)[k]?.map cmp' = xs[k]?.map cmp := by
    intro k
    rw [List.getElem?_map, Option.map_map]
    cases hx : xs[k]? with
    | none => rfl
    | some x => exact congrArg some (h x (List.mem_of_getElem? hx))
  simp only [binarySearch, helem, List.length_map]

theorem binarySearch_miss {cmp : α → Ordering} {xs : List α} (h : ∀ x ∈ xs, cmp x ≠ .eq) :
    (binarySearch cmp xs).2 = false := by
  rw [binarySearch]
  dsimp only
  generalize search _ _ _ _ = i
  cases hx : xs[i]? with
  | none => rfl
  | some x =>
      have hne := h x (List.mem_of_getElem? hx)
      simpa using hne

/-- In a list that the target cuts in two, an element that matches is found. -/
theorem binarySearch_found {cmp : α → Ordering} {xs : List α} {i : ℕ} {x : α}
    (hx : xs[i]? = some x) (heq : cmp x = .eq)
    (hbefore : ∀ k < i, ∀ y, xs[k]? = some y → cmp y = .lt)
    (hafter : ∀ (k : ℕ) (y : α), i ≤ k → xs[k]? = some y → cmp y ≠ .lt) :
    binarySearch cmp xs = (i, true) := by
  have hi : i < xs.length := (List.getElem?_eq_some_iff.1 hx).1
  have hstop : search (fun k => (xs[k]?.map cmp) == some .lt) xs.length 0 xs.length = i := by
    refine search_spec (by omega) (by omega) (by omega) fun k _ hk => ?_
    have hy : xs[k]? = some xs[k] := List.getElem?_eq_getElem hk
    rw [hy]
    show (some (cmp xs[k]) == some Ordering.lt) = true ↔ k < i
    rw [beq_iff_eq, Option.some.injEq]
    constructor
    · intro hlt
      by_contra hge
      exact hafter k _ (by omega) hy hlt
    · exact fun hlt => hbefore k hlt _ hy
  rw [binarySearch]
  simp only [hstop, hx, Option.map_some, heq, beq_self_eq_true]

end PS4Recomp.Library
