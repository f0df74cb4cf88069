import Mathlib

/-!
# Dead parts of a state

A machine whose state is a family of cells and a rest.  Each instruction reads some cells, defines
some, and passes the others on.

* `Machine` — the machine; `run` — a piece of straight-line code;
* `Redefined` — code that defines every cell before it reads one;
* `run_eq_of_redefined` — its runs from states that differ in cells only end in one state;
  `before_agrees` — and each of its instructions finds the rest, and the cells it reads, the same.
-/

namespace PS4Recomp.Library.DeadState

variable {I K V S : Type}

/-- A machine with cells `K → V` and a rest `S`.  What an instruction makes of a cell, and of the rest,
depends on the rest, the cells it reads and, for a cell it does not define, the cell itself. -/
structure Machine (I K V S : Type) where
  step : I → (K → V) × S → (K → V) × S
  reads : I → Set K
  defines : I → Set K
  step_rest : ∀ i f g s, (∀ k ∈ reads i, f k = g k) → (step i (f, s)).2 = (step i (g, s)).2
  step_cell : ∀ i f g s k, (∀ k ∈ reads i, f k = g k) → k ∈ defines i ∨ f k = g k →
    (step i (f, s)).1 k = (step i (g, s)).1 k

variable (M : Machine I K V S)

/-- Straight-line code. -/
def Machine.run (is : List I) (x : (K → V) × S) : (K → V) × S := is.foldl (fun x i => M.step i x) x

theorem Machine.run_append (is js : List I) (x : (K → V) × S) :
    M.run (is ++ js) x = M.run js (M.run is x) := List.foldl_append

/-- Every cell is defined before one is read, and before the code ends. -/
def Machine.Redefined (is : List I) : Prop :=
  ∃ mid d rest, is = mid ++ d :: rest ∧ (∀ i ∈ mid, M.reads i = ∅) ∧ M.reads d = ∅ ∧
    M.defines d = Set.univ

variable {M}

theorem rest_eq_of_no_reads {is : List I} (h : ∀ i ∈ is, M.reads i = ∅) (f g : K → V) (s : S) :
    (M.run is (f, s)).2 = (M.run is (g, s)).2 := by
  induction is generalizing f g s with
  | nil => rfl
  | cons i is ih =>
      have hreads := h i (by simp)
      have hrest := M.step_rest i f g s (by simp [hreads])
      show (M.run is ((M.step i (f, s)).1, (M.step i (f, s)).2)).2 =
        (M.run is ((M.step i (g, s)).1, (M.step i (g, s)).2)).2
      rw [hrest]
      exact ih (fun j hj => h j (by simp [hj])) _ _ _

/-- An instruction that defines every cell and reads none forgets them. -/
theorem step_eq_of_defines {d : I} (hreads : M.reads d = ∅) (hdefs : M.defines d = Set.univ)
    (f g : K → V) (s : S) : M.step d (f, s) = M.step d (g, s) := by
  have hno : ∀ k ∈ M.reads d, f k = g k := by simp [hreads]
  apply Prod.ext
  · funext k
    exact M.step_cell d f g s k hno (.inl (by simp [hdefs]))
  · exact M.step_rest d f g s hno

/-- **Runs that differ in dead cells** end in one state. -/
theorem run_eq_of_redefined {is : List I} (h : M.Redefined is) (f g : K → V) (s : S) :
    M.run is (f, s) = M.run is (g, s) := by
  obtain ⟨mid, d, rest, rfl, hmid, hreads, hdefs⟩ := h
  have hrest := rest_eq_of_no_reads hmid f g s
  have hstep := step_eq_of_defines hreads hdefs (M.run mid (f, s)).1 (M.run mid (g, s)).1
    (M.run mid (f, s)).2
  rw [Machine.run_append, Machine.run_append]
  show M.run rest (M.step d ((M.run mid (f, s)).1, (M.run mid (f, s)).2)) =
    M.run rest (M.step d ((M.run mid (g, s)).1, (M.run mid (g, s)).2))
  rw [hstep, hrest]

theorem before_agrees {is pre post : List I} {i : I} (h : M.Redefined is) (hs : is = pre ++ i :: post)
    (f g : K → V) (s : S) : (M.run pre (f, s)).2 = (M.run pre (g, s)).2 ∧
      ∀ k ∈ M.reads i, (M.run pre (f, s)).1 k = (M.run pre (g, s)).1 k := by
  obtain ⟨mid, d, rest, rfl, hmid, hreads, hdefs⟩ := h
  rcases List.append_eq_append_iff.1 hs with ⟨as, rfl, hd⟩ | ⟨as, rfl, hi⟩
  · -- the instruction is not before the one that defines
    cases as with
    | nil =>
        rw [List.append_nil]
        rw [List.nil_append] at hd
        obtain ⟨rfl, -⟩ := List.cons.inj hd
        exact ⟨rest_eq_of_no_reads hmid f g s, by simp [hreads]⟩
    | cons a as =>
        obtain ⟨rfl, -⟩ := List.cons.inj hd
        have heq := run_eq_of_redefined ⟨mid, d, as, rfl, hmid, hreads, hdefs⟩ f g s
        rw [heq]
        exact ⟨rfl, fun _ _ => rfl⟩
  · cases as with
    | nil =>
        rw [List.append_nil] at hmid
        obtain ⟨rfl, -⟩ := List.cons.inj hi
        exact ⟨rest_eq_of_no_reads hmid f g s, by simp [hreads]⟩
    | cons a as =>
        obtain ⟨rfl, -⟩ := List.cons.inj hi
        exact ⟨rest_eq_of_no_reads (fun j hj => hmid j (by simp [hj])) f g s,
          by simp [hmid i (by simp)]⟩

end PS4Recomp.Library.DeadState
