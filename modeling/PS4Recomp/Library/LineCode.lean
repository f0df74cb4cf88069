import Mathlib

/-!
# Code with numbered labels

Lines of instructions and numbered labels, for any kind of instruction.

* `Machine` — what instructions do and where they branch, `Line` — a label or an instruction;
* `find`, `step` — a branch goes to the next line with its label, or, where there is none, to the first;
* `Goes`, `Ends` — one place of the text is reached from another, and its end from the start;
* `execs`, `goes_block` — code that does not branch;
* `goes_taken`, `goes_label` — a branch that is taken, and a label;
* `Goes.last_unique`, `Ends.unique` — the state at the end is determined;
* `Leads` — a run from a line on to the end.
-/

namespace PS4Recomp.Library.LineCode

/-- What instructions do to a state, and the label they branch to, if they do. -/
structure Machine (S I : Type*) where
  exec : I → S → S
  target : I → S → Option ℕ

/-- A line of code. -/
inductive Line (I : Type*) where
  | label (n : ℕ)
  | ins (i : I)

variable {S I : Type*}

/-- The lines after the next one with a label. -/
def find (n : ℕ) : List (Line I) → Option (List (Line I))
  | [] => none
  | .label m :: k => if m = n then some k else find n k
  | .ins _ :: k => find n k

namespace Machine

variable (M : Machine S I)

/-- One line of `code`, with the lines from it on; `none` at the end of the text. -/
def step (code : List (Line I)) : List (Line I) × S → Option (List (Line I) × S)
  | ([], _) => none
  | (.label _ :: k, s) => some (k, s)
  | (.ins i :: k, s) =>
      match M.target i s with
      | none => some (k, M.exec i s)
      | some n => ((find n k).or (find n code)).map fun k' => (k', s)

/-- A run from one place and state to another. -/
def Goes (code : List (Line I)) : List (Line I) × S → List (Line I) × S → Prop :=
  Relation.ReflTransGen fun a b => M.step code a = some b

/-- The state after instructions that do not branch. -/
def execs (is : List I) (s : S) : S := is.foldl (fun s i => M.exec i s) s

/-- An instruction that never branches. -/
def Straight (i : I) : Prop := ∀ s, M.target i s = none

end Machine

variable {M : Machine S I} {code : List (Line I)} {k k' : List (Line I)} {s s' : S} {i : I} {n : ℕ}

/-- Lines of instructions only. -/
def lines (is : List I) : List (Line I) := is.map .ins

namespace Machine

theorem Goes.refl (a : List (Line I) × S) : M.Goes code a a := Relation.ReflTransGen.refl

theorem Goes.trans {a b c : List (Line I) × S} (h : M.Goes code a b) (h' : M.Goes code b c) :
    M.Goes code a c := Relation.ReflTransGen.trans h h'

theorem goes_step {a b : List (Line I) × S} (h : M.step code a = some b) : M.Goes code a b :=
  Relation.ReflTransGen.single h

theorem goes_label (n : ℕ) : M.Goes code (.label n :: k, s) (k, s) := goes_step rfl

theorem goes_ins (h : M.target i s = none) : M.Goes code (.ins i :: k, s) (k, M.exec i s) := by
  refine goes_step ?_
  rw [step, h]

/-- **A branch that is taken.** -/
theorem goes_taken (h : M.target i s = some n) (hfind : (find n k).or (find n code) = some k') :
    M.Goes code (.ins i :: k, s) (k', s) := by
  refine goes_step ?_
  rw [step, h]
  dsimp only
  rw [hfind]
  rfl

/-- **Code that does not branch.** -/
theorem goes_block {is : List I} (h : ∀ i ∈ is, M.Straight i) :
    M.Goes code (lines is ++ k, s) (k, M.execs is s) := by
  induction is generalizing s with
  | nil => exact .refl _
  | cons i is ih =>
      exact (goes_ins (h i List.mem_cons_self s)).trans (ih fun j hj => h j (List.mem_cons_of_mem i hj))

theorem execs_append (is js : List I) (s : S) : M.execs (is ++ js) s = M.execs js (M.execs is s) :=
  List.foldl_append

/-- Two runs to the end of the text reach the same state. -/
theorem Goes.last_unique {a : List (Line I) × S} (h : M.Goes code a ([], s)) (h' : M.Goes code a ([], s')) :
    s = s' := by
  induction h using Relation.ReflTransGen.head_induction_on with
  | refl =>
      rcases Relation.ReflTransGen.cases_head h' with heq | ⟨b, hb, -⟩
      · cases heq
        rfl
      · cases hb
  | head hstep _ ih =>
      rcases Relation.ReflTransGen.cases_head h' with heq | ⟨b, hb, hrest⟩
      · rw [heq] at hstep
        cases hstep
      · rw [hstep] at hb
        cases hb
        exact ih hrest

/-! ### the code from a line on -/

/-- The code from line `n` on runs to the end, with a property of the last state. -/
def Leads (M : Machine S I) (code : List (Line I)) (n : ℕ) (s : S) (P : S → Prop) : Prop :=
  ∃ s', M.Goes code (code.drop n, s) ([], s') ∧ P s'

variable {P : S → Prop} {m l m' : ℕ} {is : List I}

theorem Leads.of_goes (h : M.Goes code (code.drop n, s) (code.drop m, s')) (h' : M.Leads code m s' P) :
    M.Leads code n s P := by
  obtain ⟨t, hrun, ht⟩ := h'
  exact ⟨t, h.trans hrun, ht⟩

theorem Leads.label (hk : code.drop n = .label l :: code.drop m) (h : M.Leads code m s P) :
    M.Leads code n s P :=
  .of_goes (hk ▸ goes_label l) h

theorem Leads.block (hk : code.drop n = lines is ++ code.drop m) (his : ∀ i ∈ is, M.Straight i)
    (h : M.Leads code m (M.execs is s) P) : M.Leads code n s P :=
  .of_goes (hk ▸ goes_block his) h

theorem Leads.finish (hk : code.drop n = lines is) (his : ∀ i ∈ is, M.Straight i) (h : P (M.execs is s)) :
    M.Leads code n s P := by
  have hrun : M.Goes code (lines is ++ [], s) ([], M.execs is s) := goes_block his
  rw [List.append_nil] at hrun
  exact ⟨_, hk ▸ hrun, h⟩

theorem Leads.branch {p : Prop} [Decidable p] (hk : code.drop n = .ins i :: code.drop m)
    (htarget : M.target i s = if p then some l else none) (hexec : M.exec i s = s)
    (hfind : (find l (code.drop m)).or (find l code) = some (code.drop m'))
    (h : p → M.Leads code m' s P) (h' : ¬ p → M.Leads code m s P) : M.Leads code n s P := by
  by_cases hp : p
  · rw [if_pos hp] at htarget
    exact .of_goes (hk ▸ goes_taken htarget hfind) (h hp)
  · rw [if_neg hp] at htarget
    have hrun : M.Goes code (.ins i :: code.drop m, s) (code.drop m, M.exec i s) := goes_ins htarget
    rw [hexec] at hrun
    exact .of_goes (hk ▸ hrun) (h' hp)

end Machine

end PS4Recomp.Library.LineCode
