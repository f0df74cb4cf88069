import PS4Recomp.Arm64.Machine

/-!
# Running lowered code

* `Line` — a line of the lowered text: a label, an instruction or a comment;
* `stepLine`, `run`, `trace` — one line, a run of the text with its outcome, and the instructions
  it executes;
* `run_mono` — more fuel changes no outcome;
* `Ends` — the text runs past its last line, and in which state;
* `Framed`, `Outcome.Rel` — a register the text does not name, and outcomes with related states.

A branch goes to its label in the text, looked for in the lines that follow first; labels are
unique in an assembly file.  A branch to a label that is not in the text leaves it.
-/

namespace PS4Recomp.Arm64

variable {L : Type}

/-- A line of lowered text. -/
inductive Line (L : Type) where
  | label (l : L)
  | ins (i : Instr L)
  | comment (text : String)

/-- The lines of a list of instructions. -/
def asm (is : List (Instr L)) : List (Line L) := is.map .ins

@[simp] theorem asm_nil : asm ([] : List (Instr L)) = [] := rfl

@[simp] theorem asm_cons (i : Instr L) (is : List (Instr L)) : asm (i :: is) = .ins i :: asm is := rfl

theorem asm_append (is js : List (Instr L)) : asm (is ++ js) = asm is ++ asm js := List.map_append

/-- How a run ends: past the last line, at a label outside the text, at a return, or in a fault. -/
inductive Outcome (L : Type) where
  | fall (s : State)
  | goto (l : L) (s : State)
  | ret (s : State)
  | fault

/-- What one line does: control goes on at the lines `k`, or the run ends. -/
inductive Next (L : Type) where
  | go (k : List (Line L)) (s : State)
  | stop (o : Outcome L)

/-- The return. -/
def Instr.isRet : Instr L → Bool
  | .ret => true
  | _ => false

/-- The instructions that never branch. -/
def Instr.straight : Instr L → Bool
  | .b .. | .bCond .. | .cbz .. | .cbnz .. | .tbz .. | .ret => false
  | _ => true

/-- The instructions that neither branch nor fault, whatever the state. -/
def Instr.plain : Instr L → Bool
  | .ldapr .. | .stlr .. | .atomic .. | .swpal .. | .casal .. | .caspal .. | .ldaxr .. | .stlxr ..
  | .brk => false
  | i => i.straight

/-- The state after a list of instructions that neither branch nor fault. -/
def execs (is : List (Instr L)) (s : State) : State := is.foldl (fun s i => i.exec s) s

@[simp] theorem execs_nil (s : State) : execs ([] : List (Instr L)) s = s := rfl

@[simp] theorem execs_cons (i : Instr L) (is : List (Instr L)) (s : State) :
    execs (i :: is) s = execs is (i.exec s) := rfl

theorem execs_append (is js : List (Instr L)) (s : State) :
    execs (is ++ js) s = execs js (execs is s) := List.foldl_append

/-! ### straight-line code -/

/-- None of the instructions branches, and none faults on the way. -/
def Clear : List (Instr L) → State → Prop
  | [], _ => True
  | i :: is, s => i.straight = true ∧ i.faults s = false ∧ Clear is (i.exec s)

theorem clear_append {is js : List (Instr L)} : ∀ {s : State}, Clear is s → Clear js (execs is s) →
    Clear (is ++ js) s := by
  induction is with
  | nil => exact fun _ h => h
  | cons i is ih => exact fun h h' => ⟨h.1, h.2.1, ih h.2.2 h'⟩

theorem clear_of_plain {is : List (Instr L)} (h : ∀ i ∈ is, i.plain = true) :
    ∀ s : State, Clear is s := by
  induction is with
  | nil => exact fun _ => trivial
  | cons i is ih =>
      intro s
      have hi := h i List.mem_cons_self
      refine ⟨?_, ?_, ih (fun j hj => h j (List.mem_cons_of_mem i hj)) _⟩
      · cases i <;> first | rfl | exact hi
      · cases i <;> first | rfl | cases hi

/-! ### runs -/

variable [DecidableEq L]

/-- The lines after a label. -/
def resolve (l : L) : List (Line L) → Option (List (Line L))
  | [] => none
  | .label l' :: k => if l' = l then some k else resolve l k
  | _ :: k => resolve l k

/-- One line of `code`, with the lines from it on. -/
def stepLine (code : List (Line L)) : List (Line L) → State → Next L
  | [], s => .stop (.fall s)
  | .label _ :: k, s | .comment _ :: k, s => .go k s
  | .ins i :: k, s =>
      if i.faults s then .stop .fault
      else if i.isRet then .stop (.ret s)
      else
        match i.branch s with
        | none => .go k (i.exec s)
        | some l =>
            match (resolve l k).or (resolve l code) with
            | some k' => .go k' s
            | none => .stop (.goto l s)

/-- A run of `code` from the lines `k` on. -/
def run (code : List (Line L)) : ℕ → List (Line L) → State → Option (Outcome L)
  | 0, _, _ => none
  | fuel + 1, k, s =>
      match stepLine code k s with
      | .stop o => some o
      | .go k' s' => run code fuel k' s'

/-- The instructions a run executes. -/
def trace (code : List (Line L)) : ℕ → List (Line L) → State → List (Instr L)
  | 0, _, _ => []
  | fuel + 1, k, s =>
      let here := match k with
        | .ins i :: _ => [i]
        | _ => []
      match stepLine code k s with
      | .stop _ => here
      | .go k' s' => here ++ trace code fuel k' s'

theorem stepLine_straight (code k : List (Line L)) {i : Instr L} {s : State}
    (hi : i.straight = true) (hf : i.faults s = false) :
    stepLine code (.ins i :: k) s = .go k (i.exec s) := by
  have hret : i.isRet = false := by cases i <;> first | rfl | cases hi
  have hbranch : i.branch s = none := by cases i <;> first | rfl | cases hi
  simp [stepLine, hf, hret, hbranch]

/-- **Straight-line code** runs to its end. -/
theorem run_clear (code : List (Line L)) (fuel : ℕ) : ∀ (is : List (Instr L)) (k : List (Line L))
    (s : State), Clear is s →
    run code (fuel + is.length) (asm is ++ k) s = run code fuel k (execs is s) := by
  intro is
  induction is with
  | nil => exact fun k s _ => rfl
  | cons i is ih =>
      intro k s h
      rw [List.length_cons, ← Nat.add_assoc, asm_cons, List.cons_append, run,
        stepLine_straight code _ h.1 h.2.1]
      exact ih k (i.exec s) h.2.2

theorem trace_clear (code : List (Line L)) (fuel : ℕ) : ∀ (is : List (Instr L))
    (k : List (Line L)) (s : State), Clear is s →
    trace code (fuel + is.length) (asm is ++ k) s = is ++ trace code fuel k (execs is s) := by
  intro is
  induction is with
  | nil => exact fun k s _ => rfl
  | cons i is ih =>
      intro k s h
      rw [List.length_cons, ← Nat.add_assoc, asm_cons, List.cons_append, trace,
        stepLine_straight code _ h.1 h.2.1]
      show [i] ++ trace code (fuel + is.length) (asm is ++ k) (i.exec s) = _
      rw [ih k (i.exec s) h.2.2]
      rfl

theorem run_label (code : List (Line L)) (fuel : ℕ) (l : L) (k : List (Line L)) (s : State) :
    run code (fuel + 1) (.label l :: k) s = run code fuel k s ∧
      trace code (fuel + 1) (.label l :: k) s = trace code fuel k s := ⟨rfl, rfl⟩

theorem stepLine_next (code k : List (Line L)) {i : Instr L} {s : State}
    (hf : i.faults s = false) (hret : i.isRet = false) (hb : i.branch s = none) :
    stepLine code (.ins i :: k) s = .go k (i.exec s) := by
  simp [stepLine, hf, hret, hb]

theorem stepLine_fault (code k : List (Line L)) {i : Instr L} {s : State}
    (hf : i.faults s = true) : stepLine code (.ins i :: k) s = .stop .fault := by
  simp [stepLine, hf]

theorem stepLine_ret (code k : List (Line L)) {i : Instr L} {s : State}
    (hf : i.faults s = false) (hret : i.isRet = true) :
    stepLine code (.ins i :: k) s = .stop (.ret s) := by
  simp [stepLine, hf, hret]

theorem stepLine_jump (code k : List (Line L)) {i : Instr L} {s : State} {l : L}
    (hf : i.faults s = false) (hret : i.isRet = false) (hb : i.branch s = some l) :
    stepLine code (.ins i :: k) s =
      match (resolve l k).or (resolve l code) with
      | some k' => .go k' s
      | none => .stop (.goto l s) := by
  simp [stepLine, hf, hret, hb]

theorem stepLine_branch (code k : List (Line L)) {i : Instr L} {s : State} {l : L}
    (hf : i.faults s = false) (hret : i.isRet = false) (hb : i.branch s = some l)
    {k' : List (Line L)} (hk : resolve l k = some k') :
    stepLine code (.ins i :: k) s = .go k' s := by
  rw [stepLine_jump code k hf hret hb, hk]
  rfl

theorem resolve_asm (l : L) (is : List (Instr L)) (k : List (Line L)) :
    resolve l (asm is ++ k) = resolve l k := by
  induction is with
  | nil => rfl
  | cons i is ih => exact ih

theorem run_mono (code : List (Line L)) {o : Outcome L} : ∀ {fuel fuel' : ℕ} {k : List (Line L)}
    {s : State}, fuel ≤ fuel' → run code fuel k s = some o → run code fuel' k s = some o := by
  intro fuel
  induction fuel with
  | zero => intro fuel' k s _ h; cases h
  | succ fuel ih =>
      intro fuel' k s hle h
      obtain ⟨m, rfl⟩ : ∃ m, fuel' = m + 1 := ⟨fuel' - 1, by omega⟩
      simp only [run] at h ⊢
      split
      · rename_i hstep
        rw [hstep] at h
        exact h
      · rename_i hstep
        rw [hstep] at h
        exact ih (by omega) h

/-! ### text that runs to its end -/

/-- The text runs past its last line, in the state `s'`. -/
def Ends (code : List (Line L)) (s s' : State) : Prop :=
  ∃ fuel, run code fuel code s = some (.fall s')

theorem ends_asm {is : List (Instr L)} {s : State} (h : Clear is s) :
    Ends (asm is) s (execs is s) := by
  refine ⟨1 + is.length, ?_⟩
  have hrun := run_clear (asm is) 1 is [] s h
  rw [List.append_nil] at hrun
  exact hrun

theorem Ends.unique {code : List (Line L)} {s s₁ s₂ : State} (h₁ : Ends code s s₁)
    (h₂ : Ends code s s₂) : s₁ = s₂ := by
  obtain ⟨n, h₁⟩ := h₁
  obtain ⟨m, h₂⟩ := h₂
  rcases Nat.le_total n m with hle | hle
  · have h := run_mono code hle h₁
    rw [h₂] at h
    cases h
    rfl
  · have h := run_mono code hle h₂
    rw [h₁] at h
    cases h
    rfl

/-! ### registers the text does not name -/

/-- No line names the register. -/
def Framed (r : XReg) (code : List (Line L)) : Prop := ∀ i, .ins i ∈ code → r ∉ i.regs

/-- Outcomes of the same kind with related states. -/
inductive Outcome.Rel (R : State → State → Prop) : Outcome L → Outcome L → Prop where
  | fall {s t : State} : R s t → Rel R (.fall s) (.fall t)
  | goto {l : L} {s t : State} : R s t → Rel R (.goto l s) (.goto l t)
  | ret {s t : State} : R s t → Rel R (.ret s) (.ret t)
  | fault : Rel R .fault .fault

theorem resolve_suffix {l : L} {k k' : List (Line L)} (h : resolve l k = some k') : k' <:+ k := by
  induction k with
  | nil => cases h
  | cons ln k ih =>
      cases ln with
      | label l' =>
          simp only [resolve] at h
          split at h
          · cases h
            exact List.suffix_cons _ _
          · exact (ih h).trans (List.suffix_cons _ _)
      | ins i => exact (ih h).trans (List.suffix_cons _ _)
      | comment c => exact (ih h).trans (List.suffix_cons _ _)

end PS4Recomp.Arm64
