import PS4Recomp.Lifter.VectorExt
import Mathlib.Data.Fintype.Basic
import Mathlib.Data.Fintype.Card
import Mathlib.Data.Finset.Card

/-!
# The upper halves of the YMM registers

`fixUpperHalves`: a lowering uses `v16`-`v31` as temporaries, and in a function with YMM code the same
registers hold the upper halves of the guest's YMM registers.

* `opnd`, `scratchOf`, `legit` — the upper halves a lowering names by placeholders, its temporaries,
  and the upper halves the instruction itself reads or writes;
* `renameLoop` — the loop that moves temporaries out of the way of these;
* `saves`, `restores`, `fixUpperHalves` — the rewriting;
* `Renamed`, `renamed_loop` — what the loop keeps, and what it leaves;
* `resolve_injOn` — the names of a lowering stay distinct;
* `runs_saved` — code between the saves and the restores;
* `fixUpperHalves_right` — the rewritten code does what the lowering does with temporaries of its own,
  and leaves every upper half the instruction does not touch as it was.
-/

namespace PS4Recomp.Lifter

open X86 Library Library.CellCode

variable {V S Op L : Type}

/-- `v0`-`v15` and `v16`-`v31`. -/
inductive VecReg where
  | low (n : Fin 16) | high (n : Half)
  deriving DecidableEq, Repr

/-! ### what a lowering names -/

/-- The upper halves named by placeholders. -/
def opnd (body : List (Line VecName Op L)) : Finset Half :=
  Finset.univ.filter fun n => ∃ ln ∈ body, VecName.upper n ∈ ln.names

/-- The temporaries among `v16`-`v31`. -/
def scratchOf (body : List (Line VecName Op L)) : Finset Half :=
  Finset.univ.filter fun n => ∃ ln ∈ body, VecName.high n ∈ ln.names

/-- `vecArg0IsSource`. -/
def vecArg0IsSource : X86.Op → Bool
  | .vcomiss | .vucomiss | .vcomisd | .vucomisd | .vptest | .vtestps | .vtestpd => true
  | _ => false

/-- The upper half operand `i` makes the instruction read or write. -/
def legitArg (inst : Inst) (i : ℕ) (n : Half) : Arg → Bool
  | .reg (.ymm r) => r.val == n.val
  | .reg (.xmm r) => i == 0 && inst.op.nameV && !vecArg0IsSource inst.op && r.val == n.val
  | _ => false

/-- The upper halves the instruction reads or writes. -/
def legit (inst : Inst) : Finset Half :=
  Finset.univ.filter fun n => ∃ p ∈ inst.args.zipIdx, legitArg inst p.2 n p.1 = true

/-! ### renaming -/

/-- The loop's variables: registers nothing needs, temporaries in use, and new names. -/
structure Renames where
  free : Finset Half
  scratch : Finset Half
  rename : Half → Option Half

/-- The highest free register (the loop over `m`). -/
def highest (free : Finset Half) : Option Half :=
  (List.finRange 16).reverse.find? fun m => m ∈ free

/-- One turn of the loop over `n`. -/
def renameTurn (reserved : Finset Half) (r : Renames) (n : Half) : Renames :=
  if n ∈ r.scratch ∧ n ∈ reserved then
    match highest r.free with
    | some m =>
        { free := r.free.erase m, scratch := insert m (r.scratch.erase n)
          rename := Function.update r.rename n (some m) }
    | none => r
  else r

/-- The variables before the loop. -/
def renameStart (reserved scratch : Finset Half) : Renames where
  free := (reserved ∪ scratch)ᶜ
  scratch := scratch
  rename _ := none

/-- The loop. -/
def renameLoop (reserved scratch : Finset Half) : Renames :=
  (List.finRange 16).foldl (renameTurn reserved) (renameStart reserved scratch)

theorem renameLoop_eq (reserved scratch : Finset Half) : renameLoop reserved scratch =
    (List.finRange 16).foldl (renameTurn reserved) (renameStart reserved scratch) := rfl

-- the turns are not to be run while names are compared
attribute [irreducible] renameLoop

/-- A name with the temporaries renamed and the placeholders replaced. -/
def VecName.resolve (rename : Half → Option Half) : VecName → VecReg
  | .low n => .low n
  | .high n => .high ((rename n).getD n)
  | .upper n => .high n

/-! ### the rewriting -/

/-- `stp` and `str`, in pairs. -/
def saves : List Half → List (Line VecReg (Spilled Op) L)
  | a :: b :: regs => .op .push [] [.high a, .high b] :: saves regs
  | [a] => [.op .push [] [.high a]]
  | [] => []

/-- `ldp` and `ldr`, in the opposite order. -/
def restores : List Half → List (Line VecReg (Spilled Op) L)
  | a :: b :: regs => restores regs ++ [.op (.pop 2) [.high a, .high b] []]
  | [a] => [.op (.pop 1) [.high a] []]
  | [] => []

/-- VZEROUPPER and VZEROALL, numbered after the operations of `VecInst`. -/
def isVzero (op : X86.Op) : Bool := op == .otherV 16 || op == .otherV 17

/-- The first line, if it is a comment, and the others. -/
def splitComment : List (Line VecReg Op L) → List (Line VecReg Op L) × List (Line VecReg Op L)
  | .note t :: rest => if t.startsWith "//" then ([.note t], rest) else ([], .note t :: rest)
  | body => ([], body)

/-- The lines of `fixUpperHalves` after the renaming. -/
def renamedBody (inst : Inst) (body : List (Line VecName Op L)) : List (Line VecReg (Spilled Op) L) :=
  (body.map (Line.map (VecName.resolve (renameLoop (opnd body ∪ legit inst) (scratchOf body)).rename))).map
    Line.inner

/-- The registers saved around the lowering, in ascending order. -/
def spilledRegs (inst : Inst) (body : List (Line VecName Op L)) : List Half :=
  (List.finRange 16).filter fun n =>
    n ∈ ((renameLoop (opnd body ∪ legit inst) (scratchOf body)).scratch ∪ opnd body) \ legit inst

/-- `fixUpperHalves`, for the lowering of one instruction.  `leaves` tells the lines on which control
leaves the instruction: `ret`, `br`, and `b` and `b.cond` to an `L_fn_` label. -/
def fixUpperHalves (leaves : Op → Bool) (inst : Inst) (body : List (Line VecName Op L))
    (ymmFn : Bool) : List (Line VecReg (Spilled Op) L) :=
  if opnd body = ∅ ∧ (scratchOf body = ∅ ∨ ymmFn = false) then
    (body.map (Line.map (VecName.resolve fun _ => none))).map Line.inner
  else if ymmFn = false ∨ isVzero inst.op = true then renamedBody inst body
  else if body.any (fun ln => ln.leaves leaves) then renamedBody inst body
  else
    let (head, rest) := splitComment (renamedBody inst body)
    head ++ saves (spilledRegs inst body) ++ rest ++ restores (spilledRegs inst body)

/-! ### what the loop leaves -/

section Loop

variable {reserved scratch : Finset Half} {r : Renames}

theorem highest_mem {free : Finset Half} {m : Half} (h : highest free = some m) : m ∈ free := by
  have hfound := List.find?_some h
  simpa using hfound

theorem highest_none {free : Finset Half} (h : highest free = none) : free = ∅ := by
  refine Finset.eq_empty_of_forall_notMem fun m hm => ?_
  have hnot := List.find?_eq_none.1 h m (List.mem_reverse.2 (List.mem_finRange m))
  exact hnot (by simpa using hm)

/-- The temporaries that still have the name of a reserved register. -/
def collisions (reserved scratch : Finset Half) (r : Renames) : Finset Half :=
  (scratch ∩ reserved).filter fun n => r.rename n = none

/-- What every turn of the loop keeps: new names are free, distinct, and there are enough of them. -/
structure Renamed (reserved scratch : Finset Half) (r : Renames) : Prop where
  free : ∀ m ∈ r.free, m ∉ reserved ∧ m ∉ scratch
  taken : ∀ n m, r.rename n = some m → m ∉ r.free
  source : ∀ n m, r.rename n = some m → n ∈ scratch ∧ n ∈ reserved
  target : ∀ n m, r.rename n = some m → m ∉ reserved ∧ m ∉ scratch
  inj : ∀ n n' m, r.rename n = some m → r.rename n' = some m → n = n'
  names : ∀ q, q ∈ r.scratch ↔ (q ∈ scratch ∧ r.rename q = none) ∨ ∃ n, r.rename n = some q
  room : (collisions reserved scratch r).card ≤ r.free.card

/-- The loop looks at the temporaries that still collide. -/
theorem Renamed.mem_iff (h : Renamed reserved scratch r) (n : Half) :
    (n ∈ r.scratch ∧ n ∈ reserved) ↔ n ∈ collisions reserved scratch r := by
  simp only [collisions, Finset.mem_filter, Finset.mem_inter]
  constructor
  · rintro ⟨hn, hres⟩
    rcases (h.names n).1 hn with ⟨hs, hnone⟩ | ⟨q, hq⟩
    · exact ⟨⟨hs, hres⟩, hnone⟩
    · exact absurd hres (h.target q n hq).1
  · rintro ⟨⟨hs, hres⟩, hnone⟩
    exact ⟨(h.names n).2 (Or.inl ⟨hs, hnone⟩), hres⟩

theorem Renamed.highest_some (h : Renamed reserved scratch r) {n : Half}
    (hn : n ∈ collisions reserved scratch r) : ∃ m, highest r.free = some m := by
  cases hh : highest r.free with
  | some m => exact ⟨m, rfl⟩
  | none =>
      have hroom := h.room
      rw [highest_none hh, Finset.card_empty, Nat.le_zero, Finset.card_eq_zero] at hroom
      rw [hroom] at hn
      exact absurd hn (Finset.notMem_empty n)

theorem Renamed.rename (h : Renamed reserved scratch r) {n m : Half}
    (hn : n ∈ collisions reserved scratch r) (hm : m ∈ r.free) :
    Renamed reserved scratch
      { free := r.free.erase m, scratch := insert m (r.scratch.erase n)
        rename := Function.update r.rename n (some m) } := by
  simp only [collisions, Finset.mem_filter, Finset.mem_inter] at hn
  obtain ⟨⟨hns, hnr⟩, hnone⟩ := hn
  obtain ⟨hmr, hms⟩ := h.free m hm
  have hother : ∀ {q k}, Function.update r.rename n (some m) q = some k →
      (q = n ∧ k = m) ∨ (q ≠ n ∧ r.rename q = some k) := by
    intro q k hq
    by_cases hqn : q = n
    · subst hqn
      rw [Function.update_self] at hq
      exact Or.inl ⟨rfl, (Option.some.inj hq).symm⟩
    · rw [Function.update_of_ne hqn] at hq
      exact Or.inr ⟨hqn, hq⟩
  constructor
  · exact fun k hk => h.free k (Finset.mem_of_mem_erase hk)
  · intro q k hq hk
    rcases hother hq with ⟨-, rfl⟩ | ⟨-, hold⟩
    · exact Finset.notMem_erase k r.free hk
    · exact h.taken q k hold (Finset.mem_of_mem_erase hk)
  · intro q k hq
    rcases hother hq with ⟨rfl, -⟩ | ⟨-, hold⟩
    · exact ⟨hns, hnr⟩
    · exact h.source q k hold
  · intro q k hq
    rcases hother hq with ⟨-, rfl⟩ | ⟨-, hold⟩
    · exact ⟨hmr, hms⟩
    · exact h.target q k hold
  · intro q q' k hq hq'
    rcases hother hq with ⟨rfl, rfl⟩ | ⟨-, hold⟩
    · rcases hother hq' with ⟨rfl, -⟩ | ⟨-, hold'⟩
      · rfl
      · exact absurd hm (h.taken q' k hold')
    · rcases hother hq' with ⟨rfl, rfl⟩ | ⟨-, hold'⟩
      · exact absurd hm (h.taken q k hold)
      · exact h.inj q q' k hold hold'
  · intro q
    have hmn : m ≠ n := fun heq => hms (by rw [heq]; exact hns)
    simp only [Finset.mem_insert, Finset.mem_erase]
    constructor
    · rintro (rfl | ⟨hqn, hq⟩)
      · exact Or.inr ⟨n, Function.update_self ..⟩
      · rcases (h.names q).1 hq with ⟨hqs, hnone'⟩ | ⟨k, hk⟩
        · exact Or.inl ⟨hqs, by rw [Function.update_of_ne hqn]; exact hnone'⟩
        · have hkn : k ≠ n := fun heq => by rw [heq, hnone] at hk; cases hk
          exact Or.inr ⟨k, by rw [Function.update_of_ne hkn]; exact hk⟩
    · rintro (⟨hqs, hq⟩ | ⟨k, hk⟩)
      · have hqn : q ≠ n := fun heq => by rw [heq, Function.update_self] at hq; cases hq
        rw [Function.update_of_ne hqn] at hq
        exact Or.inr ⟨hqn, (h.names q).2 (Or.inl ⟨hqs, hq⟩)⟩
      · rcases hother hk with ⟨-, rfl⟩ | ⟨-, hold⟩
        · exact Or.inl rfl
        · have hqn : q ≠ n := fun heq => (h.target k q hold).2 (by rw [heq]; exact hns)
          exact Or.inr ⟨hqn, (h.names q).2 (Or.inr ⟨k, hold⟩)⟩
  · have hsub : collisions reserved scratch
        { free := r.free.erase m, scratch := insert m (r.scratch.erase n)
          rename := Function.update r.rename n (some m) } ⊆
        (collisions reserved scratch r).erase n := by
      intro q hq
      simp only [collisions, Finset.mem_filter, Finset.mem_erase] at hq ⊢
      have hqn : q ≠ n := fun heq => by
        have hnew := hq.2
        rw [heq, Function.update_self] at hnew
        cases hnew
      rw [Function.update_of_ne hqn] at hq
      exact ⟨hqn, hq⟩
    have hmem : n ∈ collisions reserved scratch r := by
      simp only [collisions, Finset.mem_filter, Finset.mem_inter]
      exact ⟨⟨hns, hnr⟩, hnone⟩
    have hcard := Finset.card_le_card hsub
    rw [Finset.card_erase_of_mem hmem] at hcard
    rw [Finset.card_erase_of_mem hm]
    exact hcard.trans (Nat.sub_le_sub_right h.room 1)

/-- **One turn.**  It keeps the invariant and the names given, and leaves its register without a
collision. -/
theorem renameTurn_renamed (h : Renamed reserved scratch r) (n : Half) :
    Renamed reserved scratch (renameTurn reserved r n) ∧
      n ∉ collisions reserved scratch (renameTurn reserved r n) ∧
      ∀ q, q ∉ collisions reserved scratch r →
        q ∉ collisions reserved scratch (renameTurn reserved r n) := by
  by_cases hn : n ∈ collisions reserved scratch r
  · obtain ⟨m, hm⟩ := h.highest_some hn
    rw [renameTurn, if_pos ((h.mem_iff n).2 hn), hm]
    refine ⟨h.rename hn (highest_mem hm), fun hmem => ?_, fun q hq hmem => hq ?_⟩
    · simp only [collisions, Finset.mem_filter, Function.update_self] at hmem
      cases hmem.2
    · simp only [collisions, Finset.mem_filter] at hmem ⊢
      have hqn : q ≠ n := fun heq => by
        have hnew := hmem.2
        rw [heq, Function.update_self] at hnew
        cases hnew
      rw [Function.update_of_ne hqn] at hmem
      exact hmem
  · rw [renameTurn, if_neg fun hmem => hn ((h.mem_iff n).1 hmem)]
    exact ⟨h, hn, fun q hq => hq⟩

/-- **The turns** over some registers. -/
theorem renameTurns_renamed (ns : List Half) : ∀ {r : Renames}, Renamed reserved scratch r →
    Renamed reserved scratch (ns.foldl (renameTurn reserved) r) ∧
      ∀ q, q ∈ ns ∨ q ∉ collisions reserved scratch r →
        q ∉ collisions reserved scratch (ns.foldl (renameTurn reserved) r) := by
  induction ns with
  | nil => exact fun h => ⟨h, fun q hq => hq.resolve_left (List.not_mem_nil)⟩
  | cons n ns ih =>
      intro r h
      obtain ⟨hturn, hself, hkept⟩ := renameTurn_renamed h n
      obtain ⟨hall, hdone⟩ := ih hturn
      refine ⟨hall, fun q hq => hdone q ?_⟩
      rcases hq with hq | hq
      · rcases List.mem_cons.1 hq with rfl | hq
        · exact Or.inr hself
        · exact Or.inl hq
      · exact Or.inr (hkept q hq)

theorem renamed_start (hroom : scratch.card + reserved.card ≤ 16) :
    Renamed reserved scratch (renameStart reserved scratch) := by
  constructor
  · intro m hm
    rw [renameStart, Finset.mem_compl, Finset.mem_union, not_or] at hm
    exact hm
  · exact fun n m h => absurd h (by simp [renameStart])
  · exact fun n m h => absurd h (by simp [renameStart])
  · exact fun n m h => absurd h (by simp [renameStart])
  · exact fun n n' m h => absurd h (by simp [renameStart])
  · intro q
    simp [renameStart]
  · have hcoll : collisions reserved scratch (renameStart reserved scratch) = reserved ∩ scratch := by
      simp [collisions, renameStart, Finset.inter_comm]
    rw [hcoll, renameStart, Finset.card_compl, Fintype.card_fin]
    have hsum := Finset.card_union_add_card_inter reserved scratch
    omega

/-- **The loop.**  With room for every temporary and reserved register, no temporary keeps the name
of a reserved register. -/
theorem renamed_loop (hroom : scratch.card + reserved.card ≤ 16) :
    Renamed reserved scratch (renameLoop reserved scratch) ∧
      ∀ q, q ∉ collisions reserved scratch (renameLoop reserved scratch) := by
  have hturns := renameTurns_renamed (List.finRange 16) (renamed_start hroom)
  rw [← renameLoop_eq] at hturns
  exact ⟨hturns.1, fun q => hturns.2 q (Or.inl (List.mem_finRange q))⟩

/-- The names of a lowering. -/
def Named (reserved scratch : Finset Half) : VecName → Prop
  | .low _ => True
  | .high n => n ∈ scratch
  | .upper n => n ∈ reserved

/-- Without temporaries, or without registers to keep, nothing is renamed. -/
theorem Renamed.rename_none (h : Renamed reserved scratch r) (hnone : scratch = ∅ ∨ reserved = ∅) :
    r.rename = fun _ => none := by
  funext n
  cases hn : r.rename n with
  | none => rfl
  | some m =>
      obtain ⟨hs, hr⟩ := h.source n m hn
      rcases hnone with rfl | rfl
      · exact absurd hs (Finset.notMem_empty n)
      · exact absurd hr (Finset.notMem_empty n)

theorem Renamed.getD_not_reserved (h : Renamed reserved scratch r)
    (hdone : ∀ q, q ∉ collisions reserved scratch r) {n : Half} (hn : n ∈ scratch) :
    (r.rename n).getD n ∉ reserved := by
  cases hr : r.rename n with
  | some m => exact (h.target n m hr).1
  | none =>
      intro hres
      have hmem : n ∈ collisions reserved scratch r := by
        simp only [collisions, Finset.mem_filter, Finset.mem_inter]
        exact ⟨⟨hn, hres⟩, hr⟩
      exact hdone n hmem

theorem Renamed.getD_injOn (h : Renamed reserved scratch r) {n n' : Half} (hn : n ∈ scratch)
    (hn' : n' ∈ scratch) (heq : (r.rename n).getD n = (r.rename n').getD n') : n = n' := by
  cases hr : r.rename n with
  | some m =>
      cases hr' : r.rename n' with
      | some m' =>
          rw [hr, hr'] at heq
          exact h.inj n n' m hr (by rw [hr']; exact congrArg some heq.symm)
      | none =>
          rw [hr, hr'] at heq
          exact absurd hn' (by rw [← show m = n' from heq]; exact (h.target n m hr).2)
  | none =>
      cases hr' : r.rename n' with
      | some m' =>
          rw [hr, hr'] at heq
          exact absurd hn (by rw [show n = m' from heq]; exact (h.target n' m' hr').2)
      | none =>
          rw [hr, hr'] at heq
          exact heq

/-- **Distinct names stay distinct.** -/
theorem resolve_injOn (h : Renamed reserved scratch r) (hdone : ∀ q, q ∉ collisions reserved scratch r) :
    ∀ a b, Named reserved scratch a → Named reserved scratch b →
      a.resolve r.rename = b.resolve r.rename → a = b := by
  intro a b ha hb heq
  cases a with
  | low n =>
      cases b with
      | low n' => exact congrArg VecName.low (VecReg.low.inj heq)
      | high n' => cases heq
      | upper n' => cases heq
  | high n =>
      cases b with
      | low n' => cases heq
      | high n' => exact congrArg VecName.high (h.getD_injOn ha hb (VecReg.high.inj heq))
      | upper n' =>
          exact absurd hb (by rw [← VecReg.high.inj heq]; exact h.getD_not_reserved hdone ha)
  | upper n =>
      cases b with
      | low n' => cases heq
      | high n' =>
          exact absurd ha (by rw [VecReg.high.inj heq]; exact h.getD_not_reserved hdone hb)
      | upper n' => exact congrArg VecName.upper (VecReg.high.inj heq)

end Loop

/-! ### saved registers -/

section Saved

variable [DecidableEq L] {lang : Lang V S Op L}

/-- The stack with some registers saved. -/
def saved (σ : VecReg → V) : List Half → List V → List V
  | a :: b :: regs, st => saved σ regs (σ (.high a) :: σ (.high b) :: st)
  | [a], st => σ (.high a) :: st
  | [], st => st

/-- The registers with some taken from elsewhere. -/
def restored (τ σ : VecReg → V) (regs : List Half) : VecReg → V
  | .low n => τ (.low n)
  | .high n => if n ∈ regs then σ (.high n) else τ (.high n)

theorem runs_saves {code : List (Line VecReg (Spilled Op) L)} {σ : VecReg → V} {s : S}
    {o : Outcome VecReg V (S × List V) L} (regs : List Half) :
    ∀ {k : List (Line VecReg (Spilled Op) L)} {st : List V},
      Runs lang.spilled code k σ (s, saved σ regs st) o →
      Runs lang.spilled code (saves regs ++ k) σ (s, st) o := by
  induction regs using saves.induct with
  | case1 a b regs ih => exact fun h => .push (ih h)
  | case2 a => exact fun h => .push h
  | case3 => exact fun h => h

theorem restored_nil (τ σ : VecReg → V) : restored τ σ [] = τ := by
  funext r
  cases r with
  | low n => rfl
  | high n => simp only [restored, List.not_mem_nil, if_false]

theorem writes_restored (τ σ : VecReg → V) (regs : List Half) (a : Half) :
    Function.update (restored τ σ regs) (.high a) (σ (.high a)) = restored τ σ (a :: regs) := by
  funext r
  cases r with
  | low n => rw [Function.update_of_ne (by simp)]; rfl
  | high n =>
      by_cases hn : n = a
      · subst hn
        rw [Function.update_self]
        exact (if_pos List.mem_cons_self).symm
      · rw [Function.update_of_ne (by simpa using hn)]
        simp only [restored, List.mem_cons, hn, false_or]

theorem restored_swap (τ σ : VecReg → V) (regs : List Half) (a b : Half) :
    restored τ σ (a :: b :: regs) = restored τ σ (b :: a :: regs) := by
  funext r
  cases r with
  | low n => rfl
  | high n => simp only [restored, List.mem_cons, or_left_comm]

theorem runs_restores {code : List (Line VecReg (Spilled Op) L)} {τ σ : VecReg → V} {s : S}
    {o : Outcome VecReg V (S × List V) L} (regs : List Half) :
    ∀ {k : List (Line VecReg (Spilled Op) L)} {st : List V},
      Runs lang.spilled code k (restored τ σ regs) (s, st) o →
      Runs lang.spilled code (restores regs ++ k) τ (s, saved σ regs st) o := by
  induction regs using saves.induct with
  | case1 a b regs ih =>
      intro k st h
      rw [restores, List.append_assoc]
      refine ih (Runs.pop [σ (.high a), σ (.high b)] ?_)
      show Runs lang.spilled code k (Function.update (Function.update (restored τ σ regs) (.high a)
        (σ (.high a))) (.high b) (σ (.high b))) (s, st) o
      rw [writes_restored, writes_restored, restored_swap]
      exact h
  | case2 a =>
      intro k st h
      refine Runs.pop [σ (.high a)] ?_
      show Runs lang.spilled code k (Function.update τ (.high a) (σ (.high a))) (s, st) o
      rw [← writes_restored, restored_nil] at h
      exact h
  | case3 =>
      intro k st h
      rw [restored_nil] at h
      exact h

omit [DecidableEq L] in
theorem unlabelled_saves (regs : List Half) :
    ∀ ln ∈ (saves regs : List (Line VecReg (Spilled Op) L)), ln.isLabel = false := by
  induction regs using saves.induct with
  | case1 a b regs ih =>
      intro ln hln
      rcases List.mem_cons.1 hln with rfl | hln
      · rfl
      · exact ih ln hln
  | case2 a =>
      intro ln hln
      rw [List.mem_singleton.1 hln]
      rfl
  | case3 => exact fun ln hln => absurd hln List.not_mem_nil

omit [DecidableEq L] in
theorem unlabelled_restores (regs : List Half) :
    ∀ ln ∈ (restores regs : List (Line VecReg (Spilled Op) L)), ln.isLabel = false := by
  induction regs using saves.induct with
  | case1 a b regs ih =>
      intro ln hln
      rcases List.mem_append.1 hln with hln | hln
      · exact ih ln hln
      · rw [List.mem_singleton.1 hln]
        rfl
  | case2 a =>
      intro ln hln
      rw [List.mem_singleton.1 hln]
      rfl
  | case3 => exact fun ln hln => absurd hln List.not_mem_nil

/-- **Saved registers.**  Between the saves and the restores the code runs as without them, and then
the registers are as before. -/
theorem runs_saved {head rest : List (Line VecReg (Spilled Op) L)} (hhead : head = [] ∨ ∃ t, head = [.note t])
    (regs : List Half) {τ τ' : VecReg → V} {s s' : S} {st : List V}
    (h : ∀ st, Runs lang.spilled (head ++ rest) (head ++ rest) τ (s, st) (.fall τ' (s', st))) :
    Runs lang.spilled (head ++ saves regs ++ rest ++ restores regs)
      (head ++ saves regs ++ rest ++ restores regs) τ (s, st)
      (.fall (restored τ' τ regs) (s', st)) := by
  have hhead' : ∀ ln ∈ head, ln.isLabel = false := by
    rcases hhead with rfl | ⟨t, rfl⟩
    · exact fun ln hln => absurd hln List.not_mem_nil
    · intro ln hln
      rw [List.mem_singleton.1 hln]
      rfl
  have hpre : ∀ ln ∈ head ++ saves regs, ln.isLabel = false := by
    intro ln hln
    rcases List.mem_append.1 hln with hln | hln
    · exact hhead' ln hln
    · exact unlabelled_saves regs ln hln
  have hres : ∀ l, resolve l (head ++ rest) = resolve l rest := by
    intro l
    rw [resolve_append, resolve_unlabelled hhead']
    rfl
  have hrest : ∀ st, Runs lang.spilled rest rest τ (s, st) (.fall τ' (s', st)) := by
    intro st
    refine Runs.congr hres ?_
    rcases hhead with rfl | ⟨t, rfl⟩
    · exact h st
    · cases h st with
      | note hrun => exact hrun
  have hend : Runs lang.spilled (head ++ saves regs ++ rest ++ restores regs) (restores regs) τ'
      (s', saved τ regs st) (.fall (restored τ' τ regs) (s', st)) := by
    have hdone : Runs lang.spilled (head ++ saves regs ++ rest ++ restores regs) (restores regs ++ [])
        τ' (s', saved τ regs st) (.fall (restored τ' τ regs) (s', st)) := runs_restores regs .fall
    rw [List.append_nil] at hdone
    exact hdone
  have hmid := (hrest (saved τ regs st)).embed hpre (unlabelled_restores regs) rfl hend
  have hall := runs_saves regs hmid
  rcases hhead with rfl | ⟨t, rfl⟩
  · simpa only [List.nil_append, List.append_assoc] using hall
  · simpa only [List.cons_append, List.nil_append, List.append_assoc] using Runs.note hall

end Saved

/-! ### the rewritten lowering -/

section Rewritten

variable {inst : Inst} {body : List (Line VecName Op L)}

/-- The new names of a lowering. -/
def newName (inst : Inst) (body : List (Line VecName Op L)) : VecName → VecReg :=
  VecName.resolve (renameLoop (opnd body ∪ legit inst) (scratchOf body)).rename

/-- Temporaries, placeholders and the instruction's upper halves fit in the sixteen registers. -/
def HasRoom (inst : Inst) (body : List (Line VecName Op L)) : Prop :=
  (scratchOf body).card + (opnd body ∪ legit inst).card ≤ 16

instance decidableHasRoom (inst : Inst) (body : List (Line VecName Op L)) :
    Decidable (HasRoom inst body) :=
  inferInstanceAs (Decidable ((scratchOf body).card + (opnd body ∪ legit inst).card ≤ 16))

theorem named_of_mem {ln : Line VecName Op L} (hln : ln ∈ body) {r : VecName} (hr : r ∈ ln.names) :
    Named (opnd body ∪ legit inst) (scratchOf body) r := by
  cases r with
  | low n => trivial
  | high n =>
      simp only [Named, scratchOf, Finset.mem_filter, Finset.mem_univ, true_and]
      exact ⟨ln, hln, hr⟩
  | upper n =>
      refine Finset.mem_union_left _ ?_
      simp only [opnd, Finset.mem_filter, Finset.mem_univ, true_and]
      exact ⟨ln, hln, hr⟩

/-- A new name of a lowering is an upper half of the instruction or one that is saved. -/
theorem newName_cases (hroom : HasRoom inst body) {r : VecName}
    (hr : Named (opnd body ∪ legit inst) (scratchOf body) r) {n : Half}
    (hn : newName inst body r = .high n) :
    (n ∈ legit inst ∧ r = .upper n) ∨ n ∈ spilledRegs inst body := by
  obtain ⟨hren, hdone⟩ := renamed_loop hroom
  have hspill : ∀ {m : Half}, m ∉ legit inst →
      m ∈ (renameLoop (opnd body ∪ legit inst) (scratchOf body)).scratch ∪ opnd body →
      m ∈ spilledRegs inst body := by
    intro m hm hmem
    refine List.mem_filter.2 ⟨List.mem_finRange m, ?_⟩
    exact decide_eq_true (Finset.mem_sdiff.2 ⟨hmem, hm⟩)
  cases r with
  | low k => cases hn
  | high k =>
      obtain rfl := VecReg.high.inj hn
      have hres := hren.getD_not_reserved hdone hr
      refine Or.inr (hspill (fun h => hres (Finset.mem_union_right _ h)) (Finset.mem_union_left _ ?_))
      refine (hren.names _).2 ?_
      cases hk : (renameLoop (opnd body ∪ legit inst) (scratchOf body)).rename k with
      | some m => exact Or.inr ⟨k, hk⟩
      | none => exact Or.inl ⟨hr, hk⟩
  | upper k =>
      obtain rfl := VecReg.high.inj hn
      by_cases hk : k ∈ legit inst
      · exact Or.inl ⟨hk, rfl⟩
      · exact Or.inr (hspill hk (Finset.mem_union_right _ ((Finset.mem_union.1 hr).resolve_right hk)))

theorem legit_not_spilled {n : Half} (hn : n ∈ legit inst) : n ∉ spilledRegs inst body := by
  intro h
  have hmem := (List.mem_filter.1 h).2
  exact (Finset.mem_sdiff.1 (of_decide_eq_true hmem)).2 hn

/-- **The renamed lowering** does what the lowering does. -/
theorem runs_renamed [DecidableEq L] {lang : Lang V S Op L} (hroom : HasRoom inst body)
    {τ : VecReg → V} {s s' : S} {σ' : VecName → V}
    (h : Runs lang body body (τ ∘ newName inst body) s (.fall σ' s')) :
    ∃ τ', (∀ st, Runs lang.spilled (renamedBody inst body) (renamedBody inst body) τ (s, st)
        (.fall τ' (s', st))) ∧
      Agree (newName inst body) (Named (opnd body ∪ legit inst) (scratchOf body)) σ' τ' ∧
      ∀ q, (∀ r, Named (opnd body ∪ legit inst) (scratchOf body) r → newName inst body r ≠ q) →
        τ' q = τ q := by
  obtain ⟨hren, hdone⟩ := renamed_loop hroom
  obtain ⟨o', hrun, hout⟩ := h.map (resolve_injOn hren hdone) (fun ln hln r hr => named_of_mem hln hr)
    (List.Subset.refl body) τ fun r _ => rfl
  cases o' with
  | fall τ' s₁ =>
      obtain ⟨rfl, hagree, hframe⟩ := hout
      exact ⟨τ', fun st => hrun.inner st, hagree, hframe⟩
  | goto l τ' s₁ => exact absurd hout id

theorem splitComment_spec (body : List (Line VecReg Op L)) :
    ((splitComment body).1 = [] ∨ ∃ t, (splitComment body).1 = [.note t]) ∧
      (splitComment body).1 ++ (splitComment body).2 = body := by
  cases body with
  | nil => exact ⟨Or.inl rfl, rfl⟩
  | cons ln rest =>
      cases ln with
      | label l => exact ⟨Or.inl rfl, rfl⟩
      | op o outs ins => exact ⟨Or.inl rfl, rfl⟩
      | note t =>
          by_cases ht : t.startsWith "//" = true
          · simp only [splitComment, if_pos ht]
            exact ⟨Or.inr ⟨t, rfl⟩, rfl⟩
          · simp only [splitComment, if_neg ht]
            exact ⟨Or.inl trivial, rfl⟩

/-- The rewriting in a function with YMM code, of a lowering control does not leave. -/
theorem fixUpperHalves_eq (hroom : HasRoom inst body) {leaves : Op → Bool}
    (hleave : body.any (fun ln => ln.leaves leaves) = true → scratchOf body = ∅ ∧ opnd body = ∅)
    (hop : isVzero inst.op = false) :
    ∃ head rest, (head = [] ∨ ∃ t, head = [.note t]) ∧ head ++ rest = renamedBody inst body ∧
      fixUpperHalves leaves inst body true =
        head ++ saves (spilledRegs inst body) ++ rest ++ restores (spilledRegs inst body) := by
  by_cases hnone : opnd body = ∅ ∧ (scratchOf body = ∅ ∨ true = false)
  · have hscratch : scratchOf body = ∅ := hnone.2.resolve_right Bool.noConfusion
    obtain ⟨hren, -⟩ := renamed_loop hroom
    have hrename := hren.rename_none (Or.inl hscratch)
    have hregs : spilledRegs inst body = [] := by
      refine List.filter_eq_nil_iff.2 fun n _ hmem => ?_
      have hunion := (Finset.mem_sdiff.1 (of_decide_eq_true hmem)).1
      have hopnd : n ∉ opnd body := by
        rw [hnone.1]
        exact Finset.notMem_empty n
      rcases (hren.names n).1 ((Finset.mem_union.1 hunion).resolve_right hopnd) with ⟨hs, -⟩ | ⟨k, hk⟩
      · rw [hscratch] at hs
        exact absurd hs (Finset.notMem_empty n)
      · rw [hrename] at hk
        cases hk
    refine ⟨[], renamedBody inst body, Or.inl rfl, rfl, ?_⟩
    rw [fixUpperHalves, if_pos hnone, hregs, renamedBody, hrename]
    simp only [saves, restores, List.nil_append, List.append_nil]
  · have hstay : ¬(body.any (fun ln => ln.leaves leaves) = true) := fun h =>
      hnone ⟨(hleave h).2, Or.inl (hleave h).1⟩
    have hop' : ¬(true = false ∨ isVzero inst.op = true) := by simp [hop]
    obtain ⟨hhead, hparts⟩ := splitComment_spec (renamedBody inst body)
    refine ⟨_, _, hhead, hparts, ?_⟩
    rw [fixUpperHalves, if_neg hnone, if_neg hop', if_neg hstay]

theorem names_saves {regs : List Half} {ln : Line VecReg (Spilled Op) L}
    (hln : ln ∈ saves regs ∨ ln ∈ restores regs) {n : Half} (hn : .high n ∈ ln.names) : n ∈ regs := by
  induction regs using saves.induct with
  | case1 a b regs ih =>
      have hpair : ∀ {ln : Line VecReg (Spilled Op) L}, (ln.names = [.high a, .high b]) →
          .high n ∈ ln.names → n ∈ a :: b :: regs := by
        intro ln hnames hmem
        rw [hnames] at hmem
        simp only [List.mem_cons, VecReg.high.injEq, List.not_mem_nil, or_false] at hmem
        rcases hmem with rfl | rfl
        · exact List.mem_cons_self
        · exact List.mem_cons_of_mem _ List.mem_cons_self
      have hrest : n ∈ regs → n ∈ a :: b :: regs := fun h =>
        List.mem_cons_of_mem _ (List.mem_cons_of_mem _ h)
      rcases hln with hln | hln
      · rcases List.mem_cons.1 hln with rfl | hln
        · exact hpair rfl hn
        · exact hrest (ih (Or.inl hln))
      · rcases List.mem_append.1 hln with hln | hln
        · exact hrest (ih (Or.inr hln))
        · obtain rfl := List.mem_singleton.1 hln
          exact hpair rfl hn
  | case2 a =>
      have hone : ln.names = [.high a] := by
        rcases hln with hln | hln
        · obtain rfl := List.mem_singleton.1 hln
          rfl
        · obtain rfl := List.mem_singleton.1 hln
          rfl
      rw [hone, List.mem_singleton] at hn
      rw [VecReg.high.inj hn]
      exact List.mem_singleton_self a
  | case3 => exact absurd hln (by simp [saves, restores])

/-- VZEROUPPER and VZEROALL write the upper halves under their own names. -/
theorem fixUpperHalves_vzero {leaves : Op → Bool} (hroom : HasRoom inst body)
    (hop : isVzero inst.op = true) (hargs : inst.args = []) (hopnd : opnd body = ∅) :
    fixUpperHalves leaves inst body true =
      (body.map (Line.map (VecName.resolve fun _ => none))).map Line.inner := by
  have hlegit : legit inst = ∅ := by
    refine Finset.eq_empty_of_forall_notMem fun n hn => ?_
    simp [legit, hargs] at hn
  obtain ⟨hren, -⟩ := renamed_loop hroom
  have hrename := hren.rename_none (Or.inr (by rw [hopnd, hlegit, Finset.empty_union]))
  rw [fixUpperHalves]
  by_cases hnone : opnd body = ∅ ∧ (scratchOf body = ∅ ∨ true = false)
  · rw [if_pos hnone]
  · rw [if_neg hnone, if_pos (Or.inr hop), renamedBody, hrename]

end Rewritten

/-- **The rewritten lowering**, in a function with YMM code.  The lowering may use its temporaries as
registers of their own: their new names are distinct and no upper half the instruction names; every
other upper half is saved before and restored after, and the code then leaves what the lowering does. -/
theorem fixUpperHalves_right [DecidableEq L] (leaves : Op → Bool) (inst : Inst)
    (body : List (Line VecName Op L)) (hroom : HasRoom inst body)
    (hleave : body.any (fun ln => ln.leaves leaves) = true → scratchOf body = ∅ ∧ opnd body = ∅) :
    (∀ n ∈ scratchOf body, ∀ n' ∈ scratchOf body,
      newName inst body (.high n) = newName inst body (.high n') → n = n') ∧
    (∀ n ∈ scratchOf body, ∀ m ∈ opnd body ∪ legit inst, newName inst body (.high n) ≠ .high m) ∧
    (isVzero inst.op = true → inst.args = [] → opnd body = ∅ →
      fixUpperHalves leaves inst body true =
        (body.map (Line.map (VecName.resolve fun _ => none))).map Line.inner) ∧
    (isVzero inst.op = false →
      (∀ ln ∈ fixUpperHalves leaves inst body true, ∀ n, .high n ∈ ln.names →
        n ∈ legit inst ∨ n ∈ spilledRegs inst body) ∧
      (∃ head rest, head ++ rest = renamedBody inst body ∧
        fixUpperHalves leaves inst body true =
          head ++ saves (spilledRegs inst body) ++ rest ++ restores (spilledRegs inst body)) ∧
      ∀ (lang : Lang V S Op L) (τ : VecReg → V) (s s' : S) (σ' : VecName → V),
        Runs lang body body (τ ∘ newName inst body) s (.fall σ' s') →
        ∃ τ', (∀ st, Runs lang.spilled (fixUpperHalves leaves inst body true)
            (fixUpperHalves leaves inst body true) τ (s, st) (.fall τ' (s', st))) ∧
          (∀ n, τ' (.low n) = σ' (.low n)) ∧
          ∀ n, τ' (.high n) = if n ∈ legit inst then σ' (.upper n) else τ (.high n)) := by
  obtain ⟨hren, hdone⟩ := renamed_loop hroom
  refine ⟨fun n hn n' hn' heq => hren.getD_injOn hn hn' (VecReg.high.inj heq),
    fun n hn m hm heq => hren.getD_not_reserved hdone hn (by rw [VecReg.high.inj heq]; exact hm),
    fixUpperHalves_vzero hroom, fun hop => ?_⟩
  obtain ⟨head, rest, hhead, hparts, hfixed⟩ := fixUpperHalves_eq hroom hleave hop
  refine ⟨?_, ⟨head, rest, hparts, hfixed⟩, ?_⟩
  · intro ln hln n hn
    have hbody : ln ∈ renamedBody inst body → n ∈ legit inst ∨ n ∈ spilledRegs inst body := by
      intro hmem
      obtain ⟨ln₁, hln₁, rfl⟩ := List.mem_map.1 hmem
      obtain ⟨ln₀, hln₀, rfl⟩ := List.mem_map.1 hln₁
      have hnames : ((ln₀.map (newName inst body)).inner).names = ln₀.names.map (newName inst body) := by
        cases ln₀ with
        | label l => rfl
        | op o outs ins => exact (List.map_append ..).symm
        | note t => rfl
      have hn' : .high n ∈ ln₀.names.map (newName inst body) := hnames ▸ hn
      obtain ⟨r, hr, hrn⟩ := List.mem_map.1 hn'
      rcases newName_cases hroom (named_of_mem hln₀ hr) hrn with ⟨hlegit, -⟩ | hspill
      · exact Or.inl hlegit
      · exact Or.inr hspill
    rw [hfixed] at hln
    rcases List.mem_append.1 hln with hln | hln
    · rcases List.mem_append.1 hln with hln | hln
      · rcases List.mem_append.1 hln with hln | hln
        · exact hbody (by rw [← hparts]; exact List.mem_append_left _ hln)
        · exact Or.inr (names_saves (Or.inl hln) hn)
      · exact hbody (by rw [← hparts]; exact List.mem_append_right _ hln)
    · exact Or.inr (names_saves (Or.inr hln) hn)
  · intro lang τ s s' σ' h
    obtain ⟨τ', hrun, hagree, hframe⟩ := runs_renamed hroom h
    refine ⟨restored τ' τ (spilledRegs inst body), fun st => ?_, fun n => ?_, fun n => ?_⟩
    · rw [hfixed]
      refine runs_saved hhead _ fun st => ?_
      rw [hparts]
      exact hrun st
    · exact hagree (.low n) trivial
    · by_cases hn : n ∈ legit inst
      · rw [if_pos hn]
        simp only [restored, if_neg (legit_not_spilled hn)]
        exact hagree (.upper n) (Finset.mem_union_right _ hn)
      · rw [if_neg hn]
        by_cases hsp : n ∈ spilledRegs inst body
        · simp only [restored, if_pos hsp]
        · simp only [restored, if_neg hsp]
          refine hframe _ fun r hr hrn => ?_
          rcases newName_cases hroom hr hrn with ⟨hlegit, -⟩ | hspill
          · exact hn hlegit
          · exact hsp hspill

/-- The lines of vector code on which control leaves the instruction. -/
def LiftedOp.leaves : LiftedOp → Bool
  | .vec (.scalar .ret) => true
  | .vec (.scalar (.b l)) | .vec (.scalar (.bCond _ l)) =>
      match l with
      | .block _ _ | .skip _ _ | .outside _ _ | .notLocal _ _ => true
      | _ => false
  | _ => false

/-- `vpmuldq ymm0, ymm1, ymm2`. -/
def vpmuldqYmm : Instruction where
  address := 0x1000
  inst := { op := VecInst.pmuldq.op true, len := 5, args := [.reg (.ymm 0), .reg (.ymm 1), .reg (.ymm 2)] }

/-- Its lowering. -/
def vpmuldqBody : VecCode := (liftPmuldq vpmuldqYmm).toOption.getD []

theorem fixUpperHalves_right_vpmuldq :
    HasRoom vpmuldqYmm.inst vpmuldqBody ∧
      ∀ n ∈ scratchOf vpmuldqBody, ∀ m ∈ opnd vpmuldqBody ∪ legit vpmuldqYmm.inst,
        newName vpmuldqYmm.inst vpmuldqBody (.high n) ≠ .high m :=
  ⟨by decide +kernel,
    (fixUpperHalves_right (V := Unit) (S := Unit) LiftedOp.leaves vpmuldqYmm.inst vpmuldqBody (by decide +kernel)
      (fun h => absurd h (by decide +kernel))).2.1⟩

/-- The lowering of `vpmuldq ymm0, ymm1, ymm2` uses `v20`, which holds the upper half of `ymm4`. -/
theorem fixUpperHalves_borrows :
    ¬ ∀ ln ∈ fixUpperHalves LiftedOp.leaves vpmuldqYmm.inst vpmuldqBody true, ∀ n, .high n ∈ ln.names →
      n ∈ legit vpmuldqYmm.inst := by
  decide +kernel

end PS4Recomp.Lifter
