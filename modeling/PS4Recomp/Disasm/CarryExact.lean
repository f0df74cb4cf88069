import PS4Recomp.Disasm.CarryLiveness
import PS4Recomp.Library.RoundRobin
import PS4Recomp.Library.MayAnalysis

/-!
# Carry and overflow liveness: the marks are exact

The pass of `CarryLiveness` is a round-robin iteration of the backward data-flow equations of the
function's control-flow graph.

* `flagGraph` — that graph: a node is a block, an item of code a decoded instruction;
* `visit_live`, `round_live`, `rounds_live` — one block, one sweep and the whole loop compute what
  `RoundRobin` computes for the equations `MayAnalysis.liveIn`;
* `analyze_isSome` — two sweeps for each block and one more are enough, on every graph;
* **`carryOverflowLiveness_exact`** — an instruction is marked dead exactly when no path from it
  reaches a reader, or an unknown successor, before a killer.
-/

namespace PS4Recomp.Disasm

open X86
open Library

variable (fn : Function) (isFunc : Option (Addr → Bool))

/-- The decoded instructions of a block; the marks are not part of them. -/
def BasicBlock.code (b : BasicBlock) : List Inst := b.insts.map (·.inst)

/-- The control-flow graph of a function, for its two carry flags. -/
def flagGraph : MayAnalysis.Graph Addr Inst Flag where
  code a := ((fn.blocks a).map BasicBlock.code).getD []
  succs a := ((infosOf fn isFunc a).map (·.succs)).getD []
  unknown a := ((infosOf fn isFunc a).map (·.unknown)).getD false
  reads i := (carryOverflowEffect i).1
  kills i := (carryOverflowEffect i).2

/-- The equation of the loop body: the value of a key that is no block stays. -/
def flagEquation (σ : Addr → Finset Flag) (a : Addr) : Finset Flag :=
  if (fn.blocks a).isSome then MayAnalysis.liveIn (flagGraph fn isFunc) σ a else σ a

/-! ### the blocks of the loop state -/

/-- An instruction with its carry marks cleared. -/
def eraseCarry (i : Instruction) : Instruction := { i with carryDead := false, overflowDead := false }

/-- Two blocks that differ in carry marks only. -/
def SameCode (b b' : BasicBlock) : Prop :=
  b'.startAddr = b.startAddr ∧ b'.endAddr = b.endAddr ∧
    b'.insts.map eraseCarry = b.insts.map eraseCarry

/-- Block maps that agree up to carry marks. -/
def SameBlocks (m m' : Addr → Option BasicBlock) : Prop :=
  ∀ a, Option.Rel SameCode (m a) (m' a)

theorem SameCode.refl (b : BasicBlock) : SameCode b b := ⟨rfl, rfl, rfl⟩

theorem SameCode.trans {b c d : BasicBlock} (h : SameCode b c) (h' : SameCode c d) :
    SameCode b d :=
  ⟨h'.1.trans h.1, h'.2.1.trans h.2.1, h'.2.2.trans h.2.2⟩

theorem SameBlocks.refl (m : Addr → Option BasicBlock) : SameBlocks m m := by
  intro a
  cases m a with
  | none => exact .none
  | some b => exact .some (SameCode.refl b)

theorem map_inst_of_map_eraseCarry {is js : List Instruction}
    (h : is.map eraseCarry = js.map eraseCarry) : is.map (·.inst) = js.map (·.inst) := by
  have h2 := congrArg (List.map fun i : Instruction => i.inst) h
  rw [List.map_map, List.map_map] at h2
  exact h2

theorem SameCode.code_eq {b b' : BasicBlock} (h : SameCode b b') :
    BasicBlock.code b' = BasicBlock.code b := map_inst_of_map_eraseCarry h.2.2

/-! ### one block -/

theorem markInsts_live (is : List Instruction) (live : Finset Flag) :
    (markInsts is live).2 =
      MayAnalysis.through (flagGraph fn isFunc) live (is.map (·.inst)) := by
  induction is with
  | nil => rfl
  | cons i is ih =>
      simp only [markInsts, List.map_cons, MayAnalysis.through_cons, ← ih]
      rfl

theorem markInsts_erase (is : List Instruction) (live : Finset Flag) :
    (markInsts is live).1.map eraseCarry = is.map eraseCarry := by
  induction is with
  | nil => rfl
  | cons i is ih =>
      simp only [markInsts, List.map_cons, ih]
      rfl

/-- The marks do not depend on the marks that were there. -/
theorem markInsts_congr {is js : List Instruction} (h : is.map eraseCarry = js.map eraseCarry)
    (live : Finset Flag) : markInsts is live = markInsts js live := by
  induction is generalizing js with
  | nil =>
      obtain rfl : js = [] := by simpa using h.symm
      rfl
  | cons i is ih =>
      cases js with
      | nil => simp at h
      | cons j js =>
          rw [List.map_cons, List.map_cons, List.cons.injEq] at h
          obtain ⟨hij, ht⟩ := h
          simp only [eraseCarry, Instruction.mk.injEq, and_true] at hij
          simp only [markInsts, ih ht, hij]

/-- What the marks of a block say about one of its instructions. -/
theorem markInsts_split {insts pre post : List Instruction} {i : Instruction}
    {live : Finset Flag} (h : insts = (markInsts insts live).1) (hs : insts = pre ++ i :: post) :
    (i.carryDead = true ↔ Flag.cf ∉ (markInsts post live).2) ∧
      (i.overflowDead = true ↔ Flag.of ∉ (markInsts post live).2) := by
  induction pre generalizing insts with
  | nil =>
      subst hs
      simp only [List.nil_append, markInsts, List.cons.injEq] at h
      have hi := h.1
      rw [Instruction.mk.injEq] at hi
      constructor
      · rw [hi.2.2.2.1]
        exact decide_eq_true_iff
      · rw [hi.2.2.2.2]
        exact decide_eq_true_iff
  | cons p pre ih =>
      subst hs
      simp only [List.cons_append, markInsts, List.cons.injEq] at h
      exact ih h.2 rfl

/-- The flags live at the end of a block are those of the data-flow equation. -/
theorem liveAtEnd_eq {a : Addr} {bi : Info} (h : infosOf fn isFunc a = some bi)
    (σ : Addr → Finset Flag) :
    liveAtEnd bi σ = MayAnalysis.liveOut (flagGraph fn isFunc) σ a := by
  simp only [liveAtEnd, MayAnalysis.liveOut, flagGraph, h, Option.map_some, Option.getD_some]

/-! ### the loop -/

/-- **Step.**  One block of a sweep, on blocks that carry the function's code: it applies the
equation at that block and keeps the code. -/
theorem visit_live {st : Pass} (hb : SameBlocks fn.blocks st.blocks) (a : Addr) :
    let r := visit (infosOf fn isFunc) st a
    let v := flagEquation fn isFunc st.live a
    r.1.live = (if v = st.live a then st.live else Function.update st.live a v) ∧
      r.2 = !decide (v = st.live a) ∧ SameBlocks fn.blocks r.1.blocks := by
  have hab := hb a
  cases hf : fn.blocks a with
  | none =>
      rw [hf] at hab
      have hs : st.blocks a = none := by
        generalize st.blocks a = o at hab
        cases hab with
        | none => rfl
      have hv : flagEquation fn isFunc st.live a = st.live a := by simp [flagEquation, hf]
      simp only [visit, hs, hv, if_true, decide_true, Bool.not_true, true_and]
      exact hb
  | some b =>
      rw [hf] at hab
      obtain ⟨b', hs, hc⟩ : ∃ b', st.blocks a = some b' ∧ SameCode b b' := by
        generalize st.blocks a = o at hab
        cases hab with
        | some h => exact ⟨_, rfl, h⟩
      obtain ⟨bi, hi⟩ : ∃ bi, infosOf fn isFunc a = some bi := by simp [infosOf, hf]
      have hv : (markInsts b'.insts (liveAtEnd bi st.live)).2 = flagEquation fn isFunc st.live a := by
        have hcode : (flagGraph fn isFunc).code a = BasicBlock.code b := by simp [flagGraph, hf]
        rw [markInsts_live fn isFunc, liveAtEnd_eq fn isFunc hi, flagEquation, hf,
          if_pos Option.isSome_some, MayAnalysis.liveIn, hcode, ← hc.code_eq]
        rfl
      have hblocks : SameBlocks fn.blocks (Function.update st.blocks a
          (some { b' with insts := (markInsts b'.insts (liveAtEnd bi st.live)).1 })) := by
        intro c
        by_cases hca : c = a
        · subst hca
          rw [Function.update_self, hf]
          exact .some (hc.trans ⟨rfl, rfl, markInsts_erase _ _⟩)
        · rw [Function.update_of_ne hca]
          exact hb c
      simp only [visit, hs, hi, hv]
      split
      · exact ⟨rfl, by simp [*], hblocks⟩
      · exact ⟨rfl, by simp [*], hblocks⟩

/-- One sweep of the loop is one sweep of the round-robin iteration. -/
theorem round_live (order : List Addr) : ∀ st : Pass, SameBlocks fn.blocks st.blocks →
    let r := round (infosOf fn isFunc) order st
    let s := RoundRobin.sweep (flagEquation fn isFunc) order st.live
    r.1.live = s.1 ∧ r.2 = s.2 ∧ SameBlocks fn.blocks r.1.blocks := by
  induction order with
  | nil => exact fun st hb => ⟨rfl, rfl, hb⟩
  | cons a order ih =>
      intro st hb
      obtain ⟨hl, hc, hb'⟩ := visit_live fn isFunc hb a
      obtain ⟨hl2, hc2, hb2⟩ := ih _ hb'
      simp only [round, RoundRobin.sweep]
      rw [hl] at hl2 hc2
      rw [hl2, hc, hc2]
      split
      · exact ⟨rfl, by simp [*], hb2⟩
      · exact ⟨rfl, by simp [*], hb2⟩

theorem rounds_live (order : List Addr) : ∀ fuel (st : Pass), SameBlocks fn.blocks st.blocks →
    (rounds (infosOf fn isFunc) order fuel st).map (·.live) =
      RoundRobin.solve (flagEquation fn isFunc) order fuel st.live := by
  intro fuel
  induction fuel with
  | zero => exact fun st _ => rfl
  | succ fuel ih =>
      intro st hb
      obtain ⟨hl, hc, hb'⟩ := round_live fn isFunc order st hb
      simp only [rounds, RoundRobin.solve]
      rw [hc]
      split
      · rw [ih _ hb', hl]
      · rw [Option.map_some, hl]

theorem rounds_blocks (order : List Addr) : ∀ fuel (st st' : Pass),
    SameBlocks fn.blocks st.blocks → rounds (infosOf fn isFunc) order fuel st = some st' →
      SameBlocks fn.blocks st'.blocks := by
  intro fuel
  induction fuel with
  | zero => intro st st' _ h; simp [rounds] at h
  | succ fuel ih =>
      intro st st' hb h
      have hb' := (round_live fn isFunc order st hb).2.2
      simp only [rounds] at h
      split at h
      · exact ih _ _ hb' h
      · cases h
        exact hb'

/-! ### the marks of the last sweep -/

/-- The marks of the block at `a` are those of the current live-in table. -/
def Marked (st : Pass) (a : Addr) : Prop :=
  ∀ b bi, st.blocks a = some b → infosOf fn isFunc a = some bi →
    b.insts = (markInsts b.insts (liveAtEnd bi st.live)).1

/-- A visit that changes no live-in value marks its block and leaves the others. -/
theorem visit_marked {st : Pass} {a : Addr} (h : (visit (infosOf fn isFunc) st a).2 = false) :
    (visit (infosOf fn isFunc) st a).1.live = st.live ∧
      Marked fn isFunc (visit (infosOf fn isFunc) st a).1 a ∧
      ∀ c, Marked fn isFunc st c → Marked fn isFunc (visit (infosOf fn isFunc) st a).1 c := by
  cases hs : st.blocks a with
  | none =>
      have hm : Marked fn isFunc st a := fun b bi hb _ => by rw [hs] at hb; cases hb
      simp only [visit, hs, true_and]
      exact ⟨hm, fun c hc => hc⟩
  | some b =>
      cases hi : infosOf fn isFunc a with
      | none =>
          have hm : Marked fn isFunc st a := fun _ bi _ hbi => by rw [hi] at hbi; cases hbi
          simp only [visit, hs, hi, true_and]
          exact ⟨hm, fun c hc => hc⟩
      | some bi =>
          simp only [visit, hs, hi] at h ⊢
          split at h
          · rename_i hv
            rw [if_pos hv]
            have hself : (markInsts b.insts (liveAtEnd bi st.live)).1 =
                (markInsts (markInsts b.insts (liveAtEnd bi st.live)).1
                  (liveAtEnd bi st.live)).1 := by
              rw [markInsts_congr (markInsts_erase b.insts (liveAtEnd bi st.live))]
            have hmark : Marked fn isFunc ⟨Function.update st.blocks a
                (some { b with insts := (markInsts b.insts (liveAtEnd bi st.live)).1 }),
                st.live⟩ a := by
              intro b' bi' hb' hbi'
              rw [hi] at hbi'
              simp only [Function.update_self, Option.some.injEq] at hb' hbi'
              subst hb' hbi'
              exact hself
            refine ⟨rfl, hmark, fun c hc => ?_⟩
            by_cases hca : c = a
            · subst hca
              exact hmark
            · intro b' bi' hb' hbi'
              simp only [Function.update_of_ne hca] at hb'
              exact hc b' bi' hb' hbi'
          · simp at h

theorem round_marked (order : List Addr) : ∀ st : Pass,
    (round (infosOf fn isFunc) order st).2 = false →
      (∀ c, Marked fn isFunc st c ∨ c ∈ order →
        Marked fn isFunc (round (infosOf fn isFunc) order st).1 c) := by
  induction order with
  | nil => exact fun st _ c hc => hc.elim id fun h => by simp at h
  | cons a order ih =>
      intro st h c hc
      simp only [round, Bool.or_eq_false_iff] at h ⊢
      obtain ⟨_, hself, hkeep⟩ := visit_marked fn isFunc h.1
      apply ih _ h.2
      rcases hc with hc | hc
      · exact .inl (hkeep c hc)
      · rcases List.mem_cons.1 hc with rfl | hc
        · exact .inl hself
        · exact .inr hc

theorem rounds_marked (order : List Addr) : ∀ fuel (st st' : Pass),
    rounds (infosOf fn isFunc) order fuel st = some st' →
      ∀ a ∈ order, Marked fn isFunc st' a := by
  intro fuel
  induction fuel with
  | zero => intro st st' h; simp [rounds] at h
  | succ fuel ih =>
      intro st st' h a ha
      simp only [rounds] at h
      split at h
      · exact ih _ _ h a ha
      · rename_i hc
        cases h
        exact round_marked fn isFunc order st (by simpa using hc) a (.inr ha)

/-! ### termination and exactness -/

theorem flagEquation_monotone : Monotone (flagEquation fn isFunc) := by
  intro σ τ h a
  simp only [flagEquation]
  split
  · exact MayAnalysis.liveIn_monotone _ h a
  · exact h a

theorem flagEquation_demandTable_le :
    flagEquation fn isFunc (MayAnalysis.demandTable (flagGraph fn isFunc)) ≤
      MayAnalysis.demandTable (flagGraph fn isFunc) := by
  intro a
  simp only [flagEquation]
  split
  · rw [MayAnalysis.liveIn_demandTable]
  · exact le_refl _

theorem card_flags_strictMono : StrictMono (Finset.card : Finset Flag → ℕ) :=
  Finset.card_strictMono

theorem card_flags_le (s : Finset Flag) : s.card ≤ 2 := s.card_le_univ

/-- **Termination.**  Two sweeps for each block and one more are enough, whatever the edges. -/
theorem analyze_isSome {fuel : ℕ} (hf : 2 * fn.blockOrder.length < fuel) :
    (analyzeCarryOverflowLiveness fn isFunc fuel).isSome := by
  have hsolve := RoundRobin.solve_isSome (flagEquation_monotone fn isFunc)
    card_flags_strictMono card_flags_le fn.blockOrder.reverse fuel (fun _ => ∅)
    (fun a => Finset.empty_subset _) (by rw [List.length_reverse]; omega)
  rw [← rounds_live fn isFunc _ fuel ⟨fn.blocks, fun _ => ∅⟩ (SameBlocks.refl _),
    Option.isSome_map] at hsolve
  exact hsolve

/-- The live-in table after the loop solves the equations at the blocks and stays below the
demanded flags. -/
theorem analyze_live {fuel : ℕ} {st : Pass}
    (h : analyzeCarryOverflowLiveness fn isFunc fuel = some st) :
    (∀ a, (fn.blocks a).isSome →
      MayAnalysis.liveIn (flagGraph fn isFunc) st.live a = st.live a) ∧
      st.live ≤ MayAnalysis.demandTable (flagGraph fn isFunc) := by
  have hsolve := rounds_live fn isFunc fn.blockOrder.reverse fuel ⟨fn.blocks, fun _ => ∅⟩
    (SameBlocks.refl _)
  unfold analyzeCarryOverflowLiveness at h
  rw [h, Option.map_some] at hsolve
  obtain ⟨hfix, hle⟩ := RoundRobin.solve_spec (flagEquation_monotone fn isFunc)
    (flagEquation_demandTable_le fn isFunc) fuel _ _ hsolve.symm fun a => Finset.empty_subset _
  refine ⟨fun a ha => ?_, hle⟩
  have hk := hfix a (List.mem_reverse.2 ((fn.mem_blockOrder a).2 ha))
  rw [flagEquation, if_pos ha] at hk
  exact hk

/-- The blocks after the pass. -/
def carryBlocks : Addr → Option BasicBlock :=
  ((analyzeCarryOverflowLiveness fn isFunc (2 * fn.blockOrder.length + 1)).getD
    ⟨fn.blocks, fun _ => ∅⟩).blocks

theorem carryBlocks_same : SameBlocks fn.blocks (carryBlocks fn isFunc) := by
  obtain ⟨st, hst⟩ := Option.isSome_iff_exists.1 (analyze_isSome fn isFunc (Nat.lt_succ_self _))
  have hblocks : carryBlocks fn isFunc = st.blocks := by
    show ((analyzeCarryOverflowLiveness fn isFunc _).getD _).blocks = _
    rw [hst]
    rfl
  rw [hblocks]
  exact rounds_blocks fn isFunc _ _ _ st (SameBlocks.refl _) hst

theorem SameBlocks.isSome_eq {m m' : Addr → Option BasicBlock} (h : SameBlocks m m') (a : Addr) :
    (m' a).isSome = (m a).isSome := by
  have ha := h a
  generalize m a = o at ha
  generalize m' a = o' at ha
  cases ha with
  | some _ => rfl
  | none => rfl

/-- The function after the pass. -/
def withCarryMarks : Function :=
  fn.withBlocks (carryBlocks fn isFunc) (carryBlocks_same fn isFunc).isSome_eq

theorem mem_foldl_localTarget (ts : List Addr) : ∀ (acc : List Addr × Bool) (s : Addr),
    s ∈ (ts.foldl (localTarget fn isFunc) acc).1 → s ∈ acc.1 ∨ (fn.blocks s).isSome := by
  induction ts with
  | nil => exact fun acc s h => .inl h
  | cons t ts ih =>
      intro acc s h
      rcases ih _ s h with h | h
      · simp only [localTarget] at h
        split at h
        · rename_i ht
          rcases List.mem_append.1 h with h | h
          · exact .inl h
          · rw [List.mem_singleton.1 h]
            exact .inr ht
        · split at h <;> exact .inl h
      · exact .inr h

theorem mem_localTarget {acc : List Addr × Bool} {t s : Addr}
    (h : s ∈ (localTarget fn isFunc acc t).1) : s ∈ acc.1 ∨ (fn.blocks s).isSome :=
  mem_foldl_localTarget fn isFunc [t] acc s h

theorem mem_fallEdge {acc : List Addr × Bool} {t s : Addr} (h : s ∈ (fallEdge fn acc t).1) :
    s ∈ acc.1 ∨ (fn.blocks s).isSome := by
  simp only [fallEdge] at h
  split at h
  · rename_i ht
    rcases List.mem_append.1 h with h | h
    · exact .inl h
    · rw [List.mem_singleton.1 h]
      exact .inr ht
  · exact .inl h

theorem mem_blockSuccessors {b : BasicBlock} {s : Addr}
    (h : s ∈ (blockSuccessors fn b isFunc).1) : (fn.blocks s).isSome := by
  have hnil : ∀ {p : Prop}, s ∈ ([] : List Addr) ∨ p → p := fun h => h.elim (by simp) id
  unfold blockSuccessors at h
  split at h
  · simp at h
  · split at h
    · exact hnil (mem_fallEdge fn h)
    · split at h
      any_goals (simp at h)
      · split at h
        · exact hnil (mem_localTarget fn isFunc h)
        · split at h
          · simp at h
          · exact hnil (mem_foldl_localTarget fn isFunc _ _ s h)
      · split at h
        · rcases mem_fallEdge fn h with h | h
          · split at h
            · exact hnil (mem_localTarget fn isFunc h)
            · simp at h
          · exact h
        · exact hnil (mem_fallEdge fn h)

theorem succs_flagGraph {a s : Addr} (h : s ∈ (flagGraph fn isFunc).succs a) :
    (fn.blocks s).isSome := by
  cases hf : fn.blocks a with
  | none => simp [flagGraph, infosOf, hf] at h
  | some b =>
      apply mem_blockSuccessors fn isFunc (b := b)
      simpa [flagGraph, infosOf, hf] using h

/-- **Exactness.**  The pass ends, the code of the blocks is untouched, and an instruction is
marked `CarryDead` (`OverflowDead`) exactly when `CF` (`OF`) is not demanded right after it: no
path through the successors reaches a reader or an unknown continuation before a killer. -/
theorem carryOverflowLiveness_exact (extra : ℕ) :
    ∃ st, analyzeCarryOverflowLiveness fn isFunc (2 * fn.blockOrder.length + 1 + extra) = some st ∧
      SameBlocks fn.blocks st.blocks ∧
      ∀ a b, st.blocks a = some b → ∀ pre i post, b.insts = pre ++ i :: post →
        (i.carryDead = true ↔
          ¬ MayAnalysis.Demand (flagGraph fn isFunc) .cf a (post.map (·.inst))) ∧
        (i.overflowDead = true ↔
          ¬ MayAnalysis.Demand (flagGraph fn isFunc) .of a (post.map (·.inst))) := by
  obtain ⟨st, hst⟩ := Option.isSome_iff_exists.1
    (analyze_isSome fn isFunc (by omega : _ < 2 * fn.blockOrder.length + 1 + extra))
  have hsame : SameBlocks fn.blocks st.blocks :=
    rounds_blocks fn isFunc _ _ _ st (SameBlocks.refl _) hst
  obtain ⟨hfix, hle⟩ := analyze_live fn isFunc hst
  refine ⟨st, hst, hsame, fun a b hb pre i post hs => ?_⟩
  have hkey : (fn.blocks a).isSome := by
    have hr := hsame a
    rw [hb] at hr
    generalize fn.blocks a = o at hr
    cases hr with
    | some _ => rfl
  obtain ⟨bi, hi⟩ : ∃ bi, infosOf fn isFunc a = some bi := by
    obtain ⟨b₀, hb₀⟩ := Option.isSome_iff_exists.1 hkey
    simp [infosOf, hb₀]
  have hmarked := rounds_marked fn isFunc _ _ _ _ hst a
    (List.mem_reverse.2 ((fn.mem_blockOrder a).2 hkey)) b bi hb hi
  have hmem := MayAnalysis.mem_iff_demand (flagGraph fn isFunc)
    (P := fun a => (fn.blocks a).isSome) (fun _ _ _ => succs_flagGraph fn isFunc) hfix hle hkey
  obtain ⟨hc, ho⟩ := markInsts_split hmarked hs
  rw [markInsts_live fn isFunc, liveAtEnd_eq fn isFunc hi, hmem] at hc ho
  exact ⟨hc, ho⟩

end PS4Recomp.Disasm
