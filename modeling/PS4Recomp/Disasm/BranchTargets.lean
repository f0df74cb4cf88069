import PS4Recomp.Disasm.Linear

/-!
# Branch targets

Where the targets of a function's branches end up: as a block of the function, as a call to be
recompiled on its own, or nowhere.

* `branchTargets` — the direct target of a branch, the table of an indirect jump;
* `TargetsKept` — no target in code is dropped; `leaves_of_kept`: then what the flag passes take
  for a tail call is a discovered call;
* `Landed`, `MarkStep`, `linear_kept_iff` — the linear mode: a target in the range has a block where the sweep
  decodes at it;
* `Widens`, `TargetInv`, `follow_kept_iff` — branch following: a target in the range has a block
  where it decodes to unprivileged code, unless the function was capped first;
* **`disasmFunction_targetsKept`** — both modes: exactly when no target is dropped.
-/

namespace PS4Recomp.Disasm

open X86 Library

/-- The target of a direct branch. -/
def directTargets (i : Instruction) : List Addr :=
  if i.inst.op = .jmp ∨ isJcc i.inst.op = true then
    match i.inst.arg 0 with
    | some (.rel r) => [i.relTarget r]
    | _ => []
  else []

/-- The targets of a branch: its direct target, or the table found for it. -/
def branchTargets (jumpTables : Addr → List Addr) (i : Instruction) : List Addr :=
  directTargets i ++ if i.inst.op = .jmp then jumpTables i.address else []

/-- An instruction of the function. -/
def Disassembled.Has (out : Disassembled) (i : Instruction) : Prop :=
  ∃ s b, out.fn.blocks s = some b ∧ i ∈ b.insts

/-- No branch target is dropped: it is a block of the function, a discovered call, or no code. -/
def TargetsKept (out : Disassembled) (inCode : Addr → Bool) : Prop :=
  ∀ i, out.Has i → ∀ t ∈ branchTargets out.fn.jumpTables i,
    (out.fn.blocks t).isSome ∨ t ∈ out.discoveredCalls ∨ inCode t = false

/-- What the flag passes take for a tail call is then a function of its own. -/
theorem leaves_of_kept {out : Disassembled} {inCode : Addr → Bool} (h : TargetsKept out inCode)
    {i : Instruction} (hi : out.Has i) {t : Addr} (ht : t ∈ branchTargets out.fn.jumpTables i)
    (hleaves : localTarget out.fn (some inCode) ([], false) t = ([], false)) :
    t ∈ out.discoveredCalls := by
  rcases h i hi t ht with hblock | hcall | hcode
  · simp [localTarget, hblock] at hleaves
  · exact hcall
  · unfold localTarget at hleaves
    split at hleaves
    · simp at hleaves
    · simp [hcode] at hleaves

/-! ### marks do not matter -/

/-- The same function but for the marks of its instructions. -/
structure SamePlain (fn fn' : Function) : Prop where
  blocks : ∀ s, (fn'.blocks s).map plain = (fn.blocks s).map plain
  jumpTables : fn'.jumpTables = fn.jumpTables

theorem SamePlain.refl (fn : Function) : SamePlain fn fn := ⟨fun _ => rfl, rfl⟩

theorem samePlain_marked (fn : Function) (isFunc : Option (Addr → Bool)) :
    SamePlain fn (withCarryMarks (analyzeBlockFlagLiveness fn) isFunc) :=
  ⟨map_plain_marked fn isFunc, rfl⟩

theorem SamePlain.isSome_blocks {fn fn' : Function} (h : SamePlain fn fn') (s : Addr) :
    (fn'.blocks s).isSome = (fn.blocks s).isSome := by
  have hs := congrArg Option.isSome (h.blocks s)
  rwa [Option.isSome_map, Option.isSome_map] at hs

/-- An instruction of either function is one of the other, but for its marks. -/
theorem SamePlain.mem {fn fn' : Function} (h : SamePlain fn fn') {s : Addr} {b : BasicBlock}
    (hb : fn.blocks s = some b) {i : Instruction} (hi : i ∈ b.insts) :
    ∃ b', fn'.blocks s = some b' ∧ ∃ i' ∈ b'.insts, unmarked i' = unmarked i := by
  have hs := h.blocks s
  rw [hb, Option.map_some] at hs
  obtain ⟨b', hb', hpl⟩ := Option.map_eq_some_iff.1 hs
  have hinsts : b'.insts.map unmarked = b.insts.map unmarked := congrArg BasicBlock.insts hpl
  have himem : unmarked i ∈ b'.insts.map unmarked := hinsts ▸ List.mem_map_of_mem hi
  obtain ⟨i', hi', heq⟩ := List.mem_map.1 himem
  exact ⟨b', hb', i', hi', heq⟩

theorem SamePlain.symm {fn fn' : Function} (h : SamePlain fn fn') : SamePlain fn' fn :=
  ⟨fun s => (h.blocks s).symm, h.jumpTables.symm⟩

theorem branchTargets_unmarked (tables : Addr → List Addr) (i : Instruction) :
    branchTargets tables (unmarked i) = branchTargets tables i := rfl

/-- The instructions of a function with marks are those without them. -/
theorem SamePlain.forall_has {fn fn' : Function} (h : SamePlain fn fn') (calls : List Addr)
    (data : List (Addr × Addr)) {p : Instruction → Prop} (hp : ∀ i, p (unmarked i) ↔ p i) :
    (∀ i, Disassembled.Has ⟨fn', calls, data⟩ i → p i) ↔
      ∀ i, Disassembled.Has ⟨fn, calls, data⟩ i → p i := by
  have hone : ∀ fn fn' : Function, SamePlain fn fn' →
      (∀ i, Disassembled.Has ⟨fn', calls, data⟩ i → p i) →
      ∀ i, Disassembled.Has ⟨fn, calls, data⟩ i → p i := by
    intro fn fn' h hall i hi
    obtain ⟨s, b, hb, hi⟩ := hi
    obtain ⟨b', hb', i', hi', heq⟩ := h.mem hb hi
    rw [← hp, ← heq, hp]
    exact hall i' ⟨s, b', hb', hi'⟩
  exact ⟨hone fn fn' h, hone fn' fn h.symm⟩

theorem SamePlain.exists_has {fn fn' : Function} (h : SamePlain fn fn') (calls : List Addr)
    (data : List (Addr × Addr)) {p : Instruction → Prop} (hp : ∀ i, p (unmarked i) ↔ p i) :
    (∃ i, Disassembled.Has ⟨fn', calls, data⟩ i ∧ p i) ↔
      ∃ i, Disassembled.Has ⟨fn, calls, data⟩ i ∧ p i := by
  have hall := h.forall_has calls data (p := fun i => ¬ p i) fun i =>
    not_congr (hp i)
  rw [← not_iff_not]
  simpa only [not_exists, not_and] using hall

theorem SamePlain.targetsKept_iff {fn fn' : Function} (h : SamePlain fn fn') {calls : List Addr}
    {data : List (Addr × Addr)} {inCode : Addr → Bool} :
    TargetsKept ⟨fn', calls, data⟩ inCode ↔ TargetsKept ⟨fn, calls, data⟩ inCode := by
  have hkeep := h.forall_has calls data
    (p := fun i => ∀ t ∈ branchTargets fn.jumpTables i,
      (fn.blocks t).isSome ∨ t ∈ calls ∨ inCode t = false) fun i => by
        rw [branchTargets_unmarked]
  rw [TargetsKept, TargetsKept, ← hkeep]
  refine forall_congr' fun i => imp_congr_right fun _ => ?_
  simp only [h.jumpTables, h.isSome_blocks]

/-! ### the linear mode -/

section Linear

variable {d : SizedDisassembler} {entryAddr fnEnd : Addr}

/-- A target in code that the marking has not lost: a leader, or a call where it is outside. -/
def Landed (d : SizedDisassembler) (entryAddr fnEnd : Addr) (m : Marking) (t : Addr) : Prop :=
  d.inCode m.pendingData t = true →
    if inExtent entryAddr fnEnd t = true then m.leaders t = true else t ∈ m.discoveredCalls

/-- What a step of the marking does. -/
structure MarkStep (d : SizedDisassembler) (entryAddr fnEnd : Addr) (m m' : Marking) : Prop where
  inCode : ∀ t, d.inCode m'.pendingData t = true → d.inCode m.pendingData t = true
  leaders : ∀ t, m.leaders t = true → m'.leaders t = true
  calls : ∀ t ∈ m.discoveredCalls, t ∈ m'.discoveredCalls
  called : ∀ t ∈ m'.discoveredCalls, t ∈ m.discoveredCalls ∨ inExtent entryAddr fnEnd t = false
  tables : ∀ pc, ∀ t ∈ m'.jumpTables pc, t ∈ m.jumpTables pc ∨ Landed d entryAddr fnEnd m' t

theorem MarkStep.refl (m : Marking) : MarkStep d entryAddr fnEnd m m :=
  ⟨fun _ h => h, fun _ h => h, fun _ h => h, fun _ h => .inl h, fun _ _ h => .inl h⟩

theorem Landed.step {m m' : Marking} {t : Addr} (h : Landed d entryAddr fnEnd m t)
    (hs : MarkStep d entryAddr fnEnd m m') : Landed d entryAddr fnEnd m' t := by
  intro hcode
  have ht := h (hs.inCode t hcode)
  by_cases hin : inExtent entryAddr fnEnd t = true
  · rw [if_pos hin] at ht ⊢
    exact hs.leaders t ht
  · rw [if_neg hin] at ht ⊢
    exact hs.calls t ht

theorem MarkStep.trans {m₁ m₂ m₃ : Marking} (h : MarkStep d entryAddr fnEnd m₁ m₂)
    (h' : MarkStep d entryAddr fnEnd m₂ m₃) : MarkStep d entryAddr fnEnd m₁ m₃ where
  inCode t ht := h.inCode t (h'.inCode t ht)
  leaders t ht := h'.leaders t (h.leaders t ht)
  calls t ht := h'.calls t (h.calls t ht)
  called t ht := (h'.called t ht).elim (h.called t) .inr
  tables pc t ht := by
    rcases h'.tables pc t ht with ht | ht
    · exact (h.tables pc t ht).imp id fun hm => hm.step h'
    · exact .inr ht

theorem markStep_lead (m : Marking) (a : Addr) : MarkStep d entryAddr fnEnd m (m.lead a) := by
  refine ⟨fun _ h => h, fun t ht => ?_, fun _ h => h, fun _ h => .inl h, fun _ _ h => .inl h⟩
  show Function.update m.leaders a true t = true
  by_cases hta : t = a
  · rw [hta, Function.update_self]
  · rw [Function.update_of_ne hta]
    exact ht

theorem markStep_call (m : Marking) {a : Addr} (ha : inExtent entryAddr fnEnd a = false) :
    MarkStep d entryAddr fnEnd m (m.call a) := by
  refine ⟨fun _ h => h, fun _ h => h, fun t ht => List.mem_append_left _ ht, fun t ht => ?_,
    fun _ _ h => .inl h⟩
  rcases List.mem_append.1 ht with ht | ht
  · exact .inl ht
  · rw [List.mem_singleton.1 ht]
    exact .inr ha

theorem landed_jumpTo (d : SizedDisassembler) (entryAddr fnEnd : Addr) (m : Marking) (t : Addr) :
    MarkStep d entryAddr fnEnd m (m.jumpTo entryAddr fnEnd t) ∧
      Landed d entryAddr fnEnd (m.jumpTo entryAddr fnEnd t) t := by
  unfold Marking.jumpTo
  by_cases ht : inExtent entryAddr fnEnd t = true
  · rw [if_pos ht]
    refine ⟨markStep_lead m t, fun _ => ?_⟩
    rw [if_pos ht]
    exact Function.update_self ..
  · rw [if_neg ht]
    refine ⟨markStep_call m (by simpa using ht), fun _ => ?_⟩
    rw [if_neg ht]
    exact List.mem_append_right _ List.mem_cons_self

theorem landed_branchTo (d : SizedDisassembler) (entryAddr fnEnd : Addr) (m : Marking) (t : Addr) :
    MarkStep d entryAddr fnEnd m (d.branchTo entryAddr fnEnd m t) ∧
      Landed d entryAddr fnEnd (d.branchTo entryAddr fnEnd m t) t := by
  have hj := landed_jumpTo d entryAddr fnEnd m t
  unfold SizedDisassembler.branchTo
  by_cases hin : inExtent entryAddr fnEnd t = true
  · rw [Marking.jumpTo, if_pos hin] at hj
    rwa [if_pos hin]
  · rw [if_neg hin]
    by_cases hcode : d.inCode m.pendingData t = true
    · rw [Marking.jumpTo, if_neg hin] at hj
      rwa [if_pos hcode]
    · rw [if_neg hcode]
      exact ⟨MarkStep.refl m, fun h => absurd h hcode⟩

theorem markStep_leadNext (d : SizedDisassembler) (entryAddr fnEnd : Addr)
    (m : Marking) (i : Instruction) :
    MarkStep d entryAddr fnEnd m (m.leadNext fnEnd i) := by
  unfold Marking.leadNext
  split
  · exact markStep_lead m _
  · exact MarkStep.refl m

theorem landed_foldl_jumpTo (d : SizedDisassembler) (entryAddr fnEnd : Addr)
    (targets : List Addr) : ∀ m : Marking,
    MarkStep d entryAddr fnEnd m (targets.foldl (Marking.jumpTo entryAddr fnEnd) m) ∧
      ∀ t ∈ targets, Landed d entryAddr fnEnd (targets.foldl (Marking.jumpTo entryAddr fnEnd) m) t := by
  induction targets with
  | nil => exact fun m => ⟨MarkStep.refl m, fun t ht => (nomatch ht)⟩
  | cons a targets ih =>
      intro m
      obtain ⟨hstep, ha⟩ := landed_jumpTo d entryAddr fnEnd m a
      obtain ⟨hrest, hall⟩ := ih (m.jumpTo entryAddr fnEnd a)
      refine ⟨hstep.trans hrest, fun t ht => ?_⟩
      rcases List.mem_cons.1 ht with rfl | ht
      · exact ha.step hrest
      · exact hall t ht

theorem inCode_append {d : Disassembler} {r r' : List (Addr × Addr)} {t : Addr}
    (h : d.inCode (r ++ r') t = true) : d.inCode r t = true := by
  unfold Disassembler.inCode at h ⊢
  rw [List.any_append, Bool.not_or] at h
  simp only [Bool.and_eq_true] at h ⊢
  exact ⟨h.1, h.2.1⟩

theorem markStep_markTable (seen : List Instruction) (i : Instruction) (m : Marking) :
    MarkStep d entryAddr fnEnd m (d.markTable entryAddr fnEnd seen i m) := by
  unfold SizedDisassembler.markTable
  set r := d.resolveSwept m.pendingData entryAddr fnEnd (seen ++ [i])
  have hdata : MarkStep d entryAddr fnEnd m { m with pendingData := m.pendingData ++ r.2 } :=
    ⟨fun t ht => inCode_append ht, fun _ h => h, fun _ h => h, fun _ h => .inl h, fun _ _ h => .inl h⟩
  dsimp only
  split
  · exact hdata
  · rename_i targets _ _
    split
    · exact hdata
    · set m₁ : Marking := { m with
        pendingData := m.pendingData ++ r.2
        jumpTables := Function.update m.jumpTables i.address targets }
      obtain ⟨hrest, hall⟩ := landed_foldl_jumpTo d entryAddr fnEnd
        targets m₁
      refine ⟨fun t ht => inCode_append (hrest.inCode t ht), fun t ht => hrest.leaders t ht,
        fun t ht => hrest.calls t ht, fun t ht => hrest.called t ht, fun pc t ht => ?_⟩
      rcases hrest.tables pc t ht with ht | ht
      · by_cases hpc : pc = i.address
        · rw [hpc] at ht
          change t ∈ Function.update m.jumpTables i.address targets i.address at ht
          rw [Function.update_self] at ht
          exact .inr (hall t ht)
        · change t ∈ Function.update m.jumpTables i.address targets pc at ht
          rw [Function.update_of_ne hpc] at ht
          exact .inl ht
      · exact .inr ht

/-- **Step.**  Marking an instruction keeps its direct target. -/
theorem landed_mark (d : SizedDisassembler) (entryAddr fnEnd : Addr)
    (seen : List Instruction) (i : Instruction) (m : Marking) :
    MarkStep d entryAddr fnEnd m (d.mark entryAddr fnEnd seen i m) ∧
      ∀ t ∈ directTargets i, Landed d entryAddr fnEnd (d.mark entryAddr fnEnd seen i m) t := by
  have hnone : ∀ m', i.inst.op ≠ .jmp → isJcc i.inst.op = false → ∀ t ∈ directTargets i,
      Landed d entryAddr fnEnd m' t := by
    intro m' h1 h2 t ht
    rw [directTargets, if_neg (by simp [h1, h2])] at ht
    cases ht
  unfold SizedDisassembler.mark
  split
  · rename_i hop
    split
    · rename_i r harg
      obtain ⟨hstep, hmark⟩ := landed_jumpTo d entryAddr fnEnd m (i.relTarget r)
      have hnext := markStep_leadNext d entryAddr fnEnd
        (m.jumpTo entryAddr fnEnd (i.relTarget r)) i
      refine ⟨hstep.trans hnext, fun t ht => ?_⟩
      rw [directTargets, if_pos (.inl hop), harg] at ht
      rw [List.mem_singleton.1 ht]
      exact hmark.step hnext
    · rename_i harg
      refine ⟨(markStep_markTable seen i m).trans (markStep_leadNext d entryAddr fnEnd _ i), fun t ht => ?_⟩
      exfalso
      rw [directTargets, if_pos (.inl hop)] at ht
      split at ht
      · rename_i r hr
        exact harg r hr
      · cases ht
  · rename_i hop
    refine ⟨?_, hnone _ (by rw [hop]; simp) (by rw [hop]; rfl)⟩
    split
    · exact markStep_leadNext d entryAddr fnEnd m i
    · exact MarkStep.refl m
  · rename_i hop
    exact ⟨markStep_leadNext d entryAddr fnEnd m i, hnone _ (by rw [hop]; simp) (by rw [hop]; rfl)⟩
  · rename_i hop
    exact ⟨markStep_leadNext d entryAddr fnEnd m i, hnone _ (by rw [hop]; simp) (by rw [hop]; rfl)⟩
  · rename_i hjmp _ _ _
    split
    · rename_i hjcc
      split
      · rename_i r harg
        obtain ⟨hstep, hland⟩ := landed_branchTo d entryAddr fnEnd m (i.relTarget r)
        have hnext := markStep_leadNext d entryAddr fnEnd
          (d.branchTo entryAddr fnEnd m (i.relTarget r)) i
        refine ⟨hstep.trans hnext, fun t ht => ?_⟩
        rw [directTargets, if_pos (.inr hjcc), harg] at ht
        rw [List.mem_singleton.1 ht]
        exact hland.step hnext
      · rename_i harg
        refine ⟨markStep_leadNext d entryAddr fnEnd m i, fun t ht => ?_⟩
        exfalso
        rw [directTargets, if_pos (.inr hjcc)] at ht
        split at ht
        · rename_i r hr
          exact harg r hr
        · cases ht
    · rename_i hjcc
      exact ⟨MarkStep.refl m, hnone _ hjmp (by simpa using hjcc)⟩

/-- **Run.**  Every direct target of the loop is kept. -/
theorem landed_markAll (d : SizedDisassembler) (entryAddr fnEnd : Addr)
    (is : List Instruction) : ∀ (seen : List Instruction) (m : Marking),
    MarkStep d entryAddr fnEnd m (d.markAll entryAddr fnEnd seen is m) ∧
      ∀ i ∈ is, ∀ t ∈ directTargets i,
        Landed d entryAddr fnEnd (d.markAll entryAddr fnEnd seen is m) t := by
  induction is with
  | nil => exact fun seen m => ⟨MarkStep.refl m, fun i hi => (nomatch hi)⟩
  | cons i is ih =>
      intro seen m
      obtain ⟨hstep, hi⟩ := landed_mark d entryAddr fnEnd seen i m
      obtain ⟨hrest, hall⟩ := ih (seen ++ [i]) (d.mark entryAddr fnEnd seen i m)
      refine ⟨hstep.trans hrest, fun j hj t ht => ?_⟩
      rcases List.mem_cons.1 hj with rfl | hj
      · exact (hi t ht).step hrest
      · exact hall j hj t ht

theorem markStep_addends (d : SizedDisassembler) (entryAddr fnEnd : Addr)
    (addends : List (BitVec 64)) : ∀ m : Marking,
    MarkStep d entryAddr fnEnd m (addends.foldl (markAddend entryAddr fnEnd) m) := by
  induction addends with
  | nil => exact MarkStep.refl
  | cons a addends ih =>
      intro m
      refine MarkStep.trans ?_ (ih _)
      unfold markAddend
      split
      · exact markStep_lead m a
      · exact MarkStep.refl m

/-- The target of a direct call. -/
def directCall (i : Instruction) : List Addr :=
  if i.inst.op = .call then
    match i.inst.arg 0 with
    | some (.rel r) => [i.relTarget r]
    | _ => []
  else []

/-- In the range, the calls of a sweep are those of its call instructions. -/
theorem mem_sweptCalls {i : Instruction} {t : Addr} (hin : inExtent entryAddr fnEnd t = true) :
    t ∈ d.sweptCalls entryAddr fnEnd i ↔ t ∈ directCall i := by
  unfold SizedDisassembler.sweptCalls
  by_cases hcall : i.inst.op = .call
  · rw [directCall, if_pos hcall, hcall] <;> exact Iff.rfl
  · rw [directCall, if_neg hcall]
    refine iff_of_false (fun ht => ?_) (by simp)
    split at ht
    · rename_i hop
      exact hcall hop
    · split at ht
      · dsimp only at ht
        split at ht
        · rename_i hlea
          rw [List.mem_singleton.1 ht, hlea.2.1] at hin
          cases hin
        · cases ht
      · cases ht
    · cases ht

theorem landed_marking (d : SizedDisassembler) (entryAddr fnEnd : Addr) (insts : List Instruction) :
    (∀ i ∈ insts, ∀ t ∈ branchTargets (d.marking entryAddr fnEnd insts).jumpTables i,
      Landed d entryAddr fnEnd (d.marking entryAddr fnEnd insts) t) ∧
    ∀ t, inExtent entryAddr fnEnd t = true →
      (t ∈ (d.marking entryAddr fnEnd insts).discoveredCalls ↔ ∃ i ∈ insts, t ∈ directCall i) := by
  obtain ⟨hall, hdirect⟩ := landed_markAll d entryAddr fnEnd insts []
    { discoveredCalls := insts.flatMap (d.sweptCalls entryAddr fnEnd)
      leaders := fun a => a == entryAddr }
  have hadd := markStep_addends d entryAddr fnEnd d.addends
    (d.markAll entryAddr fnEnd [] insts
      { discoveredCalls := insts.flatMap (d.sweptCalls entryAddr fnEnd)
        leaders := fun a => a == entryAddr })
  have hrun := hall.trans hadd
  refine ⟨fun i hi t ht => ?_, fun t hin => ?_⟩
  · rcases List.mem_append.1 ht with ht | ht
    · exact (hdirect i hi t ht).step hadd
    · split at ht
      · exact (hrun.tables i.address t ht).resolve_left (by simp)
      · cases ht
  · have hbase : t ∈ insts.flatMap (d.sweptCalls entryAddr fnEnd) ↔ ∃ i ∈ insts, t ∈ directCall i := by
      rw [List.mem_flatMap]
      simp only [mem_sweptCalls hin]
    rw [← hbase]
    refine ⟨fun ht => ?_, fun ht => hrun.calls t ht⟩
    rcases hrun.called t ht with ht | hout
    · exact ht
    · rw [hin] at hout
      cases hout

/-- **Linear mode.**  Exactly when no target of a swept instruction is dropped: the sweep decodes at
each target in the range, or a call instruction names it. -/
theorem linear_kept_iff {fuel : ℕ} {out : Disassembled} {insts : List Instruction}
    (hs : d.sweep fnEnd fuel entryAddr = some insts)
    (h : d.disasmLinearFunction entryAddr fnEnd fuel = some out) :
    TargetsKept out (d.inCode out.pendingData) ↔
      ∀ i, out.Has i → ∀ t ∈ branchTargets out.fn.jumpTables i, d.inCode out.pendingData t = true →
        inExtent entryAddr fnEnd t = true →
          t ∈ insts.map (·.address) ∨ ∃ j, out.Has j ∧ t ∈ directCall j := by
  obtain ⟨hsome, hcover, haddr, hlead⟩ :=
    linear_blocks hs (d.marking entryAddr fnEnd insts).leaders
  obtain ⟨hland, hcalls⟩ := landed_marking d entryAddr fnEnd insts
  set m := d.marking entryAddr fnEnd insts with hm
  obtain ⟨fn, hfn, hsame⟩ : ∃ fn, out = ⟨fn, m.discoveredCalls, m.pendingData⟩ ∧
      SamePlain (m.function entryAddr fnEnd insts) fn := by
    unfold SizedDisassembler.disasmLinearFunction at h
    rw [hs] at h
    simp only [Option.bind_eq_bind, Option.bind_some, ← hm] at h
    split at h
    · cases h
    · split at h
      · cases h
        exact ⟨_, rfl, SamePlain.refl _⟩
      · cases h
        exact ⟨_, rfl, samePlain_marked _ _⟩
  subst hfn
  have hnamed : ∀ t, (∃ j, Disassembled.Has ⟨fn, m.discoveredCalls, m.pendingData⟩ j ∧ t ∈ directCall j) ↔
      ∃ j ∈ insts, t ∈ directCall j := by
    intro t
    rw [hsame.exists_has m.discoveredCalls m.pendingData (p := fun j => t ∈ directCall j) fun j => Iff.rfl]
    constructor
    · rintro ⟨j, ⟨s, b, hb, hj⟩, ht⟩
      exact ⟨j, hsome s b hb j hj, ht⟩
    · rintro ⟨j, hj, ht⟩
      obtain ⟨s, b, hb, hjb⟩ := hcover j hj
      exact ⟨j, ⟨s, b, hb, hjb⟩, ht⟩
  simp only [hnamed]
  rw [hsame.targetsKept_iff, hsame.jumpTables]
  rw [hsame.forall_has m.discoveredCalls m.pendingData (p := fun i =>
    ∀ t ∈ branchTargets (m.function entryAddr fnEnd insts).jumpTables i,
    d.inCode m.pendingData t = true → inExtent entryAddr fnEnd t = true →
      t ∈ insts.map (·.address) ∨ ∃ j ∈ insts, t ∈ directCall j) fun i => by
        rw [branchTargets_unmarked]]
  refine forall_congr' fun i => forall_congr' fun hi => forall_congr' fun t => forall_congr' fun ht => ?_
  obtain ⟨s, b, hb, hib⟩ := hi
  have hlanded := hland i (hsome s b hb i hib) t ht
  constructor
  · intro hkept hcode hin
    rcases hkept with hblock | hcall | hno
    · exact .inl (haddr t hblock)
    · exact .inr ((hcalls t hin).1 hcall)
    · rw [hcode] at hno
      cases hno
  · intro hcond
    by_cases hcode : d.inCode m.pendingData t = true
    · have hl := hlanded hcode
      by_cases hin : inExtent entryAddr fnEnd t = true
      · rw [if_pos hin] at hl
        rcases hcond hcode hin with hswept | hcall
        · obtain ⟨j, hj, rfl⟩ := List.mem_map.1 hswept
          exact .inl (hlead j hj hl)
        · exact .inr (.inl ((hcalls t hin).2 hcall))
      · rw [if_neg hin] at hl
        exact .inr (.inl hl)
    · exact .inr (.inr (by simpa using hcode))

end Linear

/-! ### branch following -/

section Follow

variable {d : Disassembler} {entryAddr fnEnd : Addr}

/-- The calls and the function addresses an instruction shows. -/
def Disassembler.shownCalls (d : Disassembler) (i : Instruction) : List Addr :=
  directCall i ++
    if i.inst.op = .lea then
      match i.inst.arg 1 with
      | some (.mem m) =>
          if m.base = some .rip ∧ d.seedable (ripTarget i.nextPC m) = true then [ripTarget i.nextPC m]
          else []
      | _ => []
    else []

/-- A target in code that the walk has not lost: a block to decode, or a call where it is outside.
The target 0 is dropped everywhere. -/
def Edged (d : Disassembler) (entryAddr fnEnd : Addr) (w : Walk) (t : Addr) : Prop :=
  d.inCode w.pendingData t = true → t ≠ 0 →
    if inExtent entryAddr fnEnd t = true then w.jumpTargets t = true else t ∈ w.discoveredCalls

/-- Steps that decode nothing; `shown` are the calls they add beside tail calls. -/
structure Widens (d : Disassembler) (entryAddr fnEnd : Addr) (shown : List Addr) (w w' : Walk) :
    Prop where
  insts : w'.insts = w.insts
  inCode : ∀ t, d.inCode w'.pendingData t = true → d.inCode w.pendingData t = true
  targets : ∀ t, w.jumpTargets t = true → w'.jumpTargets t = true
  queue : ∀ t ∈ w.queue, t ∈ w'.queue
  visited : w.visited = w.jumpTargets → w'.visited = w'.jumpTargets
  queued : w.visited = w.jumpTargets → ∀ t, w'.jumpTargets t = true →
    w.jumpTargets t = true ∨ t ∈ w'.queue ∧ inExtent entryAddr fnEnd t = true
  calls : ∀ t ∈ w.discoveredCalls, t ∈ w'.discoveredCalls
  called : ∀ t ∈ w'.discoveredCalls,
    t ∈ w.discoveredCalls ∨ t ∈ shown ∨ inExtent entryAddr fnEnd t = false ∧ t ≠ 0
  tables : ∀ pc, ∀ t ∈ w'.jumpTables pc, t ∈ w.jumpTables pc ∨ Edged d entryAddr fnEnd w' t

theorem Widens.quiet {w w' : Walk} (shown : List Addr) (h₁ : w'.insts = w.insts)
    (h₂ : ∀ t, d.inCode w'.pendingData t = true → d.inCode w.pendingData t = true)
    (h₃ : w'.jumpTargets = w.jumpTargets) (h₄ : w'.queue = w.queue) (h₅ : w'.visited = w.visited)
    (h₆ : w'.discoveredCalls = w.discoveredCalls) (h₇ : w'.jumpTables = w.jumpTables) :
    Widens d entryAddr fnEnd shown w w' where
  insts := h₁
  inCode := h₂
  targets t ht := by rwa [h₃]
  queue t ht := by rwa [h₄]
  visited hv := by rw [h₅, h₃, hv]
  queued _ t ht := by
    rw [h₃] at ht
    exact .inl ht
  calls t ht := by rwa [h₆]
  called t ht := by
    rw [h₆] at ht
    exact .inl ht
  tables pc t ht := by
    rw [h₇] at ht
    exact .inl ht

theorem Widens.refl (shown : List Addr) (w : Walk) : Widens d entryAddr fnEnd shown w w :=
  Widens.quiet shown rfl (fun _ h => h) rfl rfl rfl rfl rfl

theorem Edged.widens {shown : List Addr} {w w' : Walk} {t : Addr} (h : Edged d entryAddr fnEnd w t)
    (hs : Widens d entryAddr fnEnd shown w w') : Edged d entryAddr fnEnd w' t := by
  intro hcode hne
  have ht := h (hs.inCode t hcode) hne
  by_cases hin : inExtent entryAddr fnEnd t = true
  · rw [if_pos hin] at ht ⊢
    exact hs.targets t ht
  · rw [if_neg hin] at ht ⊢
    exact hs.calls t ht

theorem Widens.trans {shown : List Addr} {w₁ w₂ w₃ : Walk} (h : Widens d entryAddr fnEnd shown w₁ w₂)
    (h' : Widens d entryAddr fnEnd shown w₂ w₃) : Widens d entryAddr fnEnd shown w₁ w₃ where
  insts := h'.insts.trans h.insts
  inCode t ht := h.inCode t (h'.inCode t ht)
  targets t ht := h'.targets t (h.targets t ht)
  queue t ht := h'.queue t (h.queue t ht)
  visited hv := h'.visited (h.visited hv)
  queued hv t ht := by
    rcases h'.queued (h.visited hv) t ht with ht | ht
    · exact (h.queued hv t ht).imp id fun hq => ⟨h'.queue t hq.1, hq.2⟩
    · exact .inr ht
  calls t ht := h'.calls t (h.calls t ht)
  called t ht := by
    rcases h'.called t ht with ht | ht
    · exact h.called t ht
    · exact .inr ht
  tables pc t ht := by
    rcases h'.tables pc t ht with ht | ht
    · exact (h.tables pc t ht).imp id fun he => he.widens h'
    · exact .inr ht

theorem widens_enqueueBlock (shown : List Addr) (w : Walk) {t : Addr}
    (hin : inExtent entryAddr fnEnd t = true) :
    Widens d entryAddr fnEnd shown w (d.enqueueBlock w t) := by
  have hmono : ∀ a, w.jumpTargets a = true → Function.update w.jumpTargets t true a = true := by
    intro a ha
    by_cases hat : a = t
    · rw [hat, Function.update_self]
    · rw [Function.update_of_ne hat]
      exact ha
  unfold Disassembler.enqueueBlock
  split
  · exact Widens.refl shown w
  · dsimp only
    split
    · rename_i hvis
      -- the target was queued before
      have hsame : w.visited = w.jumpTargets →
          Function.update w.jumpTargets t true = w.jumpTargets := by
        intro hv
        rw [hv] at hvis
        exact Function.update_eq_self_iff.2 hvis.symm
      refine ⟨rfl, fun _ h => h, hmono, fun _ h => h, fun hv => hv.trans (hsame hv).symm,
        fun hv a ha => .inl ?_, fun _ h => h, fun _ h => .inl h, fun _ _ h => .inl h⟩
      rw [← hsame hv]
      exact ha
    · refine ⟨rfl, fun _ h => h, hmono, fun a ha => List.mem_append_left _ ha, fun hv => ?_,
        fun hv a ha => ?_, fun _ h => h, fun _ h => .inl h, fun _ _ h => .inl h⟩
      · show Function.update w.visited t true = Function.update w.jumpTargets t true
        rw [hv]
      · change Function.update w.jumpTargets t true a = true at ha
        by_cases hat : a = t
        · rw [hat]
          exact .inr ⟨List.mem_append_right _ List.mem_cons_self, hin⟩
        · rw [Function.update_of_ne hat] at ha
          exact .inl ha

theorem edged_edge (d : Disassembler) (entryAddr fnEnd : Addr)
    (shown : List Addr) (blockStart : Addr) (w : Walk) (t : Addr) :
    Widens d entryAddr fnEnd shown w (d.edge entryAddr fnEnd blockStart w t) ∧
      Edged d entryAddr fnEnd (d.edge entryAddr fnEnd blockStart w t) t := by
  have hpreds : ∀ p, Widens d entryAddr fnEnd shown w { w with blockPreds := p } := fun p =>
    Widens.quiet shown rfl (fun _ h => h) rfl rfl rfl rfl rfl
  unfold Disassembler.edge
  dsimp only
  split
  · rename_i hinside
    simp only [Disassembler.inside, Bool.and_eq_true] at hinside
    refine ⟨(hpreds _).trans (widens_enqueueBlock shown _ hinside.1), fun hcode hne => ?_⟩
    rw [if_pos (show inExtent entryAddr fnEnd t = true from hinside.1)]
    have hno : ¬ (t = 0 ∨ d.inCode w.pendingData t = false) := by
      rw [hinside.2]
      simpa using hne
    unfold Disassembler.enqueueBlock
    rw [if_neg hno]
    dsimp only
    split
    · exact Function.update_self ..
    · exact Function.update_self ..
  · rename_i hinside
    split
    · rename_i htail
      have hout : inExtent entryAddr fnEnd t = false := by
        rw [Disassembler.inside, htail.2, Bool.and_true] at hinside
        exact Bool.not_eq_true _ ▸ hinside
      refine ⟨⟨rfl, fun _ h => h, fun _ h => h, fun _ h => h, fun h => h, fun _ _ h => .inl h,
        fun a ha => List.mem_append_left _ ha, fun a ha => ?_, fun _ _ h => .inl h⟩, fun _ _ => ?_⟩
      · rcases List.mem_append.1 ha with ha | ha
        · exact .inl ha
        · rw [List.mem_singleton.1 ha]
          exact .inr (.inr ⟨hout, htail.1⟩)
      · rw [hout, if_neg (by simp)]
        exact List.mem_append_right _ List.mem_cons_self
    · rename_i htail
      refine ⟨hpreds _, fun hcode hne => ?_⟩
      exact absurd ⟨hne, hcode⟩ htail

theorem edged_foldl_edge (d : Disassembler) (entryAddr fnEnd : Addr)
    (shown : List Addr) (blockStart : Addr) (targets : List Addr) : ∀ w : Walk,
    Widens d entryAddr fnEnd shown w (targets.foldl (d.edge entryAddr fnEnd blockStart) w) ∧
      ∀ t ∈ targets, Edged d entryAddr fnEnd (targets.foldl (d.edge entryAddr fnEnd blockStart) w) t := by
  induction targets with
  | nil => exact fun w => ⟨Widens.refl shown w, fun t ht => (nomatch ht)⟩
  | cons a targets ih =>
      intro w
      obtain ⟨hstep, ha⟩ := edged_edge d entryAddr fnEnd shown blockStart w a
      obtain ⟨hrest, hall⟩ := ih (d.edge entryAddr fnEnd blockStart w a)
      refine ⟨hstep.trans hrest, fun t ht => ?_⟩
      rcases List.mem_cons.1 ht with rfl | ht
      · exact ha.widens hrest
      · exact hall t ht

theorem widens_table (shown : List Addr) (blockStart pc : Addr) (targets : List Addr) (w : Walk) :
    Widens d entryAddr fnEnd shown w (targets.foldl (d.edge entryAddr fnEnd blockStart)
      { w with jumpTables := Function.update w.jumpTables pc targets }) := by
  obtain ⟨hrest, hall⟩ := edged_foldl_edge d entryAddr fnEnd shown
    blockStart targets { w with jumpTables := Function.update w.jumpTables pc targets }
  refine ⟨hrest.insts, hrest.inCode, hrest.targets, hrest.queue, hrest.visited, hrest.queued,
    hrest.calls, hrest.called, fun pc' t ht => ?_⟩
  rcases hrest.tables pc' t ht with ht | ht
  · by_cases hpc : pc' = pc
    · rw [hpc] at ht
      change t ∈ Function.update w.jumpTables pc targets pc at ht
      rw [Function.update_self] at ht
      exact .inr (hall t ht)
    · change t ∈ Function.update w.jumpTables pc targets pc' at ht
      rw [Function.update_of_ne hpc] at ht
      exact .inl ht
  · exact .inr ht

theorem widens_indirectJump (shown : List Addr) (blockStart : Addr) (cur : List Instruction)
    (pc : Addr) (w : Walk) :
    Widens d entryAddr fnEnd shown w (d.indirectJump entryAddr fnEnd blockStart cur pc w) := by
  unfold Disassembler.indirectJump
  dsimp only
  set r := d.resolveJumpTable w entryAddr fnEnd blockStart cur
  have hdata : Widens d entryAddr fnEnd shown w { w with pendingData := w.pendingData ++ r.2 } :=
    Widens.quiet shown rfl (fun _ h => inCode_append h) rfl rfl rfl rfl rfl
  split
  · exact hdata
  · split
    · exact hdata
    · split
      · exact Widens.quiet shown rfl (fun _ h => inCode_append h) rfl rfl rfl rfl rfl
      · exact hdata.trans (widens_table shown blockStart pc _ _)

theorem widens_acceptWeak (d : Disassembler) (entryAddr fnEnd : Addr)
    (shown : List Addr) (w : Walk) (s : WeakSwitch) :
    Widens d entryAddr fnEnd shown w (d.acceptWeak entryAddr fnEnd w s) := by
  unfold Disassembler.acceptWeak
  dsimp only
  split
  · exact Widens.refl shown w
  · exact widens_table shown s.start s.pc _ w

theorem widens_call {shown : List Addr} (w : Walk) {t : Addr} (ht : t ∈ shown) :
    Widens d entryAddr fnEnd shown w { w with discoveredCalls := w.discoveredCalls ++ [t] } := by
  refine ⟨rfl, fun _ h => h, fun _ h => h, fun _ h => h, fun h => h, fun _ _ h => .inl h,
    fun a ha => List.mem_append_left _ ha, fun a ha => ?_, fun _ _ h => .inl h⟩
  rcases List.mem_append.1 ha with ha | ha
  · exact .inl ha
  · rw [List.mem_singleton.1 ha]
    exact .inr (.inl ht)

theorem directTargets_of_rel {i : Instruction} (hop : i.inst.op = .jmp ∨ isJcc i.inst.op = true)
    {r : BitVec 32} (harg : i.inst.arg 0 = some (.rel r)) : directTargets i = [i.relTarget r] := by
  rw [directTargets, if_pos hop, harg]

theorem directTargets_of_not_rel {i : Instruction}
    (harg : ∀ r, i.inst.arg 0 ≠ some (.rel r)) : directTargets i = [] := by
  unfold directTargets
  split
  · split
    · rename_i r hr
      exact absurd hr (harg r)
    · rfl
  · rfl

theorem directTargets_of_not_branch {i : Instruction} (h₁ : i.inst.op ≠ .jmp)
    (h₂ : isJcc i.inst.op = false) : directTargets i = [] := by
  rw [directTargets, if_neg (by simp [h₁, h₂])]

theorem shownCalls_of_other {i : Instruction} (h₁ : i.inst.op ≠ .call) (h₂ : i.inst.op ≠ .lea) :
    d.shownCalls i = [] := by
  rw [Disassembler.shownCalls, directCall, if_neg h₁, if_neg h₂, List.append_nil]

/-- What decoding an instruction must not lose: its direct targets and the calls it shows. -/
structure Keeps (d : Disassembler) (entryAddr fnEnd : Addr) (i : Instruction) (w : Walk) : Prop where
  targets : ∀ t ∈ directTargets i, Edged d entryAddr fnEnd w t
  shown : ∀ t ∈ d.shownCalls i, d.inCode w.pendingData t = true → t ∈ w.discoveredCalls

/-- **Step.**  The `switch` on an instruction keeps its targets and its calls. -/
theorem keeps_transfer (d : Disassembler) (entryAddr fnEnd : Addr)
    (blockStart : Addr) (cur : List Instruction) (i : Instruction) (w : Walk) :
    Widens d entryAddr fnEnd (d.shownCalls i) w (d.transfer entryAddr fnEnd blockStart cur i w) ∧
      Keeps d entryAddr fnEnd i (d.transfer entryAddr fnEnd blockStart cur i w) := by
  have hedge := fun w t => edged_edge d entryAddr fnEnd
    (d.shownCalls i) blockStart w t
  have hquiet : ∀ {w'}, i.inst.op ≠ .call → i.inst.op ≠ .lea → directTargets i = [] →
      Keeps d entryAddr fnEnd i w' := by
    intro w' h₁ h₂ h₃
    refine ⟨fun t ht => ?_, fun t ht => ?_⟩
    · rw [h₃] at ht
      cases ht
    · rw [shownCalls_of_other h₁ h₂] at ht
      cases ht
  unfold Disassembler.transfer
  dsimp only
  split
  · rename_i hop
    split
    · rename_i r harg
      obtain ⟨hstep, hkeep⟩ := hedge w (i.relTarget r)
      refine ⟨hstep, fun t ht => ?_, fun t ht => ?_⟩
      · rw [directTargets_of_rel (.inl hop) harg] at ht
        rw [List.mem_singleton.1 ht]
        exact hkeep
      · rw [shownCalls_of_other (by rw [hop]; simp) (by rw [hop]; simp)] at ht
        cases ht
    · rename_i harg
      exact ⟨widens_indirectJump _ blockStart cur _ w,
        hquiet (by rw [hop]; simp) (by rw [hop]; simp) (directTargets_of_not_rel harg)⟩
  · rename_i hop
    exact ⟨Widens.refl _ w, hquiet (by rw [hop]; simp) (by rw [hop]; simp)
      (directTargets_of_not_branch (by rw [hop]; simp) (by rw [hop]; rfl))⟩
  · rename_i hop
    exact ⟨Widens.refl _ w, hquiet (by rw [hop]; simp) (by rw [hop]; simp)
      (directTargets_of_not_branch (by rw [hop]; simp) (by rw [hop]; rfl))⟩
  · rename_i hop
    have hnone : directTargets i = [] := directTargets_of_not_branch (by rw [hop]; simp) (by rw [hop]; rfl)
    have hlea : i.inst.op ≠ .lea := by rw [hop]; simp
    split
    · rename_i r harg
      have hshown : d.shownCalls i = [i.relTarget r] := by
        rw [Disassembler.shownCalls, directCall, if_pos hop, harg, if_neg hlea]
        rfl
      refine ⟨widens_call w (by rw [hshown]; exact List.mem_cons_self), fun t ht => ?_, fun t ht _ => ?_⟩
      · rw [hnone] at ht
        cases ht
      · rw [hshown] at ht
        rw [List.mem_singleton.1 ht]
        exact List.mem_append_right _ List.mem_cons_self
    · rename_i harg
      have hshown : d.shownCalls i = [] := by
        rw [Disassembler.shownCalls, directCall, if_pos hop, if_neg hlea, List.append_nil]
        split
        · rename_i r hr
          exact absurd hr (harg r)
        · rfl
      refine ⟨Widens.refl _ w, fun t ht => ?_, fun t ht => ?_⟩
      · rw [hnone] at ht
        cases ht
      · rw [hshown] at ht
        cases ht
  · rename_i hop
    have hnone : directTargets i = [] := directTargets_of_not_branch (by rw [hop]; simp) (by rw [hop]; rfl)
    have hcall : i.inst.op ≠ .call := by rw [hop]; simp
    have htargets : ∀ {w'} t, t ∈ directTargets i → Edged d entryAddr fnEnd w' t := by
      intro w' t ht
      rw [hnone] at ht
      cases ht
    split
    · rename_i m harg
      have hshown : d.shownCalls i =
          if m.base = some .rip ∧ d.seedable (ripTarget i.nextPC m) = true then [ripTarget i.nextPC m]
          else [] := by
        rw [Disassembler.shownCalls, directCall, if_neg hcall, if_pos hop, harg]
        rfl
      split
      · rename_i hseed
        rw [hshown, if_pos ⟨hseed.1, hseed.2.2⟩]
        refine ⟨widens_call w List.mem_cons_self, fun t ht => htargets t ht, fun t ht _ => ?_⟩
        rw [hshown, if_pos ⟨hseed.1, hseed.2.2⟩] at ht
        rw [List.mem_singleton.1 ht]
        exact List.mem_append_right _ List.mem_cons_self
      · rename_i hseed
        refine ⟨Widens.refl _ w, fun t ht => htargets t ht, fun t ht hcode => ?_⟩
        rw [hshown] at ht
        split at ht
        · rename_i h
          rw [List.mem_singleton.1 ht] at hcode
          exact absurd ⟨h.1, hcode, h.2⟩ hseed
        · cases ht
    · rename_i harg
      refine ⟨Widens.refl _ w, fun t ht => htargets t ht, fun t ht => ?_⟩
      rw [Disassembler.shownCalls, directCall, if_neg hcall, if_pos hop] at ht
      split at ht
      · rename_i m hm
        exact absurd hm (harg m)
      · cases ht
  · rename_i hjmp _ _ hcall hlea
    split
    · rename_i hjcc
      have hshown : d.shownCalls i = [] := shownCalls_of_other hcall hlea
      have hnext : ∀ w' : Walk, Widens d entryAddr fnEnd (d.shownCalls i) w'
          (if d.inside entryAddr fnEnd w'.pendingData i.nextPC = true then
            d.edge entryAddr fnEnd blockStart w' i.nextPC else w') := by
        intro w'
        split
        · exact (hedge w' _).1
        · exact Widens.refl _ w'
      have hno : ∀ {w' : Walk} t, t ∈ d.shownCalls i → d.inCode w'.pendingData t = true →
          t ∈ w'.discoveredCalls := by
        intro w' t ht
        rw [hshown] at ht
        cases ht
      split
      · rename_i r harg
        obtain ⟨hstep, hkeep⟩ := hedge w (i.relTarget r)
        refine ⟨hstep.trans (hnext _), fun t ht => ?_, fun t ht => hno t ht⟩
        rw [directTargets_of_rel (.inr hjcc) harg] at ht
        rw [List.mem_singleton.1 ht]
        exact hkeep.widens (hnext _)
      · rename_i harg
        refine ⟨hnext w, fun t ht => ?_, fun t ht => hno t ht⟩
        rw [directTargets_of_not_rel harg] at ht
        cases ht
    · rename_i hjcc
      exact ⟨Widens.refl _ w, hquiet hcall hlea (directTargets_of_not_branch hjmp (by simpa using hjcc))⟩

theorem Keeps.widens {shown : List Addr} {i : Instruction} {w w' : Walk}
    (h : Keeps d entryAddr fnEnd i w) (hs : Widens d entryAddr fnEnd shown w w') :
    Keeps d entryAddr fnEnd i w' :=
  ⟨fun t ht => (h.targets t ht).widens hs, fun t ht hcode => hs.calls t (h.shown t ht (hs.inCode t hcode))⟩

/-- The bytes at an address decode to unprivileged code. -/
def Disassembler.decodes (d : Disassembler) (t : Addr) : Bool :=
  match d.decodeAt t with
  | some inst => !isPrivileged inst.op
  | none => false

/-- A queued target whose run is over: decoded, or there was nothing to decode. -/
def Done (d : Disassembler) (fnEnd : Addr) (w : Walk) (t : Addr) : Prop :=
  d.inCode w.pendingData t = false ∨ fnEnd.toNat ≤ t.toNat ∨ d.decodes t = false ∨ (w.insts t).isSome

/-- The invariant of the targets.  `running` is the start of a run that has decoded nothing yet. -/
structure TargetInv (d : Disassembler) (entryAddr fnEnd : Addr) (running : Option Addr) (w : Walk) :
    Prop where
  visited : w.visited = w.jumpTargets
  entry : w.jumpTargets entryAddr = true
  above : ∀ t, w.jumpTargets t = true → entryAddr.toNat ≤ t.toNat
  extent : ∀ t, (w.insts t).isSome → inExtent entryAddr fnEnd t = true ∧ d.decodes t = true
  done : ∀ t, w.jumpTargets t = true → t ∈ w.queue ∨ Done d fnEnd w t ∨ running = some t
  tables : ∀ pc, ∀ t ∈ w.jumpTables pc, Edged d entryAddr fnEnd w t
  called : ∀ t ∈ w.discoveredCalls, (∃ i, w.insts i.address = some i ∧ t ∈ d.shownCalls i) ∨
    inExtent entryAddr fnEnd t = false ∧ t ≠ 0

/-- Every decoded instruction keeps its targets and calls. -/
def AllKept (d : Disassembler) (entryAddr fnEnd : Addr) (w : Walk) : Prop :=
  ∀ i, w.insts i.address = some i → Keeps d entryAddr fnEnd i w

theorem Done.widens {shown : List Addr} {w w' : Walk} {t : Addr} (h : Done d fnEnd w t)
    (hs : Widens d entryAddr fnEnd shown w w') : Done d fnEnd w' t := by
  rcases h with h | h | h | h
  · refine .inl ?_
    by_contra hcode
    rw [Bool.not_eq_false] at hcode
    rw [hs.inCode t hcode] at h
    cases h
  · exact .inr (.inl h)
  · exact .inr (.inr (.inl h))
  · exact .inr (.inr (.inr (by rwa [hs.insts])))

theorem AllKept.widens {shown : List Addr} {w w' : Walk} (h : AllKept d entryAddr fnEnd w)
    (hs : Widens d entryAddr fnEnd shown w w') : AllKept d entryAddr fnEnd w' := by
  intro i hi
  rw [hs.insts] at hi
  exact (h i hi).widens hs

theorem TargetInv.widens {running : Option Addr} {shown : List Addr} {w w' : Walk}
    (h : TargetInv d entryAddr fnEnd running w) (hs : Widens d entryAddr fnEnd shown w w')
    (hshown : ∀ t ∈ shown, ∃ i, w.insts i.address = some i ∧ t ∈ d.shownCalls i) :
    TargetInv d entryAddr fnEnd running w' where
  visited := hs.visited h.visited
  entry := hs.targets _ h.entry
  above t ht := by
    rcases hs.queued h.visited t ht with ht | ⟨-, hin⟩
    · exact h.above t ht
    · exact (of_decide_eq_true hin).1
  extent t ht := h.extent t (hs.insts ▸ ht)
  done t ht := by
    rcases hs.queued h.visited t ht with ht | ⟨hq, -⟩
    · rcases h.done t ht with hq | hd | hr
      · exact .inl (hs.queue t hq)
      · exact .inr (.inl (hd.widens hs))
      · exact .inr (.inr hr)
    · exact .inl hq
  tables pc t ht := by
    rcases hs.tables pc t ht with ht | ht
    · exact (h.tables pc t ht).widens hs
    · exact ht
  called t ht := by
    rw [hs.insts]
    rcases hs.called t ht with ht | ht | ht
    · exact h.called t ht
    · exact .inl (hshown t ht)
    · exact .inr ht

theorem targetInv_record {w : Walk} {pc : Addr} {inst : Inst} {running : Option Addr}
    (hw : WalkInv d w) (h : TargetInv d entryAddr fnEnd running w)
    (hrun : ∀ t, running = some t → t = pc) (hdec : d.decodeAt pc = some inst)
    (hplain : isPrivileged inst.op = false) (hlo : entryAddr.toNat ≤ pc.toNat)
    (hhi : pc.toNat < fnEnd.toNat) :
    TargetInv d entryAddr fnEnd none (w.record { address := pc, inst }) := by
  have hmono : ∀ i : Instruction, w.insts i.address = some i →
      (w.record { address := pc, inst }).insts i.address = some i := by
    intro i hi
    by_cases hpc : i.address = pc
    · -- the same bytes decode to the same instruction
      obtain ⟨inst', hdec', heq⟩ := hw.decoded _ i hi
      rw [hpc, hdec] at hdec'
      cases hdec'
      rw [hpc] at heq
      rw [Walk.record]
      show Function.update w.insts pc _ i.address = some i
      rw [hpc, Function.update_self, heq]
    · show Function.update w.insts pc _ i.address = some i
      rw [Function.update_of_ne hpc]
      exact hi
  have hsome : ∀ t, (w.insts t).isSome → ((w.record { address := pc, inst }).insts t).isSome := by
    intro t ht
    show (Function.update w.insts pc _ t).isSome = true
    by_cases hpc : t = pc
    · rw [hpc, Function.update_self]
      rfl
    · rw [Function.update_of_ne hpc]
      exact ht
  have hat : ((w.record { address := pc, inst }).insts pc).isSome := by
    show (Function.update w.insts pc _ pc).isSome = true
    rw [Function.update_self]
    rfl
  refine ⟨h.visited, h.entry, h.above, fun t ht => ?_, fun t ht => ?_, h.tables, fun t ht => ?_⟩
  · by_cases hpc : t = pc
    · rw [hpc]
      refine ⟨decide_eq_true ⟨hlo, hhi⟩, ?_⟩
      rw [Disassembler.decodes, hdec]
      simp [hplain]
    · refine h.extent t ?_
      change (Function.update w.insts pc _ t).isSome = true at ht
      rwa [Function.update_of_ne hpc] at ht
  · rcases h.done t ht with hq | hd | hr
    · exact .inl hq
    · refine .inr (.inl ?_)
      rcases hd with hd | hd | hd | hd
      · exact .inl hd
      · exact .inr (.inl hd)
      · exact .inr (.inr (.inl hd))
      · exact .inr (.inr (.inr (hsome t hd)))
    · rw [hrun t hr]
      exact .inr (.inl (.inr (.inr (.inr hat))))
  · rcases h.called t ht with ⟨i, hi, hcall⟩ | hout
    · exact .inl ⟨i, hmono i hi, hcall⟩
    · exact .inr hout

/-- **Step.**  Decoding one instruction of the range. -/
theorem targetInv_decode {w : Walk} {pc : Addr} {inst : Inst} {running : Option Addr}
    (hw : WalkInv d w) (h : TargetInv d entryAddr fnEnd running w) (hkept : AllKept d entryAddr fnEnd w)
    (hrun : ∀ t, running = some t → t = pc) (hdec : d.decodeAt pc = some inst)
    (hplain : isPrivileged inst.op = false) (hlo : entryAddr.toNat ≤ pc.toNat)
    (hhi : pc.toNat < fnEnd.toNat) (blockStart : Addr) (cur : List Instruction) :
    TargetInv d entryAddr fnEnd none (d.transfer entryAddr fnEnd blockStart cur
        { address := pc, inst } (w.record { address := pc, inst })) ∧
      AllKept d entryAddr fnEnd (d.transfer entryAddr fnEnd blockStart cur
        { address := pc, inst } (w.record { address := pc, inst })) := by
  have hrec := targetInv_record hw h hrun hdec hplain hlo hhi
  obtain ⟨hstep, hkeep⟩ := keeps_transfer d entryAddr fnEnd blockStart
    cur { address := pc, inst } (w.record { address := pc, inst })
  have hself : (w.record { address := pc, inst }).insts pc = some { address := pc, inst } :=
    Function.update_self ..
  refine ⟨hrec.widens hstep fun t ht => ⟨{ address := pc, inst }, hself, ht⟩, fun i hi => ?_⟩
  rw [hstep.insts] at hi
  by_cases hpc : i.address = pc
  · rw [hpc, hself] at hi
    cases hi
    exact hkeep
  · have hi' : w.insts i.address = some i := by
      change Function.update w.insts pc _ i.address = some i at hi
      rwa [Function.update_of_ne hpc] at hi
    have hrecord : Keeps d entryAddr fnEnd i (w.record { address := pc, inst }) :=
      ⟨(hkept i hi').targets, (hkept i hi').shown⟩
    exact hrecord.widens hstep

theorem TargetInv.stop {w : Walk} {running : Option Addr} (h : TargetInv d entryAddr fnEnd running w)
    (hdone : ∀ t, running = some t → Done d fnEnd w t) : TargetInv d entryAddr fnEnd none w :=
  { h with
    done := fun t ht => by
      rcases h.done t ht with hq | hd | hr
      · exact .inl hq
      · exact .inr (.inl hd)
      · exact .inr (.inl (hdone t hr)) }

/-- Steps of the walk that only note a finished run or the cap. -/
theorem widens_note (w : Walk) (b : Addr → List Instruction) (c : Bool) :
    Widens d entryAddr fnEnd [] w { w with blockInsts := b, capped := c } :=
  Widens.quiet [] rfl (fun _ h => h) rfl rfl rfl rfl rfl

theorem TargetInv.note {w : Walk} (h : TargetInv d entryAddr fnEnd none w ∧ AllKept d entryAddr fnEnd w)
    (b : Addr → List Instruction) (c : Bool) :
    TargetInv d entryAddr fnEnd none { w with blockInsts := b, capped := c } ∧
      AllKept d entryAddr fnEnd { w with blockInsts := b, capped := c } :=
  ⟨h.1.widens (widens_note w b c) fun _ ht => (nomatch ht), h.2.widens (widens_note w b c)⟩

/-- **Run.**  One run keeps the invariant and closes its start. -/
theorem targetInv_decodeRun (blockStart : Addr) : ∀ fuel pc cur (w w' : Walk) (running : Option Addr),
    WalkInv d w → (w.jumpTargets pc = true ∨ Follows d w pc) →
    TargetInv d entryAddr fnEnd running w → AllKept d entryAddr fnEnd w →
    (∀ t, running = some t → t = pc) → entryAddr.toNat ≤ pc.toNat →
    d.decodeRun entryAddr fnEnd blockStart fuel pc cur w = some w' →
    TargetInv d entryAddr fnEnd none w' ∧ AllKept d entryAddr fnEnd w' := by
  intro fuel
  induction fuel with
  | zero => intro pc cur w w' _ _ _ _ _ _ _ h; cases h
  | succ fuel ih =>
      intro pc cur w w' running hw hpc hinv hkept hrun hlo h
      have hstop : Done d fnEnd w pc → TargetInv d entryAddr fnEnd none w ∧ AllKept d entryAddr fnEnd w :=
        fun hd => ⟨hinv.stop fun t ht => by rw [hrun t ht]; exact hd, hkept⟩
      simp only [Disassembler.decodeRun] at h
      split at h
      · rename_i hout
        cases h
        refine TargetInv.note (hstop ?_) _ _
        by_cases hhi : pc.toNat < fnEnd.toNat
        · exact .inl (by simpa [hhi] using hout)
        · exact .inr (.inl (Nat.le_of_not_lt hhi))
      · rename_i hin
        obtain ⟨hhi, hcode⟩ := not_not.1 hin
        split at h
        · rename_i hdec
          cases h
          refine TargetInv.note (hstop (.inr (.inr (.inl ?_)))) _ _
          rw [Disassembler.decodes, hdec]
        · rename_i inst hdec
          split at h
          · rename_i hpriv
            cases h
            refine TargetInv.note (hstop (.inr (.inr (.inl ?_)))) _ _
            rw [Disassembler.decodes, hdec]
            simp [hpriv]
          · rename_i hpriv
            obtain ⟨hrec, -⟩ := walkInv_record hw hdec hpc
            have hgrow := grows_transfer d entryAddr fnEnd blockStart
              (cur ++ [{ address := pc, inst }]) { address := pc, inst }
              (w.record { address := pc, inst })
            have hstep := targetInv_decode hw hinv hkept hrun hdec (by simpa using hpriv) hlo hhi
              blockStart (cur ++ [{ address := pc, inst }])
            split at h
            · cases h
              exact TargetInv.note hstep _ _
            · rename_i hends
              split at h
              · split at h
                · cases h
                  have hedge := fun w₀ : Walk => (edged_edge d entryAddr fnEnd [] blockStart w₀ ({ address := pc, inst } : Instruction).nextPC).1
                  exact TargetInv.note ⟨hstep.1.widens (hedge _) fun t ht => (by cases ht),
                    hstep.2.widens (hedge _)⟩ _ _
                · cases h
                  exact TargetInv.note hstep _ _
              · split at h
                · cases h
                  exact TargetInv.note hstep _ _
                · have hnext := nextPC_toNat hdec
                  refine ih _ _ _ _ none (hrec.grows hgrow) (.inr ⟨pc, { address := pc, inst }, ?_, rfl, ?_⟩)
                    hstep.1 hstep.2 (fun t ht => (by cases ht)) (by omega) h
                  · rw [hgrow.insts]
                    simp [Walk.record]
                  · simpa using hends

theorem targetInv_drainQueue : ∀ fuel (w w' : Walk), WalkInv d w →
    TargetInv d entryAddr fnEnd none w → AllKept d entryAddr fnEnd w →
    d.drainQueue entryAddr fnEnd fuel w = some w' →
    (TargetInv d entryAddr fnEnd none w' ∧ AllKept d entryAddr fnEnd w') ∧
      (w'.queue = [] ∨ w'.capped = true) := by
  intro fuel
  induction fuel with
  | zero => intro w w' _ _ _ h; cases h
  | succ fuel ih =>
      intro w w' hw hinv hkept h
      simp only [Disassembler.drainQueue] at h
      split at h
      · rename_i hq
        cases h
        exact ⟨⟨hinv, hkept⟩, .inl hq⟩
      · rename_i b queue hq
        split at h
        · cases h
          exact ⟨TargetInv.note ⟨hinv, hkept⟩ w.blockInsts true, .inr rfl⟩
        · obtain ⟨w₁, hrun, hrest⟩ := Option.bind_eq_some_iff.1 h
          have hstart : WalkInv d { w with queue } :=
            ⟨hw.decoded, hw.keys, hw.nodup, hw.reached, fun a ha =>
              hw.queued a (by rw [hq]; exact List.mem_cons_of_mem b ha)⟩
          have hb : w.jumpTargets b = true := hw.queued b (by rw [hq]; exact List.mem_cons_self)
          have hpop : TargetInv d entryAddr fnEnd (some b) { w with queue } := by
            refine ⟨hinv.visited, hinv.entry, hinv.above, hinv.extent, fun t ht => ?_, hinv.tables,
              hinv.called⟩
            rcases hinv.done t ht with hmem | hd | hr
            · rw [hq] at hmem
              rcases List.mem_cons.1 hmem with rfl | hmem
              · exact .inr (.inr rfl)
              · exact .inl hmem
            · exact .inr (.inl hd)
            · cases hr
          have hkept' : AllKept d entryAddr fnEnd { w with queue } := fun i hi =>
            ⟨(hkept i hi).targets, (hkept i hi).shown⟩
          obtain ⟨hinv₁, hkept₁⟩ := targetInv_decodeRun b _ _ _ _ _ (some b) hstart (.inl hb) hpop hkept'
            (fun t ht => (Option.some.inj ht).symm) (hinv.above b hb) hrun
          exact ih _ _ (walkInv_decodeRun b _ _ _ _ _ hstart (.inl hb) hrun) hinv₁ hkept₁ hrest

theorem targetInv_rounds : ∀ fuel (w w' : Walk), WalkInv d w →
    TargetInv d entryAddr fnEnd none w → AllKept d entryAddr fnEnd w →
    d.rounds entryAddr fnEnd fuel w = some w' →
    (TargetInv d entryAddr fnEnd none w' ∧ AllKept d entryAddr fnEnd w') ∧
      (w'.queue = [] ∨ w'.capped = true) := by
  intro fuel
  induction fuel with
  | zero => intro w w' _ _ _ h; cases h
  | succ fuel ih =>
      intro w w' hw hinv hkept h
      simp only [Disassembler.rounds] at h
      obtain ⟨w₁, hdrain, hrest⟩ := Option.bind_eq_some_iff.1 h
      have hw₁ := walkInv_drainQueue _ _ _ hw hdrain
      obtain ⟨hinv₁, hend⟩ := targetInv_drainQueue _ _ _ hw hinv hkept hdrain
      split at hrest
      · cases hrest
        exact ⟨hinv₁, hend⟩
      · have hfold : ∀ (ss : List WeakSwitch) (w : Walk), WalkInv d w →
            TargetInv d entryAddr fnEnd none w ∧ AllKept d entryAddr fnEnd w →
            WalkInv d (ss.foldl (d.acceptWeak entryAddr fnEnd) w) ∧
              TargetInv d entryAddr fnEnd none (ss.foldl (d.acceptWeak entryAddr fnEnd) w) ∧
              AllKept d entryAddr fnEnd (ss.foldl (d.acceptWeak entryAddr fnEnd) w) := by
          intro ss
          induction ss with
          | nil => exact fun w hw h => ⟨hw, h⟩
          | cons s ss ihs =>
              intro w hw h
              have hstep := widens_acceptWeak d entryAddr fnEnd [] w s
              exact ihs _ (hw.grows (grows_acceptWeak w s))
                ⟨h.1.widens hstep fun t ht => (by cases ht), h.2.widens hstep⟩
        have hclear : Widens d entryAddr fnEnd [] w₁ { w₁ with weak := [] } :=
          Widens.quiet [] rfl (fun _ h => h) rfl rfl rfl rfl rfl
        obtain ⟨h1, h2, h3⟩ := hfold w₁.weak { w₁ with weak := [] }
          ⟨hw₁.decoded, hw₁.keys, hw₁.nodup, hw₁.reached, hw₁.queued⟩
          ⟨hinv₁.1.widens hclear fun t ht => (by cases ht), hinv₁.2.widens hclear⟩
        exact ih _ _ h1 h2 h3 hrest

/-- **Runs.**  A finished walk keeps every target, and leaves none queued unless it is capped. -/
theorem targetInv_walk {fuel : ℕ} {w : Walk} (h : d.walk fuel entryAddr = some w) :
    (TargetInv d entryAddr (d.functionEnd entryAddr) none w ∧
      AllKept d entryAddr (d.functionEnd entryAddr) w) ∧ (w.queue = [] ∨ w.capped = true) := by
  refine targetInv_rounds fuel _ w ?_ ?_ ?_ h
  · exact ⟨by simp [Walk.start], by simp [Walk.start], by simp [Walk.start], by simp [Walk.start],
      by simp [Walk.start]⟩
  · refine ⟨rfl, by simp [Walk.start], fun t ht => ?_, by simp [Walk.start], fun t ht => ?_,
      by simp [Walk.start], by simp [Walk.start]⟩
    · rw [show t = entryAddr by simpa [Walk.start] using ht]
    · exact .inl (by simpa [Walk.start] using ht)
  · exact fun i hi => (by cases hi)

/-- A queued target that the cap left without decoding it. -/
def LeftBehind (d : Disassembler) (fuel : ℕ) (entryAddr t : Addr) : Prop :=
  ∃ w, d.walk fuel entryAddr = some w ∧ w.capped = true ∧ t ∈ w.queue ∧ w.insts t = none

/-- **Branch following.**  Exactly when no target of a decoded instruction is dropped: each target in
the range decodes and was not left behind, none outside is 0, or an instruction names it. -/
theorem follow_kept_iff {fuel : ℕ} {w : Walk} {fn : Function} {calls : List Addr}
    (hw : d.walk fuel entryAddr = some w)
    (h : d.disasmBranchFollowing fuel entryAddr = some (fn, calls)) :
    TargetsKept ⟨fn, calls, w.pendingData⟩ (d.inCode w.pendingData) ↔
      ∀ i, Disassembled.Has ⟨fn, calls, w.pendingData⟩ i → ∀ t ∈ branchTargets fn.jumpTables i,
        d.inCode w.pendingData t = true →
          (∃ j, Disassembled.Has ⟨fn, calls, w.pendingData⟩ j ∧ t ∈ d.shownCalls j) ∨
            if inExtent entryAddr (d.functionEnd entryAddr) t = true then
              d.decodes t = true ∧ ¬ LeftBehind d fuel entryAddr t
            else t ≠ 0 := by
  have hinv := walkInv_walk hw
  obtain ⟨⟨htarget, hkept⟩, hend⟩ := targetInv_walk hw
  have hpart := branchFollowing_partition hw h
  obtain ⟨hcalls, htables⟩ : calls = w.discoveredCalls ∧ fn.jumpTables = w.jumpTables := by
    unfold Disassembler.disasmBranchFollowing at h
    rw [hw] at h
    simp only [Option.bind_eq_bind, Option.bind_some] at h
    split at h
    · cases h
    · split at h
      · cases h
        exact ⟨rfl, rfl⟩
      · cases h
        exact ⟨rfl, rfl⟩
  have hnamed : ∀ t, (∃ j, Disassembled.Has ⟨fn, calls, w.pendingData⟩ j ∧ t ∈ d.shownCalls j) ↔
      ∃ j, w.insts j.address = some j ∧ t ∈ d.shownCalls j := by
    intro t
    constructor
    · rintro ⟨j, ⟨s, b, hb, hj⟩, ht⟩
      exact ⟨unmarked j, hpart.decoded s b hb j hj, ht⟩
    · rintro ⟨j, hj, ht⟩
      obtain ⟨s, ⟨b, hb, hmem⟩, -⟩ := hpart.cover j.address (by rw [hj]; rfl)
      obtain ⟨j', hj', haddr⟩ := List.mem_map.1 hmem
      have hdec := hpart.decoded s b hb j' hj'
      rw [haddr, hj] at hdec
      refine ⟨j', ⟨s, b, hb, hj'⟩, ?_⟩
      rw [Option.some.inj hdec] at ht
      exact ht
  have hblock : ∀ t, w.jumpTargets t = true → (w.insts t).isSome → (fn.blocks t).isSome := by
    intro t ht hdec
    obtain ⟨g, hg, hstart⟩ := group_of_leader hinv hdec (leadersOf_jumpTarget w entryAddr ht hdec)
    have hb := (blocks_iff hinv entryAddr t (blockOf g)).2 ⟨g, hg, hstart, rfl⟩
    have hs := congrArg Option.isSome (map_plain_disasm hw h t)
    rw [Option.isSome_map, Option.isSome_map, hb] at hs
    exact hs
  have hdecoded : ∀ t, (fn.blocks t).isSome → (w.insts t).isSome := by
    intro t ht
    obtain ⟨b, hb⟩ := Option.isSome_iff_exists.1 ht
    obtain ⟨-, hhead⟩ := hpart.start t b hb
    obtain ⟨i, hi, hit⟩ := Option.map_eq_some_iff.1 hhead
    rw [← hit, hpart.decoded t b hb i (List.mem_of_mem_head? hi)]
    rfl
  have hedged : ∀ i, Disassembled.Has ⟨fn, calls, w.pendingData⟩ i →
      ∀ t ∈ branchTargets fn.jumpTables i, Edged d entryAddr (d.functionEnd entryAddr) w t := by
    rintro i ⟨s, b, hb, hi⟩ t ht
    rcases List.mem_append.1 ht with ht | ht
    · exact (hkept (unmarked i) (hpart.decoded s b hb i hi)).targets t ht
    · split at ht
      · rw [htables] at ht
        exact htarget.tables i.address t ht
      · cases ht
  refine forall_congr' fun i => forall_congr' fun hi => forall_congr' fun t => forall_congr' fun ht => ?_
  have hedge := hedged i hi t ht
  rw [hnamed]
  constructor
  · intro hkeep hcode
    rcases hkeep with hb | hcall | hno
    · obtain ⟨hin, hdec⟩ := htarget.extent t (hdecoded t hb)
      rw [if_pos hin]
      refine .inr ⟨hdec, ?_⟩
      rintro ⟨w', hw', -, -, hnone⟩
      rw [hw] at hw'
      cases hw'
      have hsome := hdecoded t hb
      rw [hnone] at hsome
      cases hsome
    · rw [hcalls] at hcall
      rcases htarget.called t hcall with hshown | hout
      · exact .inl hshown
      · rw [hout.1, if_neg (by simp)]
        exact .inr hout.2
    · rw [hcode] at hno
      cases hno
  · intro hcond
    by_cases hcode : d.inCode w.pendingData t = true
    · rcases hcond hcode with ⟨j, hj, hshown⟩ | hrest
      · refine .inr (.inl ?_)
        rw [hcalls]
        exact (hkept j hj).shown t hshown hcode
      · by_cases hin : inExtent entryAddr (d.functionEnd entryAddr) t = true
        · rw [if_pos hin] at hrest
          have hjump : w.jumpTargets t = true := by
            by_cases hzero : t = 0
            · -- only the entry can be 0 and in the range
              have hle := (of_decide_eq_true hin).1
              rw [hzero] at hle ⊢
              have he : entryAddr = 0 := BitVec.eq_of_toNat_eq (Nat.le_zero.1 hle)
              rw [← he]
              exact htarget.entry
            · have he := hedge hcode hzero
              rwa [if_pos hin] at he
          refine .inl (hblock t hjump ?_)
          by_contra hnone
          rw [Bool.not_eq_true, Option.isSome_eq_false_iff, Option.isNone_iff_eq_none] at hnone
          rcases htarget.done t hjump with hq | hd | hr
          · rcases hend with hempty | hcap
            · rw [hempty] at hq
              cases hq
            · exact hrest.2 ⟨w, hw, hcap, hq, hnone⟩
          · rcases hd with hd | hd | hd | hd
            · rw [hcode] at hd
              cases hd
            · have hlt := (of_decide_eq_true hin).2
              omega
            · rw [hrest.1] at hd
              cases hd
            · rw [hnone] at hd
              cases hd
          · cases hr
        · rw [if_neg hin] at hrest
          have he := hedge hcode hrest
          rw [if_neg hin] at he
          refine .inr (.inl ?_)
          rw [hcalls]
          exact he
    · exact .inr (.inr (by simpa using hcode))

end Follow

/-! ### both modes -/

section Both

variable (d : SizedDisassembler)

/-- The sweep of a range decodes at an address. -/
def SizedDisassembler.sweeps (fuel : ℕ) (entryAddr fnEnd t : Addr) : Bool :=
  decide (t ∈ ((d.sweep fnEnd fuel entryAddr).getD []).map (·.address))

/-- When no target is dropped. -/
def SizedDisassembler.TargetsHold (fuel : ℕ) (entryAddr : Addr) (out : Disassembled) : Prop :=
  ∀ i, out.Has i → ∀ t ∈ branchTargets out.fn.jumpTables i, d.inCode out.pendingData t = true →
    match d.linearEnd entryAddr with
    | some fnEnd =>
        inExtent entryAddr fnEnd t = true →
          d.sweeps fuel entryAddr fnEnd t = true ∨ ∃ j, out.Has j ∧ t ∈ directCall j
    | none =>
        (∃ j, out.Has j ∧ t ∈ d.shownCalls j) ∨
          if inExtent entryAddr (d.functionEnd entryAddr) t = true then
            d.decodes t = true ∧ ¬ LeftBehind d.toDisassembler fuel entryAddr t
          else t ≠ 0

variable {d}

/-- **Branch targets.**  No target of a function is dropped exactly when each target in its range is
decoded in its own right or called; then what the flag passes take for a tail call is a function. -/
theorem disasmFunction_targetsKept {fuel : ℕ} {entryAddr : Addr} {out : Disassembled}
    (h : d.disasmFunction entryAddr fuel = some out) :
    (TargetsKept out (d.inCode out.pendingData) ↔ d.TargetsHold fuel entryAddr out) ∧
      (d.TargetsHold fuel entryAddr out → ∀ i, out.Has i → ∀ t ∈ branchTargets out.fn.jumpTables i,
        localTarget out.fn (some (d.inCode out.pendingData)) ([], false) t = ([], false) →
          t ∈ out.discoveredCalls) := by
  have hiff : TargetsKept out (d.inCode out.pendingData) ↔ d.TargetsHold fuel entryAddr out := by
    unfold SizedDisassembler.TargetsHold
    unfold SizedDisassembler.disasmFunction at h
    cases hend : d.linearEnd entryAddr with
    | some fnEnd =>
        rw [hend] at h
        dsimp only at h ⊢
        obtain ⟨insts, hs⟩ : ∃ insts, d.sweep fnEnd fuel entryAddr = some insts := by
          cases hs : d.sweep fnEnd fuel entryAddr with
          | some insts => exact ⟨insts, rfl⟩
          | none =>
              rw [SizedDisassembler.disasmLinearFunction, hs] at h
              cases h
        have hsweeps : ∀ t, d.sweeps fuel entryAddr fnEnd t = true ↔ t ∈ insts.map (·.address) := by
          intro t
          rw [SizedDisassembler.sweeps, hs, decide_eq_true_iff]
          rfl
        rw [linear_kept_iff hs h]
        simp only [hsweeps]
    | none =>
        rw [hend] at h
        obtain ⟨w, hw, hrest⟩ := Option.bind_eq_some_iff.1 h
        obtain ⟨r, hr, he⟩ := Option.bind_eq_some_iff.1 hrest
        cases he
        exact follow_kept_iff hw hr
  exact ⟨hiff, fun hold i hi t ht hleaves => leaves_of_kept (hiff.2 hold) hi ht hleaves⟩

end Both

/-! ### a branch into an instruction -/

/-- The image of `overlap_test.go` with a symbol size: 0 is no size. -/
def overlapSized (size : BitVec 64) : SizedDisassembler :=
  { overlapDisassembler with
    symbolSize := fun _ => size
    sizedEnd := fun entryAddr size => entryAddr + size
    addends := []
    resolveSwept := resolveInSweep overlapImage (fun _ => true) fun _ _ => false }

theorem disasmFunction_targetsKept_overlap :
    ∃ out, (overlapSized 0).disasmFunction 0x40 20 = some out ∧
      out.fn.blockOrder = [0x40, 0x44, 0x47, 0x49] ∧
      (TargetsKept out ((overlapSized 0).inCode out.pendingData) ↔
        (overlapSized 0).TargetsHold 20 0x40 out) := by
  obtain ⟨out, hout⟩ : ∃ out, (overlapSized 0).disasmFunction 0x40 20 = some out :=
    Option.isSome_iff_exists.1 (by decide +kernel)
  refine ⟨out, hout, ?_, (disasmFunction_targetsKept hout).1⟩
  have horder : ((overlapSized 0).disasmFunction 0x40 20).map (·.fn.blockOrder) =
      some [0x40, 0x44, 0x47, 0x49] := by decide +kernel
  rw [hout] at horder
  exact Option.some.inj horder

/-- With its symbol size of 10 bytes the same function drops the target of its `JE`, `0x47`. -/
theorem disasmFunction_drops_target :
    ∃ out, (overlapSized 10).disasmFunction 0x40 20 = some out ∧
      ¬ TargetsKept out ((overlapSized 10).inCode out.pendingData) := by
  obtain ⟨out, hout⟩ : ∃ out, (overlapSized 10).disasmFunction 0x40 20 = some out :=
    Option.isSome_iff_exists.1 (by decide +kernel)
  have hblock : ((overlapSized 10).disasmFunction 0x40 20).map (fun o =>
      (((o.fn.blocks 0x40).map fun b => b.insts.flatMap (branchTargets o.fn.jumpTables)),
        (o.fn.blocks 0x47).isSome, o.discoveredCalls, (overlapSized 10).inCode o.pendingData 0x47)) =
      some (some [0x47], false, [], true) := by decide +kernel
  rw [hout, Option.map_some, Option.some.injEq, Prod.mk.injEq, Prod.mk.injEq, Prod.mk.injEq] at hblock
  obtain ⟨htargets, hno, hcalls, hcode⟩ := hblock
  refine ⟨out, hout, fun hkept => ?_⟩
  obtain ⟨b, hb, hbt⟩ := Option.map_eq_some_iff.1 htargets
  have hmem : (0x47 : Addr) ∈ b.insts.flatMap (branchTargets out.fn.jumpTables) := by
    rw [hbt]
    exact List.mem_cons_self
  obtain ⟨i, hi, ht⟩ := List.mem_flatMap.1 hmem
  rcases hkept i ⟨0x40, b, hb, hi⟩ 0x47 ht with h | h | h
  · rw [hno] at h
    cases h
  · rw [hcalls] at h
    cases h
  · rw [hcode] at h
    cases h

end PS4Recomp.Disasm
