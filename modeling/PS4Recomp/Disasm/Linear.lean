import PS4Recomp.Disasm.BlockPartition
import PS4Recomp.Disasm.JumpTable

/-!
# Linear disassembly

`disasmLinearFunction` of `cfg.go`, which decodes a function with a symbol size from its first byte
to its last, and `disasmFunction`, which takes it where there is a size and follows branches
elsewhere.

* `SizedDisassembler` — what `disasmFunction` reads beyond `Disassembler`;
* `sweptInst`, `sweep` — the instructions of the range; a byte that does not decode is a trap;
* `Marking`, `mark` — the leaders, the calls and the jump tables they show;
* `disasmLinearFunction`, `disasmFunction` — the function, its calls, and the ranges noted as data;
* `resolveInSweep` — the jump-table resolver of a sweep;
* `sweep_spec`, `linear_blocks` — the sweep is one stream, and the blocks are its
  groups.

The calls of the sweep come before those of the leaders, as in the source.  A block of the source
ends at the next block of the sweep, which is where its last instruction ends.
-/

namespace PS4Recomp.Disasm

open X86 Library

/-- What `disasmFunction` reads beyond a `Disassembler`.  `symbolSize` is 0 where the entry has no
symbol; `sizedEnd` is `functionEnd` with a size; `addends` are those of the relocations;
`resolveSwept` is `ResolveJumpTable` with the search of the sweep. -/
structure SizedDisassembler extends Disassembler where
  symbolSize : Addr → BitVec 64
  sizedEnd : Addr → BitVec 64 → Addr
  addends : List (BitVec 64)
  resolveSwept : List (Addr × Addr) → (entryAddr fnEnd : Addr) → List Instruction →
    Option (List Addr × ℤ) × List (Addr × Addr)

/-- The range of a function. -/
def inExtent (entryAddr fnEnd addr : Addr) : Bool :=
  decide (entryAddr.toNat ≤ addr.toNat ∧ addr.toNat < fnEnd.toNat)

variable (d : SizedDisassembler) (entryAddr fnEnd : Addr)

/-! ### the sweep -/

/-- The instruction at an address of the range: a byte that does not decode is a trap. -/
def SizedDisassembler.sweptInst (pc : Addr) : Instruction :=
  { address := pc, inst := (d.decodeAt pc).getD { op := .ud2, len := 1 } }

/-- The instructions from `pc` on, up to the end or a byte that is no code. -/
def SizedDisassembler.sweep : ℕ → Addr → Option (List Instruction)
  | 0, _ => none
  | fuel + 1, pc =>
      if ¬ (pc.toNat < fnEnd.toNat ∧ d.inCode [] pc = true) then some []
      else do
        let rest ← SizedDisassembler.sweep fuel (d.sweptInst pc).nextPC
        some (d.sweptInst pc :: rest)

/-- The calls and the function addresses an instruction of the sweep shows. -/
def SizedDisassembler.sweptCalls (i : Instruction) : List Addr :=
  match i.inst.op with
  | .call =>
      match i.inst.arg 0 with
      | some (.rel r) => [i.relTarget r]
      | _ => []
  | .lea =>
      match i.inst.arg 1 with
      | some (.mem m) =>
          let target := ripTarget i.nextPC m
          if m.base = some .rip ∧ inExtent entryAddr fnEnd target = false ∧
              d.inCode [] target = true ∧ d.seedable target = true then [target]
          else []
      | _ => []
  | _ => []

/-! ### leaders -/

/-- What the loop over the swept instructions builds. -/
structure Marking where
  discoveredCalls : List Addr
  leaders : Addr → Bool
  jumpTables : Addr → List Addr := fun _ => []
  pendingData : List (Addr × Addr) := []

/-- `leaders[addr] = true`. -/
def Marking.lead (m : Marking) (addr : Addr) : Marking :=
  { m with leaders := Function.update m.leaders addr true }

/-- `discoveredCalls = append(discoveredCalls, target)`. -/
def Marking.call (m : Marking) (target : Addr) : Marking :=
  { m with discoveredCalls := m.discoveredCalls ++ [target] }

/-- A target of a jump: a leader in the range, else another function. -/
def Marking.jumpTo (m : Marking) (target : Addr) : Marking :=
  if inExtent entryAddr fnEnd target = true then m.lead target else m.call target

/-- A target of a conditional jump: outside the range it has to be code. -/
def SizedDisassembler.branchTo (m : Marking) (target : Addr) : Marking :=
  if inExtent entryAddr fnEnd target = true then m.lead target
  else if d.inCode m.pendingData target = true then m.call target
  else m

/-- The address after an instruction, if it is still in the range. -/
def Marking.leadNext (m : Marking) (i : Instruction) : Marking :=
  if i.nextPC.toNat < fnEnd.toNat then m.lead i.nextPC else m

/-- The jump table of an indirect jump. -/
def SizedDisassembler.markTable (seen : List Instruction) (i : Instruction) (m : Marking) : Marking :=
  let r := d.resolveSwept m.pendingData entryAddr fnEnd (seen ++ [i])
  let m := { m with pendingData := m.pendingData ++ r.2 }
  match r.1 with
  | none => m
  | some (targets, _) =>
      if targets = [] then m
      else
        targets.foldl (Marking.jumpTo entryAddr fnEnd)
          { m with jumpTables := Function.update m.jumpTables i.address targets }

/-- A direct call whose target is known, and the target is not 0. -/
def callTarget (i : Instruction) : Addr :=
  match i.inst.arg 0 with
  | some (.rel r) => i.relTarget r
  | some (.mem m) => if m.base = some .rip then ripTarget i.nextPC m else 0
  | _ => 0

/-- One swept instruction; `seen` are those before it. -/
def SizedDisassembler.mark (seen : List Instruction) (i : Instruction) (m : Marking) : Marking :=
  match i.inst.op with
  | .jmp =>
      (match i.inst.arg 0 with
        | some (.rel r) => m.jumpTo entryAddr fnEnd (i.relTarget r)
        | _ => d.markTable entryAddr fnEnd seen i m).leadNext fnEnd i
  | .call =>
      if callTarget i ≠ 0 ∧ d.isNoReturn (callTarget i) = true then m.leadNext fnEnd i else m
  | .ret | .ud2 => m.leadNext fnEnd i
  | op =>
      if isJcc op then
        (match i.inst.arg 0 with
          | some (.rel r) => d.branchTo entryAddr fnEnd m (i.relTarget r)
          | _ => m).leadNext fnEnd i
      else m

/-- The loop over the swept instructions. -/
def SizedDisassembler.markAll : List Instruction → List Instruction → Marking → Marking
  | _, [], m => m
  | seen, i :: is, m =>
      SizedDisassembler.markAll (seen ++ [i]) is (d.mark entryAddr fnEnd seen i m)

/-- A relocation that points into the function. -/
def markAddend (m : Marking) (addend : BitVec 64) : Marking :=
  if 0 < addend.toInt ∧ inExtent entryAddr fnEnd addend = true then m.lead addend else m

/-- The leaders, calls and jump tables of a sweep. -/
def SizedDisassembler.marking (insts : List Instruction) : Marking :=
  d.addends.foldl (markAddend entryAddr fnEnd)
    (d.markAll entryAddr fnEnd [] insts
      { discoveredCalls := insts.flatMap (d.sweptCalls entryAddr fnEnd)
        leaders := fun a => a == entryAddr })

/-! ### the function -/

/-- The blocks of a sweep, under their addresses. -/
def sweptBlocks (leaders : Addr → Bool) (insts : List Instruction) : Addr → Option BasicBlock :=
  buildBlocks leaders insts none fun _ => none

/-- The starts of the blocks, sorted. -/
def sweptOrder (leaders : Addr → Bool) (insts : List Instruction) : List Addr :=
  sortAddrs ((insts.map (·.address)).dedup.filter fun a => (sweptBlocks leaders insts a).isSome)

/-- The function of a sweep, before the flag passes. -/
def Marking.function (m : Marking) (entryAddr fnEnd : Addr) (insts : List Instruction) : Function where
  entryAddr
  endAddr := fnEnd
  blocks := sweptBlocks m.leaders insts
  blockOrder := sweptOrder m.leaders insts
  jumpTables := m.jumpTables
  usesYmm := usesYmm ((sweptOrder m.leaders insts).filterMap (sweptBlocks m.leaders insts))
  mem_blockOrder a := by
    rw [sweptOrder, sortAddrs, List.mem_insertionSort, List.mem_filter, List.mem_dedup]
    refine ⟨fun h => h.2, fun h => ⟨?_, h⟩⟩
    rcases isSome_buildBlocks _ _ _ _ h with hi | ⟨b, hb, -⟩ | hnone
    · exact hi
    · cases hb
    · cases hnone
  nodup_blockOrder :=
    (List.perm_insertionSort _ _).nodup_iff.2 ((List.nodup_dedup _).filter _)

/-- A disassembled function: its calls, and what was noted as data on the way. -/
structure Disassembled where
  fn : Function
  discoveredCalls : List Addr
  pendingData : List (Addr × Addr)

/-- `disasmLinearFunction`. -/
def SizedDisassembler.disasmLinearFunction (fuel : ℕ) : Option Disassembled := do
  let insts ← d.sweep fnEnd fuel entryAddr
  if insts.isEmpty then none
  else
    let m := d.marking entryAddr fnEnd insts
    let fn := m.function entryAddr fnEnd insts
    if d.skipFlagLiveness then some ⟨fn, m.discoveredCalls, m.pendingData⟩
    else
      some ⟨withCarryMarks (analyzeBlockFlagLiveness fn) (some (d.inCode m.pendingData)),
        m.discoveredCalls, m.pendingData⟩

/-- The end of the range that is swept, for a function with a symbol size. -/
def SizedDisassembler.linearEnd : Option Addr :=
  if d.symbolSize entryAddr ≠ 0 ∧
      entryAddr.toNat < (d.sizedEnd entryAddr (d.symbolSize entryAddr)).toNat then
    some (d.sizedEnd entryAddr (d.symbolSize entryAddr))
  else none

/-- `disasmFunction`. -/
def SizedDisassembler.disasmFunction (fuel : ℕ) : Option Disassembled :=
  match d.linearEnd entryAddr with
  | some fnEnd => d.disasmLinearFunction entryAddr fnEnd fuel
  | none => do
      let w ← d.walk fuel entryAddr
      let r ← d.disasmBranchFollowing fuel entryAddr
      some ⟨r.1, r.2, w.pendingData⟩

/-- `ResolveJumpTable` in a sweep: no search in other blocks, the straight line before the jump. -/
def resolveInSweep (img : Bytes) (exec : Addr → Bool) (overlapsFunc : Addr → Addr → Bool)
    (pendingData : List (Addr × Addr)) (entryAddr fnEnd : Addr) (window : List Instruction) :
    Option (List Addr × ℤ) × List (Addr × Addr) :=
  let inCode (addr : Addr) : Bool := decide (addr.toNat < img.length) && exec addr &&
    !(pendingData.any fun r => decide (r.1.toNat ≤ addr.toNat ∧ addr.toNat < r.2.toNat))
  resolveJumpTableCapped img inCode overlapsFunc
    ⟨fun reg => (traceLEA window.dropLast.reverse reg).1, fun _ => none, fun _ => 0⟩ window
    (straightLineStart window) entryAddr fnEnd

/-! ### the sweep is one stream -/

section Sweep

variable {d entryAddr fnEnd}

/-- The end of a swept instruction does not wrap around. -/
theorem sweptInst_nextPC {pc : Addr} (h : d.inCode [] pc = true) :
    pc.toNat < (d.sweptInst pc).nextPC.toNat := by
  have hpc : pc.toNat < d.image.length := by
    simp only [Disassembler.inCode, Bool.and_eq_true, decide_eq_true_eq] at h
    exact h.1.1
  have himage := d.image_length
  cases hdec : d.decodeAt pc with
  | some inst =>
      have hlen := (decodeAt_len hdec).1
      have hnext := nextPC_toNat hdec
      have hi : d.sweptInst pc = { address := pc, inst } := by
        rw [SizedDisassembler.sweptInst, hdec]
        rfl
      rw [hi]
      omega
  | none =>
      have hi : (d.sweptInst pc).nextPC = pc + 1 := by
        rw [SizedDisassembler.sweptInst, hdec]
        rfl
      rw [hi, BitVec.toNat_add]
      show pc.toNat < (pc.toNat + 1) % 2 ^ 64
      omega

/-- **The sweep.**  Its instructions are those of their addresses, in rising order, in the range. -/
theorem sweep_spec : ∀ (fuel : ℕ) (pc : Addr) (insts : List Instruction),
    d.sweep fnEnd fuel pc = some insts →
    (insts.Pairwise fun i j => i.address.toNat < j.address.toNat) ∧
      ∀ i ∈ insts, i = d.sweptInst i.address ∧ pc.toNat ≤ i.address.toNat ∧
        i.address.toNat < fnEnd.toNat ∧ d.inCode [] i.address = true := by
  intro fuel
  induction fuel with
  | zero => intro pc insts h; cases h
  | succ fuel ih =>
      intro pc insts h
      simp only [SizedDisassembler.sweep] at h
      split at h
      · cases h
        simp
      · rename_i hpc
        obtain ⟨hend, hcode⟩ := not_not.1 hpc
        obtain ⟨rest, hrest, he⟩ := Option.bind_eq_some_iff.1 h
        cases he
        obtain ⟨hpair, hall⟩ := ih _ _ hrest
        have hnext := sweptInst_nextPC hcode
        have haddr : (d.sweptInst pc).address = pc := rfl
        constructor
        · refine List.pairwise_cons.2 ⟨fun j hj => ?_, hpair⟩
          have hj' := (hall j hj).2.1
          rw [haddr]
          omega
        · intro i hi
          rcases List.mem_cons.1 hi with rfl | hi
          · exact ⟨rfl, Nat.le_refl _, hend, hcode⟩
          · obtain ⟨h1, h2, h3, h4⟩ := hall i hi
            exact ⟨h1, by omega, h3, h4⟩

/-- The blocks of a sweep start at its leaders and hold its instructions. -/
theorem linear_blocks {fuel : ℕ} {insts : List Instruction} (h : d.sweep fnEnd fuel entryAddr = some insts)
    (leaders : Addr → Bool) :
    (∀ s b, sweptBlocks leaders insts s = some b → ∀ i ∈ b.insts, i ∈ insts) ∧
    (∀ i ∈ insts, ∃ s b, sweptBlocks leaders insts s = some b ∧ i ∈ b.insts) ∧
    (∀ s, (sweptBlocks leaders insts s).isSome → s ∈ insts.map (·.address)) ∧
    ∀ i ∈ insts, leaders i.address = true → (sweptBlocks leaders insts i.address).isSome := by
  have hpair := (sweep_spec _ _ _ h).1
  have hflat := List.flatten_splitBy (sameBlock leaders) insts
  refine ⟨fun s b hb i hi => ?_, fun i hi => ?_, fun s hs => ?_, fun i hi hlead => ?_⟩
  · obtain ⟨g, hg, -, rfl⟩ := (buildBlocks_iff hpair leaders s b).1 hb
    rw [blockOf_insts] at hi
    rw [← hflat]
    exact List.mem_flatten.2 ⟨g, hg, hi⟩
  · rw [← hflat] at hi
    obtain ⟨g, hg, hig⟩ := List.mem_flatten.1 hi
    refine ⟨startOf g, blockOf g, (buildBlocks_iff hpair leaders _ _).2 ⟨g, hg, rfl, rfl⟩, ?_⟩
    rwa [blockOf_insts]
  · rcases isSome_buildBlocks _ _ _ _ hs with hi | ⟨b, hb, -⟩ | hnone
    · exact hi
    · cases hb
    · cases hnone
  · obtain ⟨g, hg, hstart⟩ := splitBy_of_leader hi hlead
    exact Option.isSome_iff_exists.2
      ⟨blockOf g, (buildBlocks_iff hpair leaders _ _).2 ⟨g, hg, hstart, rfl⟩⟩

end Sweep

end PS4Recomp.Disasm
