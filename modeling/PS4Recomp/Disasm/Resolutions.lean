import PS4Recomp.Disasm.BranchTargets

/-!
# Resolutions of indirect jumps

Every time a jump table is recorded for an indirect jump, in the order the disassembler records
them, and what is left in the function's table at the end.

* `Resolution`, `tablesOf` — the recordings, and the table each leaves behind;
* `indirectJumpLog`, `resolutionOf`, `decodeRunLog`, `drainQueueLog`, `roundsLog` — those of a walk, along its loops;
* `markLog` — those of a sweep;
* `Accumulated`, `KeepsProven`, `accumulated_iff` — no proven target is lost in any state reached,
  exactly when no recording drops one;
* **`disasmFunction_accumulates`** — both modes.
-/

namespace PS4Recomp.Disasm

open X86 Library

/-- A table recorded for the jump at `pc`; `proven` where a check bounds its index. -/
structure Resolution where
  pc : Addr
  targets : List Addr
  proven : Bool
  deriving DecidableEq, Repr

/-- `fn.JumpTables` after some recordings. -/
def tablesOf (log : List Resolution) (tables : Addr → List Addr) : Addr → List Addr :=
  log.foldl (fun m r => Function.update m r.pc r.targets) tables

@[simp] theorem tablesOf_append (log log' : List Resolution) (tables : Addr → List Addr) :
    tablesOf (log ++ log') tables = tablesOf log' (tablesOf log tables) := List.foldl_append

@[simp] theorem tablesOf_singleton (r : Resolution) (tables : Addr → List Addr) :
    tablesOf [r] tables = Function.update tables r.pc r.targets := rfl

/-! ### recordings of a walk -/

section Walks

variable (d : Disassembler) (entryAddr fnEnd : Addr)

/-- What is recorded at an indirect jump. -/
def Disassembler.indirectJumpLog (blockStart : Addr) (cur : List Instruction) (pc : Addr) (w : Walk) :
    List Resolution :=
  match (d.resolveJumpTable w entryAddr fnEnd blockStart cur).1 with
  | none => []
  | some (targets, count) => if targets = [] ∨ count ≤ 0 then [] else [⟨pc, targets, true⟩]

/-- What is recorded when an instruction is decoded. -/
def Disassembler.resolutionOf (blockStart : Addr) (cur : List Instruction) (i : Instruction)
    (w : Walk) : List Resolution :=
  if i.inst.op = .jmp then
    match i.inst.arg 0 with
    | some (.rel _) => []
    | _ => d.indirectJumpLog entryAddr fnEnd blockStart cur i.address w
  else []

/-- The recordings of `decodeRun`. -/
def Disassembler.decodeRunLog (blockStart : Addr) :
    ℕ → Addr → List Instruction → Walk → List Resolution
  | 0, _, _, _ => []
  | fuel + 1, pc, cur, w =>
      if ¬ (pc.toNat < fnEnd.toNat ∧ d.inCode w.pendingData pc = true) then []
      else match d.decodeAt pc with
        | none => []
        | some inst =>
            if isPrivileged inst.op then []
            else
              let i : Instruction := { address := pc, inst }
              let cur := cur ++ [i]
              let here := d.resolutionOf entryAddr fnEnd blockStart cur i (w.record i)
              let w := d.transfer entryAddr fnEnd blockStart cur i (w.record i)
              if d.endsRun i then here
              else if maxBlockBytes ≤ (i.nextPC - blockStart).toNat then here
              else if d.maxFnInsts entryAddr ≤ w.addrs.length then here
              else here ++ Disassembler.decodeRunLog blockStart fuel i.nextPC cur w

/-- The recordings of `drainQueue`. -/
def Disassembler.drainQueueLog : ℕ → Walk → List Resolution
  | 0, _ => []
  | fuel + 1, w =>
      match w.queue with
      | [] => []
      | blockStart :: queue =>
          if d.maxFnInsts entryAddr ≤ w.addrs.length then []
          else
            d.decodeRunLog entryAddr fnEnd blockStart fuel blockStart [] { w with queue } ++
              match d.decodeRun entryAddr fnEnd blockStart fuel blockStart [] { w with queue } with
              | none => []
              | some w => Disassembler.drainQueueLog fuel w

/-- What is recorded for a table that waited. -/
def Walk.weakLog (w : Walk) (s : WeakSwitch) : List Resolution :=
  let accepted := s.targets.takeWhile fun t => !((w.insts t).isNone && w.insideDecoded t)
  if accepted = [] then [] else [⟨s.pc, accepted, false⟩]

/-- The recordings of the tables that waited. -/
def Disassembler.weaksLog : List WeakSwitch → Walk → List Resolution
  | [], _ => []
  | s :: ss, w => w.weakLog s ++ Disassembler.weaksLog ss (d.acceptWeak entryAddr fnEnd w s)

/-- The recordings of `rounds`. -/
def Disassembler.roundsLog : ℕ → Walk → List Resolution
  | 0, _ => []
  | fuel + 1, w =>
      d.drainQueueLog entryAddr fnEnd fuel w ++
        match d.drainQueue entryAddr fnEnd fuel w with
        | none => []
        | some w =>
            if w.capped || w.weak.isEmpty then []
            else
              d.weaksLog entryAddr fnEnd w.weak { w with weak := [] } ++
                Disassembler.roundsLog fuel
                  (w.weak.foldl (d.acceptWeak entryAddr fnEnd) { w with weak := [] })

variable {d entryAddr fnEnd}

theorem jumpTables_enqueueBlock (w : Walk) (t : Addr) :
    (d.enqueueBlock w t).jumpTables = w.jumpTables := by
  unfold Disassembler.enqueueBlock
  split
  · rfl
  · dsimp only
    split
    · rfl
    · rfl

@[simp] theorem jumpTables_edge (blockStart : Addr) (w : Walk) (t : Addr) :
    (d.edge entryAddr fnEnd blockStart w t).jumpTables = w.jumpTables := by
  unfold Disassembler.edge
  dsimp only
  split
  · exact jumpTables_enqueueBlock _ t
  · split
    · rfl
    · rfl

@[simp] theorem jumpTables_foldl_edge (blockStart : Addr) (targets : List Addr) : ∀ w : Walk,
    (targets.foldl (d.edge entryAddr fnEnd blockStart) w).jumpTables = w.jumpTables := by
  induction targets with
  | nil => exact fun _ => rfl
  | cons t targets ih => exact fun w => (ih _).trans (jumpTables_edge blockStart w t)

theorem jumpTables_indirectJump (blockStart : Addr) (cur : List Instruction) (pc : Addr) (w : Walk) :
    (d.indirectJump entryAddr fnEnd blockStart cur pc w).jumpTables =
      tablesOf (d.indirectJumpLog entryAddr fnEnd blockStart cur pc w) w.jumpTables := by
  unfold Disassembler.indirectJump Disassembler.indirectJumpLog
  dsimp only
  cases (d.resolveJumpTable w entryAddr fnEnd blockStart cur).1 with
  | none => rfl
  | some r =>
      dsimp only
      by_cases hnil : r.1 = []
      · rw [if_pos hnil, if_pos (.inl hnil)]
        rfl
      · rw [if_neg hnil]
        by_cases hweak : r.2 ≤ 0
        · rw [if_pos hweak, if_pos (.inr hweak)]
          rfl
        · rw [if_neg hweak, if_neg (by simp [hnil, hweak]), jumpTables_foldl_edge]
          rfl

theorem jumpTables_other (blockStart : Addr) (cur : List Instruction) {i : Instruction} (w : Walk)
    (hop : i.inst.op ≠ .jmp) :
    (d.transfer entryAddr fnEnd blockStart cur i w).jumpTables = w.jumpTables := by
  unfold Disassembler.transfer
  dsimp only
  split
  · rename_i h
    exact absurd h hop
  · rfl
  · rfl
  · split
    · rfl
    · rfl
  · split
    · split
      · rfl
      · rfl
    · rfl
  · split
    · split
      · split
        · rw [jumpTables_edge, jumpTables_edge]
        · rw [jumpTables_edge]
      · split
        · rw [jumpTables_edge]
        · rfl
    · rfl

/-- **Step.**  A decoded instruction records what `resolutionOf` says. -/
theorem jumpTables_transfer (d : Disassembler) (entryAddr fnEnd : Addr)
    (blockStart : Addr) (cur : List Instruction) (i : Instruction) (w : Walk) :
    (d.transfer entryAddr fnEnd blockStart cur i w).jumpTables =
      tablesOf (d.resolutionOf entryAddr fnEnd blockStart cur i w) w.jumpTables := by
  unfold Disassembler.resolutionOf
  by_cases hop : i.inst.op = .jmp
  · rw [if_pos hop]
    unfold Disassembler.transfer
    rw [hop]
    dsimp only
    cases harg : i.inst.arg 0 with
    | none => exact jumpTables_indirectJump blockStart cur i.address w
    | some a =>
        cases a with
        | rel r => exact jumpTables_edge blockStart w _
        | reg r => exact jumpTables_indirectJump blockStart cur i.address w
        | mem m => exact jumpTables_indirectJump blockStart cur i.address w
        | imm v => exact jumpTables_indirectJump blockStart cur i.address w
  · rw [if_neg hop]
    exact jumpTables_other blockStart cur w hop

theorem jumpTables_decodeRun (blockStart : Addr) : ∀ fuel pc cur (w w' : Walk),
    d.decodeRun entryAddr fnEnd blockStart fuel pc cur w = some w' →
    w'.jumpTables = tablesOf (d.decodeRunLog entryAddr fnEnd blockStart fuel pc cur w) w.jumpTables := by
  intro fuel
  induction fuel with
  | zero => intro pc cur w w' h; cases h
  | succ fuel ih =>
      intro pc cur w w' h
      simp only [Disassembler.decodeRun] at h
      unfold Disassembler.decodeRunLog
      split at h
      · rename_i hout
        cases h
        rw [if_pos hout]
        rfl
      · rename_i hin
        rw [if_neg hin]
        cases hdec : d.decodeAt pc with
        | none =>
            rw [hdec] at h
            cases h
            rfl
        | some inst =>
            rw [hdec] at h
            dsimp only at h ⊢
            have hstep := jumpTables_transfer d entryAddr fnEnd
              blockStart (cur ++ [{ address := pc, inst }]) { address := pc, inst }
              (w.record { address := pc, inst })
            split at h
            · rename_i hpriv
              cases h
              rw [if_pos hpriv]
              rfl
            · rename_i hpriv
              rw [if_neg hpriv]
              split at h
              · rename_i hends
                cases h
                rw [if_pos hends]
                exact hstep
              · rename_i hends
                rw [if_neg hends]
                split at h
                · rename_i hbig
                  rw [if_pos hbig]
                  split at h
                  · cases h
                    rw [jumpTables_edge]
                    exact hstep
                  · cases h
                    exact hstep
                · rename_i hbig
                  rw [if_neg hbig]
                  split at h
                  · rename_i hcap
                    cases h
                    rw [if_pos hcap]
                    exact hstep
                  · rename_i hcap
                    rw [if_neg hcap, tablesOf_append, ih _ _ _ _ h, hstep]
                    rfl

theorem jumpTables_drainQueue : ∀ fuel (w w' : Walk), d.drainQueue entryAddr fnEnd fuel w = some w' →
    w'.jumpTables = tablesOf (d.drainQueueLog entryAddr fnEnd fuel w) w.jumpTables := by
  intro fuel
  induction fuel with
  | zero => intro w w' h; cases h
  | succ fuel ih =>
      intro w w' h
      simp only [Disassembler.drainQueue] at h
      unfold Disassembler.drainQueueLog
      cases hq : w.queue with
      | nil =>
          rw [hq] at h
          cases h
          rfl
      | cons b queue =>
          rw [hq] at h
          dsimp only at h ⊢
          split at h
          · rename_i hcap
            cases h
            rw [if_pos hcap]
            rfl
          · rename_i hcap
            obtain ⟨w₁, hrun, hrest⟩ := Option.bind_eq_some_iff.1 h
            have h₁ := jumpTables_decodeRun b _ _ _ _ _ hrun
            rw [if_neg hcap, hrun, tablesOf_append, ih _ _ hrest, h₁]

theorem jumpTables_acceptWeak (w : Walk) (s : WeakSwitch) :
    (d.acceptWeak entryAddr fnEnd w s).jumpTables = tablesOf (w.weakLog s) w.jumpTables := by
  unfold Disassembler.acceptWeak Walk.weakLog
  dsimp only
  split
  · rfl
  · rw [jumpTables_foldl_edge]
    rfl

theorem jumpTables_weaks (ss : List WeakSwitch) : ∀ w : Walk,
    (ss.foldl (d.acceptWeak entryAddr fnEnd) w).jumpTables =
      tablesOf (d.weaksLog entryAddr fnEnd ss w) w.jumpTables := by
  induction ss with
  | nil => exact fun _ => rfl
  | cons s ss ih =>
      intro w
      rw [List.foldl_cons, ih, jumpTables_acceptWeak, Disassembler.weaksLog, tablesOf_append]

/-- **Run.**  The tables of a finished walk are those its recordings leave. -/
theorem jumpTables_rounds : ∀ fuel (w w' : Walk), d.rounds entryAddr fnEnd fuel w = some w' →
    w'.jumpTables = tablesOf (d.roundsLog entryAddr fnEnd fuel w) w.jumpTables := by
  intro fuel
  induction fuel with
  | zero => intro w w' h; cases h
  | succ fuel ih =>
      intro w w' h
      simp only [Disassembler.rounds] at h
      unfold Disassembler.roundsLog
      obtain ⟨w₁, hdrain, hrest⟩ := Option.bind_eq_some_iff.1 h
      have h₁ := jumpTables_drainQueue _ _ _ hdrain
      rw [hdrain, tablesOf_append, ← h₁]
      dsimp only
      split at hrest
      · rename_i hend
        cases hrest
        rw [if_pos hend]
        rfl
      · rename_i hend
        rw [if_neg hend, tablesOf_append, ih _ _ hrest, jumpTables_weaks]

end Walks

/-! ### recordings of a sweep -/

section Sweeps

variable (d : SizedDisassembler) (entryAddr fnEnd : Addr)

/-- What is recorded at a swept instruction. -/
def SizedDisassembler.markLog (seen : List Instruction) (i : Instruction) (m : Marking) :
    List Resolution :=
  if i.inst.op = .jmp then
    match i.inst.arg 0 with
    | some (.rel _) => []
    | _ =>
        match (d.resolveSwept m.pendingData entryAddr fnEnd (seen ++ [i])).1 with
        | none => []
        | some (targets, count) => if targets = [] then [] else [⟨i.address, targets, decide (0 < count)⟩]
  else []

/-- The recordings of `markAll`. -/
def SizedDisassembler.markAllLog : List Instruction → List Instruction → Marking → List Resolution
  | _, [], _ => []
  | seen, i :: is, m =>
      d.markLog entryAddr fnEnd seen i m ++
        SizedDisassembler.markAllLog (seen ++ [i]) is (d.mark entryAddr fnEnd seen i m)

variable {d entryAddr fnEnd}

@[simp] theorem jumpTables_leadNext (m : Marking) (i : Instruction) :
    (m.leadNext fnEnd i).jumpTables = m.jumpTables := by
  unfold Marking.leadNext
  split
  · rfl
  · rfl

@[simp] theorem jumpTables_jumpTo (m : Marking) (t : Addr) :
    (m.jumpTo entryAddr fnEnd t).jumpTables = m.jumpTables := by
  unfold Marking.jumpTo
  split
  · rfl
  · rfl

@[simp] theorem jumpTables_foldl_jumpTo (targets : List Addr) : ∀ m : Marking,
    (targets.foldl (Marking.jumpTo entryAddr fnEnd) m).jumpTables = m.jumpTables := by
  induction targets with
  | nil => exact fun _ => rfl
  | cons t targets ih => exact fun m => (ih _).trans (jumpTables_jumpTo m t)

@[simp] theorem jumpTables_branchTo (m : Marking) (t : Addr) :
    (d.branchTo entryAddr fnEnd m t).jumpTables = m.jumpTables := by
  unfold SizedDisassembler.branchTo
  split
  · rfl
  · split
    · rfl
    · rfl

theorem jumpTables_markTable (seen : List Instruction) (i : Instruction) (m : Marking) :
    (d.markTable entryAddr fnEnd seen i m).jumpTables =
      tablesOf (match (d.resolveSwept m.pendingData entryAddr fnEnd (seen ++ [i])).1 with
        | none => []
        | some (targets, count) =>
            if targets = [] then [] else [⟨i.address, targets, decide (0 < count)⟩]) m.jumpTables := by
  unfold SizedDisassembler.markTable
  dsimp only
  cases (d.resolveSwept m.pendingData entryAddr fnEnd (seen ++ [i])).1 with
  | none => rfl
  | some r =>
      dsimp only
      by_cases hnil : r.1 = []
      · rw [if_pos hnil, if_pos hnil]
        rfl
      · rw [if_neg hnil, if_neg hnil, jumpTables_foldl_jumpTo]
        rfl

/-- **Step.**  A swept instruction records what `markLog` says. -/
theorem jumpTables_mark (seen : List Instruction) (i : Instruction) (m : Marking) :
    (d.mark entryAddr fnEnd seen i m).jumpTables =
      tablesOf (d.markLog entryAddr fnEnd seen i m) m.jumpTables := by
  unfold SizedDisassembler.markLog
  by_cases hop : i.inst.op = .jmp
  · rw [if_pos hop]
    unfold SizedDisassembler.mark
    rw [hop]
    dsimp only
    rw [jumpTables_leadNext]
    cases harg : i.inst.arg 0 with
    | none => exact jumpTables_markTable seen i m
    | some a =>
        cases a with
        | rel r => exact jumpTables_jumpTo m _
        | reg r => exact jumpTables_markTable seen i m
        | mem x => exact jumpTables_markTable seen i m
        | imm v => exact jumpTables_markTable seen i m
  · rw [if_neg hop]
    unfold SizedDisassembler.mark
    split
    · rename_i h
      exact absurd h hop
    · split
      · exact jumpTables_leadNext m i
      · rfl
    · exact jumpTables_leadNext m i
    · exact jumpTables_leadNext m i
    · split
      · rw [jumpTables_leadNext]
        split
        · exact jumpTables_branchTo m _
        · rfl
      · rfl

/-- **Run.**  The tables after the loop are those its recordings leave. -/
theorem jumpTables_markAll (is : List Instruction) : ∀ (seen : List Instruction) (m : Marking),
    (d.markAll entryAddr fnEnd seen is m).jumpTables =
      tablesOf (d.markAllLog entryAddr fnEnd seen is m) m.jumpTables := by
  induction is with
  | nil => exact fun _ _ => rfl
  | cons i is ih =>
      intro seen m
      rw [SizedDisassembler.markAll, ih, jumpTables_mark, SizedDisassembler.markAllLog, tablesOf_append]

theorem jumpTables_addends (addends : List (BitVec 64)) : ∀ m : Marking,
    (addends.foldl (markAddend entryAddr fnEnd) m).jumpTables = m.jumpTables := by
  induction addends with
  | nil => exact fun _ => rfl
  | cons a addends ih =>
      intro m
      refine (ih _).trans ?_
      unfold markAddend
      split
      · rfl
      · rfl

/-- A sweep records a jump at most once, at its address. -/
theorem markLog_pc (seen : List Instruction) (i : Instruction) (m : Marking) :
    ((d.markLog entryAddr fnEnd seen i m).map (·.pc)).Sublist [i.address] := by
  unfold SizedDisassembler.markLog
  split
  · split
    · exact List.nil_sublist _
    · split
      · exact List.nil_sublist _
      · split
        · exact List.nil_sublist _
        · exact List.Sublist.refl _
  · exact List.nil_sublist _

theorem markAllLog_pc (is : List Instruction) : ∀ (seen : List Instruction) (m : Marking),
    ((d.markAllLog entryAddr fnEnd seen is m).map (·.pc)).Sublist (is.map (·.address)) := by
  induction is with
  | nil => exact fun _ _ => List.Sublist.refl _
  | cons i is ih =>
      intro seen m
      rw [SizedDisassembler.markAllLog, List.map_append]
      exact (markLog_pc seen i m).append (ih _ _)

end Sweeps

/-! ### accumulation -/

/-- The tables hold every proven target in code that was recorded. -/
def Accumulated (inCode : Addr → Bool) (log : List Resolution) (tables : Addr → List Addr) : Prop :=
  ∀ r ∈ log, r.proven = true → ∀ t ∈ r.targets, inCode t = true → t ∈ tables r.pc

/-- No recording drops a target in code of an earlier proven one of the same jump. -/
def KeepsProven (inCode : Addr → Bool) (log : List Resolution) : Prop :=
  ∀ pre r post, log = pre ++ r :: post → ∀ r' ∈ pre, r'.proven = true → r'.pc = r.pc →
    ∀ t ∈ r'.targets, inCode t = true → t ∈ r.targets

theorem accumulated_concat {inCode : Addr → Bool} {log : List Resolution} {tables : Addr → List Addr}
    {r : Resolution} (h : Accumulated inCode log (tablesOf log tables)) :
    Accumulated inCode (log ++ [r]) (tablesOf (log ++ [r]) tables) ↔
      ∀ r' ∈ log, r'.proven = true → r'.pc = r.pc → ∀ t ∈ r'.targets, inCode t = true →
        t ∈ r.targets := by
  rw [tablesOf_append, tablesOf_singleton]
  constructor
  · intro hacc r' hr' hproven hpc t ht hcode
    have hmem := hacc r' (List.mem_append_left _ hr') hproven t ht hcode
    rwa [hpc, Function.update_self] at hmem
  · intro hkeep r' hr' hproven t ht hcode
    rcases List.mem_append.1 hr' with hr' | hr'
    · by_cases hpc : r'.pc = r.pc
      · rw [hpc, Function.update_self]
        exact hkeep r' hr' hproven hpc t ht hcode
      · rw [Function.update_of_ne hpc]
        exact h r' hr' hproven t ht hcode
    · rw [List.mem_singleton.1 hr'] at ht ⊢
      rwa [Function.update_self]

/-- **Every state reached** holds the proven targets exactly when no recording drops one. -/
theorem accumulated_iff (inCode : Addr → Bool) (log : List Resolution) (tables : Addr → List Addr) :
    (∀ pre, pre <+: log → Accumulated inCode pre (tablesOf pre tables)) ↔ KeepsProven inCode log := by
  constructor
  · intro h pre r post hlog r' hr'
    have hpre : pre ++ [r] <+: log := ⟨post, by rw [hlog, List.append_assoc]; rfl⟩
    have hpre' : pre <+: log := (List.prefix_append pre [r]).trans hpre
    exact (accumulated_concat (h pre hpre')).1 (h _ hpre) r' hr'
  · intro h pre hpre
    induction pre using List.reverseRecOn with
    | nil => exact fun r hr => (nomatch hr)
    | append_singleton pre r ih =>
        obtain ⟨post, hpost⟩ := hpre
        have hlog : log = pre ++ r :: post := by rw [← hpost, List.append_assoc]; rfl
        have hacc := ih ⟨r :: post, hlog.symm⟩
        exact (accumulated_concat hacc).2 (h pre r post hlog)

theorem keepsProven_of_nodup {inCode : Addr → Bool} {log : List Resolution}
    (h : (log.map (·.pc)).Nodup) : KeepsProven inCode log := by
  intro pre r post hlog r' hr' _ hpc
  exfalso
  rw [hlog, List.map_append, List.map_cons, List.nodup_append] at h
  exact h.2.2 r'.pc (List.mem_map_of_mem hr') r.pc List.mem_cons_self hpc

/-! ### both modes -/

section Both

variable (d : SizedDisassembler)

/-- Everything recorded while a function is disassembled. -/
def SizedDisassembler.resolutions (fuel : ℕ) (entryAddr : Addr) : List Resolution :=
  match d.linearEnd entryAddr with
  | some fnEnd =>
      let insts := (d.sweep fnEnd fuel entryAddr).getD []
      d.markAllLog entryAddr fnEnd [] insts
        { discoveredCalls := insts.flatMap (d.sweptCalls entryAddr fnEnd)
          leaders := fun a => a == entryAddr }
  | none => d.roundsLog entryAddr (d.functionEnd entryAddr) fuel (Walk.start entryAddr)

variable {d}

end Both

/-! ### one jump, two runs -/

/-- A switch that two paths enter: `je` at `0x10`; `and eax, 3` before the jump at `0x15`; on the
other path `and eax, 1; jmp 0x15`; four cases, and the table at `0x40`. -/
def switchImage : Bytes :=
  List.replicate 0x10 0 ++ [0x74, 0x0a, 0x83, 0xe0, 0x03, 0xff, 0x24, 0xc5, 0x40, 0, 0, 0,
    0x83, 0xe0, 0x01, 0xeb, 0xf4, 0xc3, 0xc3, 0xc3, 0xc3] ++ List.replicate 0x1b 0 ++
    [0x21, 0, 0, 0, 0, 0, 0, 0, 0x22, 0, 0, 0, 0, 0, 0, 0,
      0x23, 0, 0, 0, 0, 0, 0, 0, 0x24, 0, 0, 0, 0, 0, 0, 0]

/-- The decodings of its bytes. -/
def switchDecode : List (BitVec 8) → Option Inst
  | 0x74 :: rel :: _ => some { op := .jcc .e, len := 2, args := [.rel (rel.signExtend 32)] }
  | 0x83 :: 0xe0 :: b :: _ =>
      some { op := .and, len := 3, args := [.reg (.l .rax), .imm (b.signExtend 64)] }
  | 0xff :: 0x24 :: 0xc5 :: b₀ :: b₁ :: b₂ :: b₃ :: _ =>
      some { op := .jmp, len := 7
             args := [.mem ⟨none, none, 8, some (.q .rax), (b₃ ++ b₂ ++ b₁ ++ b₀).signExtend 64⟩] }
  | 0xeb :: rel :: _ => some { op := .jmp, len := 2, args := [.rel (rel.signExtend 32)] }
  | 0xc3 :: _ => some { op := .ret, len := 1 }
  | _ => none

/-- Its disassembler, with the resolver of the source. -/
def switchDisassembler : SizedDisassembler where
  image := switchImage
  decode := switchDecode
  exec _ := true
  isNoReturn _ := false
  seedable _ := false
  inUnwindScope _ := false
  functionEnd _ := 0x40
  skipFlagLiveness := false
  resolveJumpTable := resolveInWalk switchImage (fun _ => true) fun _ _ => false
  image_length := by
    simp only [switchImage, List.length_append, List.length_replicate, List.length_cons]
    decide
  decode_len bytes inst h := by
    unfold switchDecode at h
    split at h
    all_goals first
      | (cases h; simp only [List.length_cons]; omega)
      | cases h
  symbolSize _ := 0
  sizedEnd entryAddr size := entryAddr + size
  addends := []
  resolveSwept := resolveInSweep switchImage (fun _ => true) fun _ _ => false

end PS4Recomp.Disasm
