import PS4Recomp.Disasm.BranchFollowing
import PS4Recomp.Library.Bytes

/-!
# Jump tables

`jumptable.go`, with the three searches of `disasmBranchFollowing` in the predecessor blocks.

* `gprFamily`, `modifiesReg`, `traceLEA`, `copyInto` — what an instruction does to a register;
* `switchTableCountKill`, `byteIndexCapKill` — the bounds of an index in a run of instructions;
* `matchJumpTable` — the table of an indirect jump;
* `readResolvedTargets` — its targets, and the bytes noted as data;
* `findTableAddr`, `findCount`, `findCap` — the searches through the blocks found so far;
* `resolveJumpTableCapped` — all of it.

Runs of instructions are searched backwards: the functions on a list of them take it last
instruction first.  A register is `none` where the source has register 0.  The scan of a table that
reaches the end of the address space stops there; Go panics on it.  The long jump and `UD1` are
operations without a constructor of their own, `other 1` and `other 2`.
-/

namespace PS4Recomp.Disasm

open X86 Library

/-- `maxJumpTableEntries`. -/
def maxJumpTableEntries : ℕ := 4096

/-- `JumpTableFormat`. -/
inductive JumpTableFormat where
  | rel32 | abs64 | rel8 | rel16
  deriving DecidableEq, Repr

/-- `ResolvedJumpTable` without its targets.  A `count` of 0 is not proven. -/
structure ResolvedJumpTable where
  format : JumpTableFormat
  tableAddr : Addr
  baseAddr : Addr := 0
  count : ℕ
  cap : ℕ

/-! ### registers -/

/-- `gprFamily`. -/
def gprFamily : Reg → Option Gpr
  | .q g | .l g | .w g | .b g => some g
  | .h g => some g.gpr
  | _ => none

/-- `sameGPR`. -/
def sameGPR (a b : Reg) : Bool :=
  match gprFamily a, gprFamily b with
  | some g, some g' => g == g'
  | _, _ => false

/-- `sameGPR` of a register that may be missing. -/
def sameGPR? (a : Option Reg) (b : Reg) : Bool :=
  match a with
  | some a => sameGPR a b
  | none => false

/-- `isCalleeSaved`. -/
def isCalleeSaved (r : Reg) : Bool :=
  match gprFamily r with
  | some .rbx | some .rsp | some .rbp | some .r12 | some .r13 | some .r14 | some .r15 => true
  | _ => false

/-- `modifiesReg`. -/
def modifiesReg (inst : Inst) (reg : Reg) : Bool :=
  match inst.op with
  | .cmp | .test | .bt | .nop | .ud2 => false
  | .push => sameGPR reg (.q .rsp)
  | .xchg => inst.args.any fun
      | .reg r => sameGPR r reg
      | _ => false
  | .call => !isCalleeSaved reg
  | _ =>
      match inst.arg 0 with
      | some (.reg dst) => sameGPR dst reg
      | _ => false

/-- `leaRIPTarget`. -/
def leaRIPTarget (i : Instruction) : Option (Reg × Addr) :=
  match i.inst.op, i.inst.arg 0, i.inst.arg 1 with
  | .lea, some (.reg dst), some (.mem mem) =>
      if mem.base = some .rip then some (dst, ripTarget i.nextPC mem) else none
  | _, _, _ => none

/-- A RIP-relative `LEA` into `cur`. -/
def leaInto (i : Instruction) (cur : Reg) : Option Addr :=
  match leaRIPTarget i with
  | some (dst, target) => if sameGPR dst cur then some target else none
  | none => none

/-- The source of a 64-bit register copy into `cur`. -/
def copySource (inst : Inst) (cur : Reg) : Option Reg :=
  match inst.op, inst.arg 0, inst.arg 1 with
  | .mov, some (.reg (.q g)), some (.reg src) => if sameGPR (.q g) cur then some src else none
  | _, _, _ => none

/-- `traceLEA`: the address, and the register the value came from. -/
def traceLEA : List Instruction → Reg → Option Addr × Option Reg
  | [], cur => (none, some cur)
  | i :: before, cur =>
      match leaInto i cur with
      | some target => (some target, some cur)
      | none =>
          match copySource i.inst cur with
          | some src => traceLEA before src
          | none => if modifiesReg i.inst cur then (none, none) else traceLEA before cur

/-- `copyInto`: `none` where `reg` is not written, else the source of a register copy. -/
def copyInto (inst : Inst) (reg : Reg) : Option (Option Reg) :=
  if modifiesReg inst reg then
    match inst.op, inst.arg 1 with
    | .mov, some (.reg r) | .movsxd, some (.reg r) | .movzx, some (.reg r) | .movsx, some (.reg r) =>
        some (if (gprFamily r).isSome then some r else none)
    | _, _ => some none
  else none

/-! ### bounds of an index -/

/-- The loop of `copiedFrom`; `between` are the instructions behind it. -/
def copiedScan (idxReg src : Reg) : List Instruction → List Instruction → Bool
  | [], _ => false
  | i :: before, between =>
      match i.inst.op, i.inst.arg 0, i.inst.arg 1 with
      | .mov, some (.reg d), some (.reg s) =>
          if sameGPR d idxReg && sameGPR s src then
            between.all fun m => !(modifiesReg m.inst idxReg || modifiesReg m.inst src)
          else if modifiesReg i.inst src || modifiesReg i.inst idxReg then false
          else copiedScan idxReg src before (i :: between)
      | _, _, _ =>
          if modifiesReg i.inst src || modifiesReg i.inst idxReg then false
          else copiedScan idxReg src before (i :: between)

/-- `copiedFrom`. -/
def copiedFrom (before : List Instruction) (idxReg src : Reg) : Bool :=
  if (gprFamily src).isNone || sameGPR src idxReg then false
  else copiedScan idxReg src before []

/-- `boundHoldsOnEdge`. -/
def boundHoldsOnEdge (last : Instruction) (child : Addr) : Bool :=
  match last.inst.op with
  | .jcc c =>
      if c = .a ∨ c = .ae ∨ c = .b ∨ c = .be then
        match last.inst.arg 0 with
        | some (.rel r) =>
            if last.relTarget r = last.nextPC then false
            else if c = .a ∨ c = .ae then child == last.nextPC
            else child == last.relTarget r
        | _ => false
      else true
  | _ => true

/-- `predReg`. -/
def predReg (killed : Bool) (idx src : Reg) : Reg := if killed then idx else src

/-- The immediate of the last move into `reg`. -/
def lastMovImm : List Instruction → Reg → Option (BitVec 64)
  | [], _ => none
  | i :: before, reg =>
      match i.inst.op, i.inst.arg 0 with
      | .mov, some (.reg dst) =>
          if sameGPR dst reg then
            match i.inst.arg 1 with
            | some (.imm v) => some v
            | _ => none
          else lastMovImm before reg
      | _, _ => lastMovImm before reg

/-- The count of a bit extraction or mask into `idx`: `none` where `inst` is no such instruction,
`some none` where it gives no count. -/
def maskCount (before : List Instruction) (inst : Inst) (idx : Reg) : Option (Option ℕ) :=
  match inst.op, inst.arg 0 with
  | .bextr, some (.reg dst) =>
      if sameGPR dst idx then
        some (match inst.arg 2 with
          | some (.reg ctrl) =>
              (lastMovImm before ctrl).bind fun imm =>
                let length := ((imm >>> 8) &&& 0xff).toNat
                if 0 < length ∧ length ≤ 12 then some (2 ^ length) else none
          | _ => none)
      else none
  | .bzhi, some (.reg dst) =>
      if sameGPR dst idx then
        some (match inst.arg 2 with
          | some (.reg r) =>
              (lastMovImm before r).bind fun imm =>
                if 0 < imm.toNat ∧ imm.toNat ≤ 12 then some (2 ^ imm.toNat) else none
          | _ => none)
      else none
  | .and, some (.reg dst) =>
      if sameGPR dst idx then
        some (match inst.arg 1 with
          | some (.imm v) =>
              if 0 < v.toNat ∧ v.toNat < maxJumpTableEntries ∧ v &&& (v + 1) = 0 then some (v.toNat + 1)
              else none
          | _ => none)
      else none
  | _, _ => none

/-- The check before a conditional jump: the jump is taken above the bound or not, and the bound
itself is in range or not.  Copies between the check and the jump are followed. -/
def boundCheck (above inclusive : Bool) : List Instruction → Reg → Option ℕ
  | [], _ => none
  | prev :: before, cand =>
      match prev.inst.op with
      | .mov | .lea | .nop | .movzx | .movsx | .movsxd =>
          match copyInto prev.inst cand with
          | none => boundCheck above inclusive before cand
          | some none => none
          | some (some src) => boundCheck above inclusive before src
      | op =>
          if op = .cmp ∨ above = true ∧ op = .sub then
            match prev.inst.arg 0, prev.inst.arg 1 with
            | some (.reg r), some (.imm v) =>
                let n := if inclusive then v.toNat + 1 else v.toNat
                if (sameGPR r cand || copiedFrom before cand r) = true ∧ v.toNat < maxJumpTableEntries ∧
                    0 < n ∧ n ≤ maxJumpTableEntries then some n
                else none
            | _, _ => none
          else none

/-- The count that a conditional jump shows. -/
def jccCount (before : List Instruction) (inst : Inst) (idx : Reg) : Option ℕ :=
  match inst.op with
  | .jcc .a => boundCheck true true before idx
  | .jcc .ae => boundCheck true false before idx
  | .jcc .b => boundCheck false false before idx
  | .jcc .be => boundCheck false true before idx
  | _ => none

/-- `switchTableCountKill`: the count, 0 for none, whether the index was written, and the register it
came from. -/
def switchTableCountKill : List Instruction → Reg → ℕ × Bool × Reg
  | [], idx => (0, false, idx)
  | i :: before, idx =>
      match maskCount before i.inst idx with
      | some (some n) => (n, false, idx)
      | some none => (0, true, idx)
      | none =>
          match jccCount before i.inst idx with
          | some n => (n, false, idx)
          | none =>
              match copyInto i.inst idx with
              | none => switchTableCountKill before idx
              | some (some src) => switchTableCountKill before src
              | some none => (0, true, idx)

/-- `byteIndexCapKill`: the cap, 0 for none, the register the index came from, and whether it was
written by something else. -/
def byteIndexCapKill : List Instruction → Reg → ℕ × Reg × Bool
  | [], idx => (0, idx, false)
  | i :: before, idx =>
      match copyInto i.inst idx with
      | none => byteIndexCapKill before idx
      | some src =>
          match i.inst.op, i.inst.memBytes, i.inst.arg 1, src with
          | .movzx, 1, some (.mem _), _ => (256, idx, false)
          | _, _, _, some src => byteIndexCapKill before src
          | _, _, _, none => (0, idx, true)

/-! ### the table of a jump -/

/-- The searches in the predecessor blocks. -/
structure Searches where
  findTableAddr : Reg → Option Addr
  findCount : Reg → Option ℕ
  findCap : Reg → ℕ

/-- The `LEA` that sets the base of a table. -/
def baseLEA : List Instruction → Reg → Option Addr
  | [], _ => none
  | i :: before, base =>
      match leaInto i base with
      | some target => some target
      | none => if modifiesReg i.inst base then none else baseLEA before base

/-- `resolveMemTableAddr`. -/
def resolveMemTableAddr (s : Searches) (before : List Instruction) (mem : Mem) (nextPC : Addr) :
    Option Addr :=
  match mem.base with
  | some .rip => some (ripTarget nextPC mem)
  | none => if mem.disp ≠ 0 then some mem.disp else none
  | some base =>
      match baseLEA before base with
      | some target => some (target + mem.disp)
      | none => (s.findTableAddr base).map fun target => target + mem.disp

/-- The number of entries of a table indexed by `idx`. -/
def tableCount (s : Searches) (before : List Instruction) (idx : Reg) : ℕ :=
  let r := switchTableCountKill before idx
  if r.1 = 0 then (s.findCount (predReg r.2.1 idx r.2.2)).getD 0 else r.1

/-- `capOf`. -/
def capOf (s : Searches) (before : List Instruction) (idx : Reg) : ℕ :=
  let r := byteIndexCapKill before idx
  if r.1 = 0 ∧ r.2.2 = false then s.findCap r.2.1 else r.1

/-- A table of addresses read through `mem`. -/
def absTable (s : Searches) (before : List Instruction) (mem : Mem) (nextPC : Addr) :
    Option ResolvedJumpTable :=
  match mem.scale, mem.index with
  | 8, some idx =>
      (resolveMemTableAddr s before mem nextPC).map fun tableAddr =>
        { format := .abs64, tableAddr, count := tableCount s before idx, cap := capOf s before idx }
  | _, _ => none

/-- `mov jmpReg, [tableReg + idxReg*8]`, searched in a number of instructions. -/
def absLoad (s : Searches) (jmpReg : Reg) : ℕ → List Instruction → Option ResolvedJumpTable
  | 0, _ => none
  | _, [] => none
  | n + 1, i :: before =>
      let table :=
        match i.inst.op, i.inst.arg 0, i.inst.arg 1 with
        | .mov, some (.reg dst), some (.mem mem) =>
            if sameGPR dst jmpReg then absTable s before mem i.nextPC else none
        | _, _, _ => none
      match table with
      | some table => some table
      | none => if modifiesReg i.inst jmpReg then none else absLoad s jmpReg n before

/-- The offset and the base that an instruction adds into `jmpReg`. -/
def addOperands (inst : Inst) (jmpReg : Reg) : Option (Reg × Reg) :=
  match inst.op, inst.arg 0, inst.arg 1 with
  | .add, some (.reg dst), some (.reg src) =>
      if sameGPR dst jmpReg then some (dst, src)
      else if sameGPR src jmpReg then some (src, dst)
      else none
  | .lea, some (.reg dst), some (.mem mem) =>
      if sameGPR dst jmpReg = true ∧ mem.disp = 0 ∧ mem.scale ≤ 1 then
        match mem.base, mem.index with
        | some base, some index =>
            if sameGPR base jmpReg then some (base, index)
            else if sameGPR index jmpReg then some (index, base)
            else none
        | _, _ => none
      else none
  | _, _, _ => none

/-- The addition before the jump, with what is before it. -/
def findAdd (jmpReg : Reg) : ℕ → List Instruction → Option ((Reg × Reg) × ℕ × List Instruction)
  | 0, _ => none
  | _, [] => none
  | n + 1, i :: before =>
      match addOperands i.inst jmpReg with
      | some regs => some (regs, n, before)
      | none => if modifiesReg i.inst jmpReg then none else findAdd jmpReg n before

/-- The table, the index and the format of a load of an offset. -/
def offsetLoad (inst : Inst) (offReg : Reg) : Option (Option Reg × Reg × JumpTableFormat) :=
  let narrow := inst.op = .movzx ∨ inst.op = .movsx
  if inst.op = .movsxd ∨ inst.op = .mov ∨ narrow then
    match inst.arg 0, inst.arg 1 with
    | some (.reg dst), some (.mem mem) =>
        if sameGPR dst offReg then
          mem.index.map fun idx => (mem.base, idx,
            if mem.scale = 4 ∨ inst.op = .movsxd then .rel32
            else if mem.scale = 1 ∧ narrow then .rel8
            else if mem.scale = 2 ∧ narrow then .rel16
            else .rel32)
        else none
    | _, _ => none
  else none

/-- The load of the offset before the addition, with what is before it. -/
def findLoad (offReg baseReg : Reg) :
    ℕ → List Instruction → Option ((Option Reg × Reg × JumpTableFormat) × List Instruction)
  | 0, _ => none
  | _, [] => none
  | n + 1, i :: before =>
      match offsetLoad i.inst offReg with
      | some load => some (load, before)
      | none =>
          if modifiesReg i.inst offReg || modifiesReg i.inst baseReg then none
          else findLoad offReg baseReg n before

/-- `traceLEA` of a register that may be missing. -/
def traceLEA? (before : List Instruction) : Option Reg → Option Addr × Option Reg
  | some reg => traceLEA before reg
  | none => (none, none)

/-- A relative switch: an offset loaded from a table and added to a base. -/
def relTable (s : Searches) (jmpReg : Reg) (steps : ℕ) (before : List Instruction) :
    Option ResolvedJumpTable := do
  let ((offReg, baseReg), steps, beforeAdd) ← findAdd jmpReg steps before
  let ((tableReg, idxReg, format), beforeLoad) ← findLoad offReg baseReg steps beforeAdd
  let table := traceLEA? beforeLoad tableReg
  let base := traceLEA beforeAdd baseReg
  let shared := sameGPR? tableReg baseReg
  let tableAddr ← match table.1 with
    | some addr => some addr
    | none => table.2.bind s.findTableAddr
  let codeBase := match base.1 with
    | some addr => some addr
    | none => if shared then none else base.2.bind s.findTableAddr
  let baseAddr ← if shared then some tableAddr else codeBase
  some { format, tableAddr, baseAddr, count := tableCount s beforeLoad idxReg, cap := capOf s beforeLoad idxReg }

/-- `matchJumpTable`. -/
def matchJumpTable (s : Searches) (window : List Instruction) (lo : ℕ) : Option ResolvedJumpTable :=
  match window.reverse with
  | [] => none
  | jmp :: before =>
      if jmp.inst.op = .jmp then
        match jmp.inst.arg 0 with
        | some (.mem mem) => absTable s before mem jmp.nextPC
        | some (.reg jmpReg) =>
            match absLoad s jmpReg (before.length - lo) before with
            | some table => some table
            | none => relTable s jmpReg (before.length - lo) before
        | _ => none
      else none

/-- `endsStraightLine`. -/
def endsStraightLine (op : Op) : Bool :=
  isJcc op || match op with
    | .jmp | .other 1 | .ret | .lret | .iret | .iretd | .iretq | .other 2 | .ud2 | .hlt => true
    | _ => false

/-- `straightLineStart`. -/
def straightLineStart (window : List Instruction) : ℕ :=
  (window.dropLast.reverse.dropWhile fun i => !endsStraightLine i.inst.op).length

/-! ### the targets -/

/-- The size of an entry. -/
def JumpTableFormat.size : JumpTableFormat → ℕ
  | .rel32 => 4
  | .abs64 => 8
  | .rel8 => 1
  | .rel16 => 2

/-- The target of the entry at `off`. -/
def ResolvedJumpTable.entry (sw : ResolvedJumpTable) (img : Bytes) (off : ℕ) : Addr :=
  let bytes := leNat (bytesAt img.get off sw.format.size)
  match sw.format with
  | .rel32 =>
      if 0 < sw.count ∨ sw.baseAddr ≠ sw.tableAddr ∨ BitVec.ofNat 32 bytes ≠ 0 then
        sw.baseAddr + (BitVec.ofNat 32 bytes).signExtend 64
      else 0
  | .abs64 => BitVec.ofNat 64 bytes
  | .rel8 => sw.baseAddr + (BitVec.ofNat 8 bytes).signExtend 64
  | .rel16 => sw.baseAddr + (BitVec.ofNat 16 bytes).signExtend 64

/-- A target that was not seen before. -/
def addTarget (targets : List Addr) (t : Addr) : List Addr :=
  if t ∈ targets then targets else targets ++ [t]

/-- The loop of `readResolvedTargets` from entry `i` on. -/
def readEntries (img : Bytes) (inCode : Addr → Bool) (sw : ResolvedJumpTable) (fnStart fnEnd : Addr) :
    ℕ → ℕ → List Addr → List Addr
  | 0, _, targets => targets
  | n + 1, i, targets =>
      let off := (sw.tableAddr + BitVec.ofNat 64 (i * sw.format.size)).toNat
      if img.length < off + sw.format.size then targets
      else
        let target := sw.entry img off
        let outside := fnStart < fnEnd ∧ (target < fnStart ∨ fnEnd ≤ target)
        if target = 0 ∨ outside ∨ inCode target = false then
          if 0 < sw.count then
            readEntries img inCode sw fnStart fnEnd n (i + 1)
              (if target ≠ 0 ∧ outside ∧ inCode target = true then addTarget targets target else targets)
          else targets
        else readEntries img inCode sw fnStart fnEnd n (i + 1) (addTarget targets target)

/-- The number of entries that are read at most. -/
def ResolvedJumpTable.limit (sw : ResolvedJumpTable) : ℕ :=
  min maxJumpTableEntries
    (if 0 < sw.count then sw.count else if 0 < sw.cap then sw.cap else maxJumpTableEntries)

/-- `readResolvedTargets`: the targets, and the bytes noted as data. -/
def readResolvedTargets (img : Bytes) (inCode : Addr → Bool) (overlapsFunc : Addr → Addr → Bool)
    (sw : ResolvedJumpTable) (fnStart fnEnd : Addr) : List Addr × List (Addr × Addr) :=
  let targets := readEntries img inCode sw fnStart fnEnd sw.limit 0 []
  if sw.count = 0 then (if targets.length < 2 then [] else targets, [])
  else
    let stop := sw.tableAddr + BitVec.ofNat 64 (sw.count * sw.format.size)
    (targets, if stop ≤ sw.tableAddr ∨ overlapsFunc sw.tableAddr stop = true then []
      else [(sw.tableAddr, stop)])

/-- `resolveJumpTableCapped`. -/
def resolveJumpTableCapped (img : Bytes) (inCode : Addr → Bool) (overlapsFunc : Addr → Addr → Bool)
    (s : Searches) (window : List Instruction) (lo : ℕ) (fnStart fnEnd : Addr) :
    Option (List Addr × ℤ) × List (Addr × Addr) :=
  match matchJumpTable s window lo with
  | none => (none, [])
  | some sw =>
      let r := readResolvedTargets img inCode overlapsFunc sw fnStart fnEnd
      (if r.1 = [] then none else some (r.1, sw.count), r.2)

/-! ### searches in the predecessor blocks -/

/-- A breadth-first search over a number of levels; a step may end it. -/
def searchLevels {α σ β : Type} (step : σ → List α → Except β (σ × List α)) :
    ℕ → σ → List α → Except β (σ × List α)
  | 0, st, queue => .ok (st, queue)
  | n + 1, st, queue =>
      if queue.isEmpty then .ok (st, queue)
      else match step st queue with
        | .error b => .error b
        | .ok (st, next) => searchLevels step n st next

/-- An item queued unless its key was visited. -/
def visitNew {α κ : Type} [DecidableEq κ] (key : α → κ) (st : List κ × List α) (a : α) : List κ × List α :=
  if key a ∈ st.1 then st else (st.1 ++ [key a], st.2 ++ [a])

/-- One item of `findTableAddr`. -/
def tableAddrItem (w : Walk) (st : List (Addr × Reg) × List (Addr × Reg)) (it : Addr × Reg) :
    Except Addr (List (Addr × Reg) × List (Addr × Reg)) :=
  match traceLEA (w.blockInsts it.1).reverse it.2 with
  | (some target, _) => .error target
  | (none, none) => .ok st
  | (none, some cur) => .ok ((w.blockPreds it.1).foldl (fun st p => visitNew id st (p, cur)) st)

/-- `findTableAddr`. -/
def findTableAddr (w : Walk) (blockStart : Addr) (reg : Reg) : Option Addr :=
  let start := (w.blockPreds blockStart).foldl (fun st p => visitNew id st (p, reg)) ([], [])
  match searchLevels (fun visited queue => queue.foldlM (tableAddrItem w) (visited, [])) 256
    start.1 start.2 with
  | .error target => some target
  | .ok _ => none

/-- `edgeTo`: a block, the one behind it, and the register of the index at the seam. -/
structure EdgeTo where
  pred : Addr
  child : Addr
  reg : Reg
  deriving DecidableEq

/-- One item of `findCount`; the state is the largest count and the edges seen. -/
def countItem (w : Walk) (st : (ℕ × List EdgeTo) × List EdgeTo) (e : EdgeTo) :
    Except Unit ((ℕ × List EdgeTo) × List EdgeTo) :=
  let insts := w.blockInsts e.pred
  let insts := match insts.getLast? with
    | some last => if boundHoldsOnEdge last e.child then insts else insts.dropLast
    | none => insts
  let r := switchTableCountKill insts.reverse e.reg
  if 0 < r.1 then .ok ((max st.1.1 r.1, st.1.2), st.2)
  else if r.2.1 then .error ()
  else if (w.blockPreds e.pred).isEmpty then .error ()
  else
    let st' := (w.blockPreds e.pred).foldl (fun acc p => visitNew id acc ⟨p, e.pred, r.2.2⟩) (st.1.2, st.2)
    .ok ((st.1.1, st'.1), st'.2)

/-- `findCount`. -/
def findCount (w : Walk) (blockStart : Addr) (idxReg : Reg) : Option ℕ :=
  let start := (w.blockPreds blockStart).foldl (fun st p => visitNew id st ⟨p, blockStart, idxReg⟩) ([], [])
  if start.2.isEmpty then none
  else match searchLevels (fun st queue => queue.foldlM (countItem w) (st, [])) 256
      ((0 : ℕ), start.1) start.2 with
    | .error _ => none
    | .ok ((found, _), queue) => if !queue.isEmpty ∨ found = 0 then none else some found

/-- One item of `findCap`; the state is the cap and the blocks seen. -/
def capItem (w : Walk) (st : (ℕ × List Addr) × List (Addr × Reg)) (it : Addr × Reg) :
    Except Unit ((ℕ × List Addr) × List (Addr × Reg)) :=
  let r := byteIndexCapKill (w.blockInsts it.1).reverse it.2
  if r.2.2 then .error ()
  else if 0 < r.1 then .ok ((r.1, st.1.2), st.2)
  else if (w.blockPreds it.1).isEmpty then .error ()
  else
    let st' := (w.blockPreds it.1).foldl (fun acc p => visitNew Prod.fst acc (p, r.2.1)) (st.1.2, st.2)
    .ok ((st.1.1, st'.1), st'.2)

/-- `findCap`. -/
def findCap (w : Walk) (blockStart : Addr) (idxReg : Reg) : ℕ :=
  let start := (w.blockPreds blockStart).foldl (fun st p => visitNew Prod.fst st (p, idxReg)) ([], [])
  match searchLevels (fun st queue => queue.foldlM (capItem w) (st, [])) 256
      ((0 : ℕ), start.1) start.2 with
  | .error _ => 0
  | .ok ((found, _), queue) => if queue.isEmpty then found else 0

/-- `resolveJumpTableCapped` with the searches of `disasmBranchFollowing`, for an image, its
executable bytes and its known functions. -/
def resolveInWalk (img : Bytes) (exec : Addr → Bool) (overlapsFunc : Addr → Addr → Bool) (w : Walk)
    (entryAddr fnEnd blockStart : Addr) (cur : List Instruction) :
    Option (List Addr × ℤ) × List (Addr × Addr) :=
  let inCode (addr : Addr) : Bool := decide (addr.toNat < img.length) && exec addr &&
    !(w.pendingData.any fun r => decide (r.1.toNat ≤ addr.toNat ∧ addr.toNat < r.2.toNat))
  resolveJumpTableCapped img inCode overlapsFunc
    ⟨findTableAddr w blockStart, findCount w blockStart, findCap w blockStart⟩ cur 0 entryAddr fnEnd

end PS4Recomp.Disasm
