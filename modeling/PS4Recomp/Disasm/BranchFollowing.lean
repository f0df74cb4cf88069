import PS4Recomp.Disasm.CarryExact
import PS4Recomp.Disasm.FlagLiveness

/-!
# Branch-following disassembly

`disasmBranchFollowing` of `cfg.go`: from the entry, straight-line runs are decoded and the targets
of their last instructions queued; then the decoded instructions are cut into blocks.

* `Disassembler` — the image, the decoder and what is known about the image; the decoder and the
  jump-table resolver are other code of the program, here any functions of that type;
* `Walk`, `edge`, `transfer`, `decodeRun`, `drainQueue`, `acceptWeak`, `rounds` — the worklist;
* `leadersOf`, `buildBlocks`, `Walk.function` — the blocks;
* `disasmBranchFollowing` — the whole, with the flag passes at its end.

The loops take a fuel argument; `none` means the fuel was not enough, or that nothing was decoded.
The counters and texts of the statistics (`CapHits`, `PrivilegedStops`) are left out, no result
depends on them.
-/

namespace PS4Recomp.Disasm

open X86

/-- `isPrivileged`: opcodes that do not appear in user-mode code. -/
def isPrivileged : Op → Bool
  | .inOp | .insb | .insw | .insd | .out | .outsb | .outsw | .outsd | .cli | .sti | .hlt
  | .iret | .iretd | .iretq | .lgdt | .clts | .wbinvd | .invd | .invlpg
  | .rdmsr | .wrmsr | .swapgs | .sysret | .sysexit => true
  | _ => false

/-- A switch table whose length was not proven. -/
structure WeakSwitch where
  pc : Addr
  start : Addr
  targets : List Addr

/-- The state of the worklist.  `queue` is `blockQueue[head:]`, `addrs` lists the keys of
`instAtAddr`, `insts` are its values, `pendingData` the ranges noted as data. -/
structure Walk where
  discoveredCalls : List Addr := []
  queue : List Addr
  visited : Addr → Bool
  insts : Addr → Option Instruction := fun _ => none
  addrs : List Addr := []
  jumpTargets : Addr → Bool
  blockPreds : Addr → List Addr := fun _ => []
  blockInsts : Addr → List Instruction := fun _ => []
  jumpTables : Addr → List Addr := fun _ => []
  weak : List WeakSwitch := []
  pendingData : List (Addr × Addr) := []
  capped : Bool := false

/-- What `disasmBranchFollowing` reads of its receiver.  `exec` says that an address is executable
and not in a known data range; `resolveJumpTable` is `resolveJumpTableCapped` with its three search
closures, which read the walk and may note data: the targets, the count, and the ranges noted. -/
structure Disassembler where
  image : List (BitVec 8)
  decode : List (BitVec 8) → Option Inst
  exec : Addr → Bool
  isNoReturn : Addr → Bool
  seedable : Addr → Bool
  inUnwindScope : Addr → Bool
  functionEnd : Addr → Addr
  skipFlagLiveness : Bool
  resolveJumpTable : Walk → (entryAddr fnEnd blockStart : Addr) → List Instruction →
    Option (List Addr × ℤ) × List (Addr × Addr)
  /-- The length of a slice is an `int`. -/
  image_length : image.length < 2 ^ 63
  /-- A decoded instruction lies in the bytes it was decoded from. -/
  decode_len : ∀ bytes inst, decode bytes = some inst → inst.len ≤ bytes.length

variable (d : Disassembler)

/-! ### one instruction -/

/-- `Decode(d.elf.MemoryImage[pc:])`; an empty decode fails, and an instruction without an
operation (`Op` 0, here `other 0`) is a trap. -/
def Disassembler.decodeAt (pc : Addr) : Option Inst :=
  match d.decode (d.image.drop pc.toNat) with
  | some inst =>
      if inst.len = 0 then none
      else if inst.op = .other 0 then some { inst with op := .ud2 }
      else some inst
  | none => none

/-- `inCode`: inside the image, executable, and not data. -/
def Disassembler.inCode (pendingData : List (Addr × Addr)) (addr : Addr) : Bool :=
  decide (addr.toNat < d.image.length) && d.exec addr &&
    !(pendingData.any fun r => decide (r.1.toNat ≤ addr.toNat ∧ addr.toNat < r.2.toNat))

/-- The displacement of a RIP-relative operand: `int64(int32(mem.Disp))`. -/
def ripTarget (nextPC : Addr) (mem : Mem) : Addr :=
  nextPC + (mem.disp.truncate 32).signExtend 64

/-- A call that does not come back. -/
def Disassembler.callsNoReturn (i : Instruction) : Bool :=
  match i.inst.arg 0 with
  | some (.rel r) => d.isNoReturn (i.relTarget r)
  | some (.mem m) => m.base == some .rip && d.isNoReturn (ripTarget i.nextPC m)
  | _ => false

/-- `isTerminal || isBranch`: the instruction ends the run that decodes it. -/
def Disassembler.endsRun (i : Instruction) : Bool :=
  match i.inst.op with
  | .jmp | .ret | .ud2 => true
  | .call => d.callsNoReturn i
  | op => isJcc op

/-! ### the worklist -/

section Worklist

variable (entryAddr fnEnd : Addr)

/-- `inside`. -/
def Disassembler.inside (pendingData : List (Addr × Addr)) (addr : Addr) : Bool :=
  decide (entryAddr.toNat ≤ addr.toNat ∧ addr.toNat < fnEnd.toNat) && d.inCode pendingData addr

/-- `enqueueBlock`. -/
def Disassembler.enqueueBlock (w : Walk) (target : Addr) : Walk :=
  if target = 0 ∨ d.inCode w.pendingData target = false then w
  else
    let w := { w with jumpTargets := Function.update w.jumpTargets target true }
    if w.visited target then w
    else { w with visited := Function.update w.visited target true, queue := w.queue ++ [target] }

/-- `edge`: a direct transfer past the function is a tail call, not another block. -/
def Disassembler.edge (blockStart : Addr) (w : Walk) (target : Addr) : Walk :=
  let w := { w with
    blockPreds := Function.update w.blockPreds target (w.blockPreds target ++ [blockStart]) }
  if d.inside entryAddr fnEnd w.pendingData target then d.enqueueBlock w target
  else if target ≠ 0 ∧ d.inCode w.pendingData target = true then
    { w with discoveredCalls := w.discoveredCalls ++ [target] }
  else w

/-- An indirect jump: its table, if one is found.  A table without a proven count waits until all
other code is decoded. -/
def Disassembler.indirectJump (blockStart : Addr) (cur : List Instruction) (pc : Addr) (w : Walk) :
    Walk :=
  let r := d.resolveJumpTable w entryAddr fnEnd blockStart cur
  let w := { w with pendingData := w.pendingData ++ r.2 }
  match r.1 with
  | none => w
  | some (targets, count) =>
      if targets = [] then w
      else if count ≤ 0 then { w with weak := w.weak ++ [⟨pc, blockStart, targets⟩] }
      else
        targets.foldl (d.edge entryAddr fnEnd blockStart)
          { w with jumpTables := Function.update w.jumpTables pc targets }

/-- The `switch` on the operation of a decoded instruction: the edges, the calls and the function
addresses it shows.  `cur` is the run up to and with it. -/
def Disassembler.transfer (blockStart : Addr) (cur : List Instruction) (i : Instruction)
    (w : Walk) : Walk :=
  let edge := d.edge entryAddr fnEnd blockStart
  match i.inst.op with
  | .jmp =>
      match i.inst.arg 0 with
      | some (.rel r) => edge w (i.relTarget r)
      | _ => d.indirectJump entryAddr fnEnd blockStart cur i.address w
  | .ret | .ud2 => w
  | .call =>
      match i.inst.arg 0 with
      | some (.rel r) => { w with discoveredCalls := w.discoveredCalls ++ [i.relTarget r] }
      | _ => w
  | .lea =>
      match i.inst.arg 1 with
      | some (.mem m) =>
          let target := ripTarget i.nextPC m
          if m.base = some .rip ∧ d.inCode w.pendingData target = true ∧ d.seedable target = true
          then { w with discoveredCalls := w.discoveredCalls ++ [target] }
          else w
      | _ => w
  | op =>
      if isJcc op then
        let w := match i.inst.arg 0 with
          | some (.rel r) => edge w (i.relTarget r)
          | _ => w
        if d.inside entryAddr fnEnd w.pendingData i.nextPC then edge w i.nextPC else w
      else w

/-- `instAtAddr[pc] = wrapped`. -/
def Walk.record (w : Walk) (i : Instruction) : Walk :=
  { w with
    insts := Function.update w.insts i.address (some i)
    addrs := if (w.insts i.address).isSome then w.addrs else w.addrs ++ [i.address] }

/-- `maxBlockBytes`. -/
def maxBlockBytes : ℕ := 8192

/-- `maxFnInsts`: larger for a function backed by unwind metadata. -/
def Disassembler.maxFnInsts : ℕ := if d.inUnwindScope entryAddr then 131072 else 32768

/-- One run: straight-line decoding from `pc`, up to a transfer, a byte that is no code, an
undecodable or privileged instruction, or a cap. -/
def Disassembler.decodeRun (blockStart : Addr) : ℕ → Addr → List Instruction → Walk → Option Walk
  | 0, _, _, _ => none
  | fuel + 1, pc, cur, w =>
      let stop (w : Walk) (cur : List Instruction) : Option Walk :=
        some { w with blockInsts := Function.update w.blockInsts blockStart cur }
      if ¬ (pc.toNat < fnEnd.toNat ∧ d.inCode w.pendingData pc = true) then stop w cur
      else match d.decodeAt pc with
        | none => stop w cur
        | some inst =>
            if isPrivileged inst.op then stop w cur
            else
              let i : Instruction := { address := pc, inst }
              let cur := cur ++ [i]
              let w := d.transfer entryAddr fnEnd blockStart cur i (w.record i)
              if d.endsRun i then stop w cur
              else if maxBlockBytes ≤ (i.nextPC - blockStart).toNat then
                -- an oversized run is split: what follows is a run of its own
                if d.inside entryAddr fnEnd w.pendingData i.nextPC then
                  stop (d.edge entryAddr fnEnd blockStart w i.nextPC) cur
                else stop w cur
              else if d.maxFnInsts entryAddr ≤ w.addrs.length then stop { w with capped := true } cur
              else Disassembler.decodeRun blockStart fuel i.nextPC cur w

/-- The queue, run by run, until it is empty or the function is capped. -/
def Disassembler.drainQueue : ℕ → Walk → Option Walk
  | 0, _ => none
  | fuel + 1, w =>
      match w.queue with
      | [] => some w
      | blockStart :: queue =>
          if d.maxFnInsts entryAddr ≤ w.addrs.length then some { w with capped := true }
          else do
            let w ← d.decodeRun entryAddr fnEnd blockStart fuel blockStart [] { w with queue }
            Disassembler.drainQueue fuel w

/-- `insideDecoded`: a decoded instruction covers the byte before `target` and `target`. -/
def Walk.insideDecoded (w : Walk) (target : Addr) : Bool :=
  (List.range 15).any fun n =>
    let back := n + 1
    decide (back ≤ target.toNat) &&
      match w.insts (target - BitVec.ofNat 64 back) with
      | some i => decide (back < i.inst.len)
      | none => false

/-- A table without a proven count is cut at the first entry that lands inside an instruction. -/
def Disassembler.acceptWeak (w : Walk) (s : WeakSwitch) : Walk :=
  let accepted := s.targets.takeWhile fun t => !((w.insts t).isNone && w.insideDecoded t)
  if accepted = [] then w
  else
    accepted.foldl (d.edge entryAddr fnEnd s.start)
      { w with jumpTables := Function.update w.jumpTables s.pc accepted }

/-- The outer loop: the queue, then the tables that waited, until there are none. -/
def Disassembler.rounds : ℕ → Walk → Option Walk
  | 0, _ => none
  | fuel + 1, w => do
      let w ← d.drainQueue entryAddr fnEnd fuel w
      if w.capped || w.weak.isEmpty then some w
      else Disassembler.rounds fuel (w.weak.foldl (d.acceptWeak entryAddr fnEnd) { w with weak := [] })

end Worklist

/-- The start of the worklist. -/
def Walk.start (entryAddr : Addr) : Walk :=
  { queue := [entryAddr]
    visited := fun a => a == entryAddr
    jumpTargets := fun a => a == entryAddr }

/-- The decoding of a function, up to its blocks. -/
def Disassembler.walk (fuel : ℕ) (entryAddr : Addr) : Option Walk :=
  d.rounds entryAddr (d.functionEnd entryAddr) fuel (Walk.start entryAddr)

/-! ### the blocks -/

/-- `slices.Sort`. -/
def sortAddrs (addrs : List Addr) : List Addr :=
  addrs.insertionSort fun a b => a.toNat ≤ b.toNat

/-- The decoded instructions in address order. -/
def Walk.sortedInsts (w : Walk) : List Instruction := (sortAddrs w.addrs).filterMap w.insts

/-- The seams of overlapping streams: where the next instruction in address order is not the next
one in its stream, it starts a block, and so does the end of the instruction before it. -/
def seamLeaders (w : Walk) : List Instruction → (Addr → Bool) → (Addr → Bool)
  | i :: j :: is, leaders =>
      if j.address = i.nextPC then seamLeaders w (j :: is) leaders
      else
        let leaders := Function.update leaders j.address true
        seamLeaders w (j :: is)
          (if (w.insts i.nextPC).isSome then Function.update leaders i.nextPC true else leaders)
  | _, leaders => leaders

/-- `leaders`: the entry, the decoded targets, and the seams. -/
def leadersOf (w : Walk) (entryAddr : Addr) : Addr → Bool :=
  seamLeaders w w.sortedInsts fun a =>
    a == entryAddr || w.jumpTargets a && (w.insts a).isSome

/-- The end of a finished block is the end of its last instruction. -/
def BasicBlock.close (b : BasicBlock) : BasicBlock :=
  match b.insts.getLast? with
  | some last => { b with endAddr := last.nextPC }
  | none => b

/-- `fn.Blocks[currentBlock.StartAddr] = currentBlock`, for a block that has instructions. -/
def putBlock (blocks : Addr → Option BasicBlock) : Option BasicBlock → Addr → Option BasicBlock
  | some b =>
      if b.insts = [] then blocks
      else Function.update blocks b.startAddr (some (BasicBlock.close b))
  | none => blocks

/-- The loop over the sorted instructions: a leader starts a block, the others join the current
one. -/
def buildBlocks (leaders : Addr → Bool) :
    List Instruction → Option BasicBlock → (Addr → Option BasicBlock) → Addr → Option BasicBlock
  | [], cur, blocks => putBlock blocks cur
  | i :: is, cur, blocks =>
      let fresh : BasicBlock := { startAddr := i.address, endAddr := 0, insts := [i] }
      if leaders i.address then buildBlocks leaders is (some fresh) (putBlock blocks cur)
      else match cur with
        | none => buildBlocks leaders is (some fresh) blocks
        | some b => buildBlocks leaders is (some { b with insts := b.insts ++ [i] }) blocks

/-- The blocks of a walk. -/
def Walk.blocks (w : Walk) (entryAddr : Addr) : Addr → Option BasicBlock :=
  buildBlocks (leadersOf w entryAddr) w.sortedInsts none fun _ => none

theorem isSome_putBlock {blocks : Addr → Option BasicBlock} {cur : Option BasicBlock} {a : Addr}
    (h : (putBlock blocks cur a).isSome) : (blocks a).isSome ∨ ∃ b, cur = some b ∧ a = b.startAddr := by
  unfold putBlock at h
  split at h
  · rename_i b
    split at h
    · exact .inl h
    · by_cases ha : a = b.startAddr
      · exact .inr ⟨b, rfl, ha⟩
      · rw [Function.update_of_ne ha] at h
        exact .inl h
  · exact .inl h

theorem isSome_buildBlocks (leaders : Addr → Bool) {a : Addr} : ∀ (is : List Instruction)
    (cur : Option BasicBlock) (blocks : Addr → Option BasicBlock),
    (buildBlocks leaders is cur blocks a).isSome →
    a ∈ is.map (·.address) ∨ (∃ b, cur = some b ∧ a = b.startAddr) ∨ (blocks a).isSome := by
  intro is
  induction is with
  | nil =>
      intro cur blocks h
      exact .inr (isSome_putBlock h).symm
  | cons i is ih =>
      intro cur blocks h
      simp only [buildBlocks] at h
      rw [List.map_cons, List.mem_cons]
      split at h
      · rcases ih _ _ h with hi | ⟨b, hb, ha⟩ | hput
        · exact .inl (.inr hi)
        · cases hb
          exact .inl (.inl ha)
        · exact .inr (isSome_putBlock hput).symm
      · split at h
        · rcases ih _ _ h with hi | ⟨b, hb, ha⟩ | hblocks
          · exact .inl (.inr hi)
          · cases hb
            exact .inl (.inl ha)
          · exact .inr (.inr hblocks)
        · rename_i c
          rcases ih _ _ h with hi | ⟨b, hb, ha⟩ | hblocks
          · exact .inl (.inr hi)
          · cases hb
            exact .inr (.inl ⟨c, rfl, ha⟩)
          · exact .inr (.inr hblocks)

/-- `fn.BlockOrder`: the starts of the blocks, sorted. -/
def Walk.blockOrder (w : Walk) (entryAddr : Addr) : List Addr :=
  sortAddrs ((w.sortedInsts.map (·.address)).dedup.filter fun a => (w.blocks entryAddr a).isSome)

/-- `usesYmm`. -/
def usesYmm (blocks : List BasicBlock) : Bool :=
  blocks.any fun b => b.insts.any fun i => i.inst.args.any fun
    | .reg (.ymm n) => decide (n.val < 16)
    | _ => false

/-- The function of a walk, before the flag passes. -/
def Walk.function (w : Walk) (entryAddr : Addr) : Function where
  entryAddr
  endAddr := ((w.blockOrder entryAddr).filterMap (w.blocks entryAddr)).foldl
    (fun maxEnd b => if maxEnd.toNat < b.endAddr.toNat then b.endAddr else maxEnd) entryAddr
  blocks := w.blocks entryAddr
  blockOrder := w.blockOrder entryAddr
  jumpTables := w.jumpTables
  usesYmm := usesYmm ((w.blockOrder entryAddr).filterMap (w.blocks entryAddr))
  mem_blockOrder a := by
    rw [Walk.blockOrder, sortAddrs, List.mem_insertionSort, List.mem_filter, List.mem_dedup]
    refine ⟨fun h => h.2, fun h => ⟨?_, h⟩⟩
    rcases isSome_buildBlocks _ _ _ _ h with hi | ⟨b, hb, -⟩ | hnone
    · exact hi
    · cases hb
    · cases hnone
  nodup_blockOrder :=
    (List.perm_insertionSort _ _).nodup_iff.2 ((List.nodup_dedup _).filter _)

/-- `disasmBranchFollowing`: the function and the calls found in it. -/
def Disassembler.disasmBranchFollowing (fuel : ℕ) (entryAddr : Addr) :
    Option (Function × List Addr) := do
  let w ← d.walk fuel entryAddr
  if w.addrs.isEmpty then none
  else
    let fn := w.function entryAddr
    if d.skipFlagLiveness then some (fn, w.discoveredCalls)
    else
      some (withCarryMarks (analyzeBlockFlagLiveness fn) (some (d.inCode w.pendingData)),
        w.discoveredCalls)

end PS4Recomp.Disasm
