import Mathlib
import PS4Recomp.Library.WaitHistory

/-!
# Walking command buffers

`ps4_gnm_ib.h` and the packet loops of `ps4_gnm_metal.mm`: command buffers nest by INDIRECT_BUFFER, and a
WAIT_REG_MEM that is not met stops the walk at its packet.

* `Frame`, `enter` — the buffers being walked, innermost first;
* `waitMetBy`, `handleWaitRegMem` — what meets a wait of a queue right now;
* `CeState`, `ceNext` — the constant engine; `GfxStream`, `gfxNext` — a graphics command buffer;
* `computeExec`, `computeNext` — a span of a compute ring;
* `gfxWalker`, `computeWalker` — both as walkers, with the wait that a stream is at.

A buffer is given by the dword index where it begins, and its words do not change.  What a packet does to
guest memory and to the GPU is not modelled: memory is whatever it is at each look.  The read pointer of a
ring, traces and statistics are left out.
-/

namespace PS4Recomp.Gnm.CommandQueues

open Library.WaitHistory

/-! ### Buffers -/

structure Frame where
  words : Nat
  dw : Nat
  pc : Nat
  deriving DecidableEq

def kMaxDepth : Nat := 4

/-- The words of command buffers, and the guest ranges (address, bytes) that there are; a wait that is not
met suspends its queue unless `PS4_GNM_SUSPEND_WAIT` says not to. -/
structure Commands where
  word : Nat → Nat
  mapped : Nat → Nat → Bool
  suspend : Bool

def Frame.header (c : Commands) (f : Frame) : Nat := c.word (f.words + f.pc)

/-- A word of the payload of the packet that a buffer is at. -/
def Frame.payload (c : Commands) (f : Frame) (k : Nat) : Nat := c.word (f.words + f.pc + 1 + k)

def packetType (header : Nat) : Nat := header >>> 30 % 4

def opcode (header : Nat) : Nat := header >>> 8 % 0x100

def payloadDw (header : Nat) : Nat := header >>> 16 % 0x4000 + 1

def isChained (c : Commands) (f : Frame) : Bool :=
  3 ≤ payloadDw (f.header c) ∧ f.payload c 2 >>> 20 % 2 ≠ 0

def chainReplacesTop (chain topIsRing : Bool) : Bool := chain && !topIsRing

/-- `Enter`: the buffer replaces the innermost one or nests in it. -/
def enter (bottomIsRing : Bool) (frames : List Frame) (ib : Nat × Nat) (chain : Bool) : List Frame :=
  match frames with
  | f :: fs =>
      if chainReplacesTop chain (bottomIsRing && fs.isEmpty) then ⟨ib.1, ib.2, 0⟩ :: fs
      else if kMaxDepth + 1 ≤ (f :: fs).length then f :: fs
      else ⟨ib.1, ib.2, 0⟩ :: f :: fs
  | [] => [⟨ib.1, ib.2, 0⟩]

/-- The buffer that an INDIRECT_BUFFER packet names. -/
def decodeIndirectBuffer (c : Commands) (f : Frame) : Option (Nat × Nat) :=
  let ibAddr := (f.payload c 0 / 4 * 4) + f.payload c 1 % 0x10000 * 2 ^ 32
  let ibSizeDw := f.payload c 2 % 0x100000
  if payloadDw (f.header c) < 3 ∨ ibSizeDw = 0 ∨ c.mapped ibAddr (ibSizeDw * 4) = false then none
  else some (ibAddr / 4, ibSizeDw)

/-- The innermost buffer, behind some of its words. -/
def advance (f : Frame) (fs : List Frame) (step : Nat) : List Frame := { f with pc := f.pc + step } :: fs

def PM4_OP_COND_EXEC : Nat := 0x22
def PM4_OP_INDIRECT_BUFFER_CONST : Nat := 0x33
def PM4_OP_WAIT_REG_MEM : Nat := 0x3C
def PM4_OP_INDIRECT_BUFFER : Nat := 0x3F
def PM4_OP_INCREMENT_CE_COUNTER : Nat := 0x84
def PM4_OP_INCREMENT_DE_COUNTER : Nat := 0x85
def PM4_OP_WAIT_ON_CE_COUNTER : Nat := 0x86
def PM4_OP_WAIT_ON_DE_COUNTER_DIFF : Nat := 0x88

/-! ### Waits -/

/-- The queues: graphics and compute. -/
inductive Queue
  | gfx
  | compute
  deriving DecidableEq

def Queue.other : Queue → Queue
  | .gfx => .compute
  | .compute => .gfx

/-- What a look at guest memory finds: words and bytes by address, the labels pending from the work of a
queue, and the addresses of flip labels. -/
structure World where
  memory : Nat → Option Nat := fun _ => some 0
  byte : Nat → Option Nat := fun _ => some 0
  pendingLabel : Queue → Nat → Option Nat := fun _ _ => none
  flipLabel : Nat → Bool := fun _ => false

def waitSatisfied (function v ref : Nat) : Bool :=
  match function with
  | 1 => v < ref
  | 2 => v ≤ ref
  | 3 => v = ref
  | 4 => v ≠ ref
  | 5 => ref ≤ v
  | 6 => ref < v
  | _ => true

inductive WaitMet
  | memory
  | pendingOwn
  | pendingOther
  | unmet
  deriving DecidableEq

/-- The guest address that a WAIT_REG_MEM polls; 0 for a register. -/
def waitPollAddress (c : Commands) (f : Frame) : Nat :=
  if f.payload c 0 >>> 4 % 2 = 0 then 0
  else f.payload c 1 / 4 * 4 + f.payload c 2 % 0x10000 * 2 ^ 32

/-- The words of a WAIT_REG_MEM against a value that may meet it. -/
def waitValueMeets (c : Commands) (f : Frame) (value : Option Nat) : Bool :=
  match value with
  | some v => waitSatisfied (f.payload c 0 % 8) (v &&& f.payload c 4) (f.payload c 3)
  | none => false

def waitMetBy (c : Commands) (w : World) (own : Queue) (f : Frame) : WaitMet :=
  if payloadDw (f.header c) < 5 ∨ f.payload c 0 >>> 4 % 2 = 0 then .memory
  else
    match w.memory (waitPollAddress c f) with
    | none => .memory
    | some v =>
        if waitValueMeets c f (some v) then .memory
        else if waitValueMeets c f (w.pendingLabel own (waitPollAddress c f)) then .pendingOwn
        else if waitValueMeets c f (w.pendingLabel own.other (waitPollAddress c f)) then .pendingOther
        else .unmet

def waitRegMemReady (c : Commands) (w : World) (own : Queue) (f : Frame) : Bool :=
  waitMetBy c w own f ≠ .unmet

/-- Whether the stream may continue at a WAIT_REG_MEM. -/
def handleWaitRegMem (c : Commands) (w : World) (own : Queue) (f : Frame) : Bool :=
  waitRegMemReady c w own f || !c.suspend

/-- A stream is at a whole WAIT_REG_MEM packet. -/
def Frame.atWait (c : Commands) (f : Frame) : Bool :=
  f.pc < f.dw ∧ packetType (f.header c) = 3 ∧ opcode (f.header c) = PM4_OP_WAIT_REG_MEM ∧
    f.pc + 1 + payloadDw (f.header c) ≤ f.dw

/-! ### Packets of the history -/

/-- A packet by the place of its header: of the draw engine, of the constant engine, or a flip. -/
inductive Packet
  | de (pos : Nat)
  | ce (pos : Nat)
  | present (id : Nat)
  deriving DecidableEq

/-- A packet of the draw engine or of a compute ring that is a WAIT_REG_MEM. -/
def Packet.isWait (c : Commands) : Packet → Bool
  | .de pos => packetType (c.word pos) = 3 ∧ opcode (c.word pos) = PM4_OP_WAIT_REG_MEM
  | _ => false

/-- What meets the wait at a place. -/
def Packet.metBy (c : Commands) (w : World) (own : Queue) : Packet → WaitMet
  | .de pos => waitMetBy c w own ⟨pos, 0, 0⟩
  | _ => .memory

def Frame.packet (f : Frame) : Packet := .de (f.words + f.pc)

/-! ### The constant engine -/

structure CeState where
  stack : List Frame := []
  ceCount : Nat := 0
  deCount : Nat := 0
  deriving DecidableEq

/-- What `RunCe` does next: it returns, drops words, or consumes a packet. -/
inductive CeTurn
  | returned
  | quiet (ce : CeState)
  | ran (p : Packet) (ce : CeState)
  deriving DecidableEq

def ceNext (c : Commands) (ce : CeState) (force : Bool) : CeTurn :=
  match ce.stack with
  | [] => .returned
  | f :: fs =>
      let header := f.header c
      let consumed := advance f fs (1 + payloadDw header)
      let p : Packet := .ce (f.words + f.pc)
      if f.dw ≤ f.pc then .quiet { ce with stack := fs }
      else if packetType header ≠ 3 then .quiet { ce with stack := advance f fs 1 }
      else if f.dw < f.pc + 1 + payloadDw header then .quiet { ce with stack := fs }
      else if opcode header = PM4_OP_INCREMENT_CE_COUNTER then
        .ran p { ce with stack := consumed, ceCount := (ce.ceCount + 1) % 2 ^ 32 }
      else if opcode header = PM4_OP_WAIT_ON_DE_COUNTER_DIFF then
        if force = false ∧ f.payload c 0 ≤ (ce.deCount + 2 ^ 32 - ce.ceCount) % 2 ^ 32 then .returned
        else .ran p { ce with stack := consumed }
      else if opcode header = PM4_OP_INDIRECT_BUFFER_CONST ∨ opcode header = PM4_OP_INDIRECT_BUFFER then
        match decodeIndirectBuffer c f with
        | some ib => .ran p { ce with stack := enter false consumed ib (isChained c f) }
        | none => .ran p { ce with stack := consumed }
      else .ran p { ce with stack := consumed }

/-! ### Graphics command buffers -/

/-- The call of `RunCe` that is running: before the draw engine starts, for a WAIT_ON_CE_COUNTER packet (with
whether the call has consumed a packet), or after the draw engine has ended. -/
inductive CeRun
  | start
  | counter (progress : Bool)
  | finish
  deriving DecidableEq

structure GfxStream where
  frames : List Frame := []
  ce : CeState := {}
  ceRun : Option CeRun := none
  deriving DecidableEq

def GfxStream.ranCe (st : GfxStream) (ce : CeState) : GfxStream :=
  { st with
    ce
    ceRun := match st.ceRun with
      | some (.counter _) => some (.counter true)
      | r => r }

/-- The draw engine waits for the constant engine, which has not ended. -/
def CeState.behind (ce : CeState) : Bool := ce.ceCount ≤ ce.deCount ∧ ce.stack ≠ []

/-- A type-3 packet of the draw engine, all of it in its buffer. -/
def gfxPacket (c : Commands) (w : World) (st : GfxStream) (f : Frame) (fs : List Frame) :
    Turn GfxStream Packet :=
  let header := f.header c
  let consumed := { st with frames := advance f fs (1 + payloadDw header) }
  if opcode header = PM4_OP_WAIT_REG_MEM then
    if handleWaitRegMem c w .gfx f then .ran f.packet consumed else .blocked
  else if opcode header = PM4_OP_INDIRECT_BUFFER then
    if isChained c f = false ∧ kMaxDepth ≤ fs.length then .ran f.packet consumed
    else
      match decodeIndirectBuffer c f with
      | some ib => .ran f.packet { consumed with frames := enter false consumed.frames ib (isChained c f) }
      | none => .ran f.packet consumed
  else if opcode header = PM4_OP_INCREMENT_DE_COUNTER then
    .ran f.packet { consumed with ce := { st.ce with deCount := (st.ce.deCount + 1) % 2 ^ 32 } }
  else if opcode header = PM4_OP_WAIT_ON_CE_COUNTER then
    .ran f.packet { consumed with ceRun := if st.ce.behind then some (.counter false) else none }
  else if opcode header = PM4_OP_COND_EXEC ∧ 3 ≤ payloadDw header ∧
      (w.byte (f.payload c 0 / 4 * 4 + f.payload c 1 % 0x10000 * 2 ^ 32)).getD 0 = 0 then
    .ran f.packet { st with frames := advance f fs (1 + payloadDw header + f.payload c 2 % 0x4000) }
  else .ran f.packet consumed

/-- `ProcessGfxPackets` at the innermost buffer. -/
def gfxFrame (c : Commands) (w : World) (st : GfxStream) (f : Frame) (fs : List Frame) :
    Turn GfxStream Packet :=
  let header := f.header c
  if f.dw ≤ f.pc then .quiet { st with frames := fs }
  else if 0xabcdef10 ≤ header ∧ header ≤ 0xabcdef13 then
    let step := if 0xabcdef12 ≤ header then 0x14 else 0x0f
    .ran f.packet { st with frames := advance f fs (if f.pc + step ≤ f.dw then step else f.dw - f.pc) }
  else if packetType header = 3 then
    if f.dw < f.pc + 1 + payloadDw header then .quiet { st with frames := fs }
    else gfxPacket c w st f fs
  else if packetType header = 0 ∧ header ≠ 0 then
    .ran f.packet { st with frames := advance f fs (1 + header >>> 16 % 0x4000 + 1) }
  else .ran f.packet { st with frames := advance f fs 1 }

/-- What a graphics command buffer does next. -/
def gfxNext (c : Commands) (w : World) (st : GfxStream) : Turn GfxStream Packet :=
  match st.ceRun with
  | some run =>
      match ceNext c st.ce (run = .finish) with
      | .quiet ce => .quiet { st with ce }
      | .ran p ce => .ran p (st.ranCe ce)
      | .returned =>
          match run with
          | .start => .quiet { st with ceRun := none }
          | .counter progress =>
              if progress && st.ce.behind then .quiet { st with ceRun := some (.counter false) }
              else .quiet { st with ceRun := none }
          | .finish => .done
  | none =>
      match st.frames with
      | f :: fs => gfxFrame c w st f fs
      | [] => if st.ce.stack = [] then .done else .quiet { st with ceRun := some .finish }

/-- The innermost buffer of a stream. -/
def GfxStream.front (st : GfxStream) : Frame := st.frames.headD ⟨0, 0, 0⟩

/-- The stream behind the packet that it is at, as a time-out leaves it. -/
def GfxStream.skipWait (c : Commands) (st : GfxStream) : GfxStream :=
  match st.frames with
  | f :: fs => { st with frames := advance f fs (f.header c >>> 16 % 0x4000 + 2) }
  | [] => st

def gfxWait (c : Commands) (st : GfxStream) : Option (Packet × GfxStream) :=
  match st.ceRun, st.frames with
  | none, f :: _ => if f.atWait c then some (f.packet, st.skipWait c) else none
  | _, _ => none

/-! ### Compute rings -/

structure ComputeSubmit where
  frames : List Frame
  deriving DecidableEq

def ComputeSubmit.front (sub : ComputeSubmit) : Frame := sub.frames.headD ⟨0, 0, 0⟩

/-- What the executor of a walk reports for a packet. -/
structure PacketReport where
  step : Nat := 0
  suspend : Bool := false
  ib : Option (Nat × Nat) := none
  chain : Bool := false

def computeExec (c : Commands) (w : World) (skipWait : Bool) (f : Frame) (depth : Nat) : PacketReport :=
  let header := f.header c
  if packetType header = 0 then { step := if header ≠ 0 then header >>> 16 % 0x4000 + 2 else 1 }
  else if packetType header ≠ 3 then { step := 1 }
  else if f.dw < f.pc + 1 + payloadDw header then {}
  else if opcode header = PM4_OP_WAIT_REG_MEM then
    { step := 1 + payloadDw header, suspend := !skipWait && !handleWaitRegMem c w .compute f }
  else if opcode header = PM4_OP_INDIRECT_BUFFER then
    let chain := isChained c f
    { step := 1 + payloadDw header
      chain
      ib := if chainReplacesTop chain (depth = 0) = false ∧ kMaxDepth ≤ depth then none
        else decodeIndirectBuffer c f }
  else { step := 1 + payloadDw header }

/-- `Walk`, one turn of its loop. -/
def computeNext (c : Commands) (skipWait : Bool) (w : World) (sub : ComputeSubmit) :
    Turn ComputeSubmit Packet :=
  match sub.frames with
  | [] => .done
  | f :: fs =>
      if f.dw ≤ f.pc then .quiet ⟨fs⟩
      else
        let pk := computeExec c w skipWait f fs.length
        if pk.suspend then .blocked
        else if pk.step = 0 then .quiet ⟨fs⟩
        else
          match pk.ib with
          | some ib => .ran f.packet ⟨enter true (advance f fs pk.step) ib pk.chain⟩
          | none => .ran f.packet ⟨advance f fs pk.step⟩

def computeWait (c : Commands) (sub : ComputeSubmit) : Option (Packet × ComputeSubmit) :=
  match sub.frames with
  | f :: fs => if f.atWait c then some (f.packet, ⟨advance f fs (1 + payloadDw (f.header c))⟩) else none
  | [] => none

/-! ### The walks as walkers -/

theorem Frame.atWait_iff {c : Commands} {f : Frame} : f.atWait c = true ↔
    f.pc < f.dw ∧ packetType (f.header c) = 3 ∧ opcode (f.header c) = PM4_OP_WAIT_REG_MEM ∧
      f.pc + 1 + payloadDw (f.header c) ≤ f.dw := by
  rw [Frame.atWait, decide_eq_true_iff]

theorem not_marker_of_type_three {header : Nat} (h : packetType header = 3) :
    ¬(0xabcdef10 ≤ header ∧ header ≤ 0xabcdef13) := by
  rw [packetType, Nat.shiftRight_eq_div_pow] at h
  omega

theorem advance_skip (c : Commands) (f : Frame) (fs : List Frame) :
    advance f fs (f.header c >>> 16 % 0x4000 + 2) = advance f fs (1 + payloadDw (f.header c)) := by
  rw [payloadDw]
  congr 1
  omega

theorem gfxFrame_atWait {c : Commands} {f : Frame} (w : World) (st : GfxStream) (fs : List Frame)
    (h : f.atWait c = true) :
    gfxFrame c w st f fs = if handleWaitRegMem c w .gfx f then
      .ran f.packet { st with frames := advance f fs (1 + payloadDw (f.header c)) } else .blocked := by
  obtain ⟨hpc, htype, hop, hfit⟩ := Frame.atWait_iff.1 h
  unfold gfxFrame
  rw [if_neg (by omega), if_neg (not_marker_of_type_three htype), if_pos htype, if_neg (by omega)]
  unfold gfxPacket
  rw [if_pos hop]

theorem atWait_of_gfxFrame {c : Commands} {w : World} {st : GfxStream} {f : Frame} {fs : List Frame}
    (h : gfxFrame c w st f fs = .blocked) : f.atWait c = true := by
  unfold gfxFrame at h
  dsimp only at h
  split at h
  · cases h
  · rename_i hpc
    split at h
    · cases h
    · split at h
      · rename_i htype
        split at h
        · cases h
        · rename_i hfit
          unfold gfxPacket at h
          dsimp only at h
          split at h
          · rename_i hop
            exact Frame.atWait_iff.2 ⟨by omega, htype, hop, by omega⟩
          · split at h
            · split at h
              · cases h
              · split at h <;> cases h
            · split at h
              · cases h
              · split at h
                · cases h
                · split at h <;> cases h
      · split at h <;> cases h

theorem gfxWait_of_blocked {c : Commands} {w : World} {st : GfxStream} (h : gfxNext c w st = .blocked) :
    ∃ p st', gfxWait c st = some (p, st') := by
  unfold gfxNext at h
  split at h
  · split at h
    · cases h
    · cases h
    · split at h
      · cases h
      · split at h <;> cases h
      · cases h
  · rename_i hrun
    split at h
    · rename_i f fs hframes
      refine ⟨f.packet, st.skipWait c, ?_⟩
      rw [gfxWait, hrun, hframes]
      exact if_pos (atWait_of_gfxFrame h)
    · split at h <;> cases h

theorem gfxWait_eq_some {c : Commands} {st st' : GfxStream} {p : Packet} (h : gfxWait c st = some (p, st')) :
    st.ceRun = none ∧ st' = st.skipWait c ∧
      ∃ f fs, st.frames = f :: fs ∧ f.atWait c = true ∧ p = f.packet := by
  unfold gfxWait at h
  split at h
  · rename_i f fs hrun hframes
    split at h
    · rename_i hwait
      cases h
      exact ⟨hrun, rfl, f, fs, hframes, hwait, rfl⟩
    · cases h
  · cases h

theorem gfxNext_of_wait {c : Commands} (w : World) {st st' : GfxStream} {p : Packet}
    (h : gfxWait c st = some (p, st')) : gfxNext c w st = .blocked ∨ gfxNext c w st = .ran p st' := by
  obtain ⟨hrun, rfl, f, fs, hframes, hwait, rfl⟩ := gfxWait_eq_some h
  have hnext : gfxNext c w st = gfxFrame c w st f fs := by
    rw [gfxNext, hrun, hframes]
  have hskip : st.skipWait c = { st with frames := advance f fs (1 + payloadDw (f.header c)) } := by
    rw [GfxStream.skipWait, hframes, ← advance_skip]
  rw [hnext, gfxFrame_atWait w st fs hwait, hskip]
  split
  · exact .inr rfl
  · exact .inl rfl

theorem not_ready_of_blocked {c : Commands} {w : World} {st : GfxStream} (h : gfxNext c w st = .blocked) :
    waitRegMemReady c w .gfx st.front = false := by
  obtain ⟨p, st', hwait⟩ := gfxWait_of_blocked h
  obtain ⟨hrun, -, f, fs, hframes, hat, -⟩ := gfxWait_eq_some hwait
  have hnext : gfxNext c w st = gfxFrame c w st f fs := by
    rw [gfxNext, hrun, hframes]
  rw [hnext, gfxFrame_atWait w st fs hat] at h
  split at h
  · cases h
  · rename_i hunmet
    rw [GfxStream.front, hframes, List.headD_cons]
    rw [handleWaitRegMem, Bool.or_eq_true, not_or, Bool.not_eq_true] at hunmet
    exact hunmet.1

/-- What is in the graphics queue: a command buffer as far as it has run, or a flip. -/
inductive GfxJob
  | buffers (st : GfxStream)
  | present (id : Nat)
  deriving DecidableEq

def GfxJob.next (c : Commands) (w : World) : GfxJob → Turn GfxJob Packet
  | .buffers st => (gfxNext c w st).map .buffers
  | .present id => .ran (.present id) (.buffers {})

def GfxJob.wait (c : Commands) : GfxJob → Option (Packet × GfxJob)
  | .buffers st => (gfxWait c st).map fun r => (r.1, .buffers r.2)
  | .present _ => none

/-- Graphics jobs as they run. -/
def gfxWalker (c : Commands) : Walker World GfxJob Packet where
  next := GfxJob.next c
  wait := GfxJob.wait c
  wait_of_blocked {w j} h := by
    cases j with
    | buffers st =>
        rw [GfxJob.next] at h
        cases hnext : gfxNext c w st with
        | blocked =>
            obtain ⟨p, st', hwait⟩ := gfxWait_of_blocked hnext
            exact ⟨p, .buffers st', by rw [GfxJob.wait, hwait]; rfl⟩
        | done => rw [hnext] at h; cases h
        | quiet _ => rw [hnext] at h; cases h
        | ran _ _ => rw [hnext] at h; cases h
    | present id => cases h
  next_of_wait {w j p j'} h := by
    cases j with
    | buffers st =>
        obtain ⟨⟨p, st'⟩, hwait, heq⟩ := Option.map_eq_some_iff.1 h
        cases heq
        rw [GfxJob.next]
        rcases gfxNext_of_wait w hwait with hnext | hnext
        · exact .inl (by rw [hnext]; rfl)
        · exact .inr (by rw [hnext]; rfl)
    | present id => cases h

/-- At a wait the compute walk stops, or goes behind it if the wait is met or skipped. -/
theorem computeNext_atWait {c : Commands} {f : Frame} (w : World) (skipWait : Bool) (fs : List Frame)
    (h : f.atWait c = true) :
    computeNext c skipWait w ⟨f :: fs⟩ = if skipWait || handleWaitRegMem c w .compute f then
      .ran f.packet ⟨advance f fs (1 + payloadDw (f.header c))⟩ else .blocked := by
  obtain ⟨hpc, htype, hop, hfit⟩ := Frame.atWait_iff.1 h
  have hexec : computeExec c w skipWait f fs.length =
      { step := 1 + payloadDw (f.header c), suspend := !skipWait && !handleWaitRegMem c w .compute f } := by
    unfold computeExec
    dsimp only
    rw [if_neg (by omega), if_neg (by omega), if_neg (by omega), if_pos hop]
  unfold computeNext
  dsimp only
  rw [if_neg (by omega), hexec]
  cases skipWait <;> cases handleWaitRegMem c w .compute f <;> simp

theorem computeWait_of_blocked {c : Commands} {w : World} {sub : ComputeSubmit}
    (h : computeNext c false w sub = .blocked) : ∃ p sub', computeWait c sub = some (p, sub') := by
  unfold computeNext at h
  split at h
  · cases h
  · rename_i f fs hframes
    split at h
    · cases h
    · rename_i hpc
      dsimp only at h
      split at h
      · rename_i hsuspend
        have hwait : f.atWait c = true := by
          unfold computeExec at hsuspend
          dsimp only at hsuspend
          split at hsuspend
          · cases hsuspend
          · split at hsuspend
            · cases hsuspend
            · split at hsuspend
              · cases hsuspend
              · split at hsuspend
                · exact Frame.atWait_iff.2 ⟨by omega, by omega, by assumption, by omega⟩
                · split at hsuspend <;> cases hsuspend
        refine ⟨f.packet, ⟨advance f fs (1 + payloadDw (f.header c))⟩, ?_⟩
        rw [computeWait, hframes]
        exact if_pos hwait
      · split at h
        · cases h
        · split at h <;> cases h

theorem computeWait_eq_some {c : Commands} {sub sub' : ComputeSubmit} {p : Packet}
    (h : computeWait c sub = some (p, sub')) :
    ∃ f fs, sub = ⟨f :: fs⟩ ∧ f.atWait c = true ∧ p = f.packet ∧
      sub' = ⟨advance f fs (1 + payloadDw (f.header c))⟩ := by
  obtain ⟨frames⟩ := sub
  cases frames with
  | nil => cases h
  | cons f fs =>
      rw [computeWait] at h
      dsimp only at h
      split at h
      · rename_i hwait
        cases h
        exact ⟨f, fs, rfl, hwait, rfl, rfl⟩
      · cases h

/-- A compute walk stops only where nothing meets its wait. -/
theorem not_ready_of_computeBlocked {c : Commands} {w : World} {sub : ComputeSubmit}
    (h : computeNext c false w sub = .blocked) : waitRegMemReady c w .compute sub.front = false := by
  obtain ⟨p, sub', hwait⟩ := computeWait_of_blocked h
  obtain ⟨f, fs, rfl, hat, -, -⟩ := computeWait_eq_some hwait
  rw [computeNext_atWait w false fs hat, Bool.false_or] at h
  split at h
  · cases h
  · rename_i hunmet
    rw [handleWaitRegMem, Bool.or_eq_true, not_or, Bool.not_eq_true] at hunmet
    exact hunmet.1

/-- A wait that is skipped is the packet that the span is at. -/
theorem computeNext_skip {c : Commands} (w : World) {sub sub' : ComputeSubmit} {p : Packet}
    (h : computeWait c sub = some (p, sub')) : computeNext c true w sub = .ran p sub' := by
  obtain ⟨f, fs, rfl, hwait, rfl, rfl⟩ := computeWait_eq_some h
  rw [computeNext_atWait w true fs hwait, Bool.true_or, if_pos rfl]

/-- Spans of a compute ring as they run. -/
def computeWalker (c : Commands) : Walker World ComputeSubmit Packet where
  next := computeNext c false
  wait := computeWait c
  wait_of_blocked h := computeWait_of_blocked h
  next_of_wait {w j p j'} h := by
    obtain ⟨f, fs, rfl, hwait, rfl, rfl⟩ := computeWait_eq_some h
    rw [computeNext_atWait w false fs hwait]
    split
    · exact .inr rfl
    · exact .inl rfl

/-! ### A wait that was run was met -/

theorem waitMetBy_packet (c : Commands) (w : World) (own : Queue) (f : Frame) :
    f.packet.metBy c w own = waitMetBy c w own f := by
  rw [Frame.packet, Packet.metBy]
  simp only [waitMetBy, waitPollAddress, waitValueMeets, Frame.header, Frame.payload, Nat.add_zero]
  rfl

theorem met_of_handle {c : Commands} {w : World} {own : Queue} {f : Frame} (hsuspend : c.suspend = true)
    (h : handleWaitRegMem c w own f = true) : f.packet.metBy c w own ≠ .unmet := by
  rw [handleWaitRegMem, hsuspend, Bool.not_true, Bool.or_false, waitRegMemReady, decide_eq_true_iff] at h
  rwa [waitMetBy_packet]

theorem isWait_packet {c : Commands} {f : Frame} (h : f.packet.isWait c = true) :
    packetType (f.header c) = 3 ∧ opcode (f.header c) = PM4_OP_WAIT_REG_MEM := by
  rw [Frame.packet, Packet.isWait, decide_eq_true_iff] at h
  exact h

theorem isWait_of_atWait {c : Commands} {f : Frame} (h : f.atWait c = true) : f.packet.isWait c = true := by
  obtain ⟨-, htype, hop, -⟩ := Frame.atWait_iff.1 h
  rw [Frame.packet, Packet.isWait, decide_eq_true_iff]
  exact ⟨htype, hop⟩

theorem gfxPacket_ran {c : Commands} {w : World} {st st' : GfxStream} {f : Frame} {fs : List Frame}
    {p : Packet} (h : gfxPacket c w st f fs = .ran p st') : p = f.packet := by
  unfold gfxPacket at h
  dsimp only at h
  repeat' split at h
  all_goals cases h
  all_goals rfl

theorem gfxFrame_ran {c : Commands} {w : World} {st st' : GfxStream} {f : Frame} {fs : List Frame}
    {p : Packet} (h : gfxFrame c w st f fs = .ran p st') :
    p = f.packet ∧ f.pc < f.dw ∧ (packetType (f.header c) = 3 → f.pc + 1 + payloadDw (f.header c) ≤ f.dw) := by
  unfold gfxFrame at h
  dsimp only at h
  split at h
  · cases h
  · rename_i hpc
    split at h
    · rename_i hmarker
      cases h
      exact ⟨rfl, by omega, fun htype => absurd hmarker (not_marker_of_type_three htype)⟩
    · split at h
      · split at h
        · cases h
        · rename_i hfit
          exact ⟨gfxPacket_ran h, by omega, fun _ => by omega⟩
      · rename_i htype
        split at h
        all_goals
          cases h
          exact ⟨rfl, by omega, fun h3 => absurd h3 htype⟩

theorem ceNext_ran {c : Commands} {ce ce' : CeState} {force : Bool} {p : Packet}
    (h : ceNext c ce force = .ran p ce') : p.isWait c = false := by
  unfold ceNext at h
  dsimp only at h
  repeat' split at h
  all_goals cases h
  all_goals rfl

/-- **A wait of the draw engine that was run was met.** -/
theorem gfxWalker_ran_met {c : Commands} (hsuspend : c.suspend = true) (w : World) (j : GfxJob) (p : Packet)
    (j' : GfxJob) (h : (gfxWalker c).next w j = .ran p j') :
    p.isWait c = true → p.metBy c w .gfx ≠ .unmet := by
  intro hp
  cases j with
  | present id =>
      cases h
      cases hp
  | buffers st =>
      have hran : ∃ st', gfxNext c w st = .ran p st' := by
        rw [show (gfxWalker c).next w (.buffers st) = (gfxNext c w st).map .buffers from rfl] at h
        cases hnext : gfxNext c w st with
        | ran p₁ st' =>
            rw [hnext] at h
            cases h
            exact ⟨st', rfl⟩
        | done => rw [hnext] at h; cases h
        | quiet _ => rw [hnext] at h; cases h
        | blocked => rw [hnext] at h; cases h
      obtain ⟨st', hran⟩ := hran
      unfold gfxNext at hran
      split at hran
      · split at hran
        · cases hran
        · rename_i hce
          cases hran
          rw [ceNext_ran hce] at hp
          cases hp
        · split at hran
          · cases hran
          · split at hran <;> cases hran
          · cases hran
      · split at hran
        · rename_i f fs hframes
          obtain ⟨rfl, hpc, hfit⟩ := gfxFrame_ran hran
          obtain ⟨htype, hop⟩ := isWait_packet hp
          have hwait : f.atWait c = true := Frame.atWait_iff.2 ⟨hpc, htype, hop, hfit htype⟩
          rw [gfxFrame_atWait w st fs hwait] at hran
          split at hran
          · rename_i hmet
            exact met_of_handle hsuspend hmet
          · cases hran
        · split at hran <;> cases hran

/-- **A wait of a compute ring that was run was met.** -/
theorem computeWalker_ran_met {c : Commands} (hsuspend : c.suspend = true) (w : World) (sub : ComputeSubmit)
    (p : Packet) (sub' : ComputeSubmit) (h : (computeWalker c).next w sub = .ran p sub') :
    p.isWait c = true → p.metBy c w .compute ≠ .unmet := by
  intro hp
  obtain ⟨frames⟩ := sub
  cases frames with
  | nil => cases h
  | cons f fs =>
      have hrun : computeNext c false w ⟨f :: fs⟩ = .ran p sub' := h
      have hran := hrun
      unfold computeNext at hran
      dsimp only at hran
      split at hran
      · cases hran
      · rename_i hpc
        split at hran
        · cases hran
        · split at hran
          · cases hran
          · rename_i hstep
            have hpacket : p = f.packet := by
              split at hran
              all_goals
                cases hran
                rfl
            subst hpacket
            obtain ⟨htype, hop⟩ := isWait_packet hp
            have hfit : f.pc + 1 + payloadDw (f.header c) ≤ f.dw := by
              by_contra hcut
              refine hstep ?_
              unfold computeExec
              dsimp only
              rw [if_neg (by omega), if_neg (by omega), if_pos (by omega)]
            have hwait : f.atWait c = true := Frame.atWait_iff.2 ⟨by omega, htype, hop, hfit⟩
            rw [computeNext_atWait w false fs hwait, Bool.false_or] at hrun
            split at hrun
            · rename_i hmet
              exact met_of_handle hsuspend hmet
            · cases hrun

end PS4Recomp.Gnm.CommandQueues
