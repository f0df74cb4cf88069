import Mathlib
import PS4Recomp.Gnm.CommandWalk
import PS4Recomp.Library.Transition

/-!
# Command queues

The graphics queue and the compute queues of `ps4_gnm_metal.mm`, with `ps4_gnm_wait_queue.h`.  One thread
at a time holds the command processor's lock; it runs a queue packet by packet, and memory, pending labels
and the clock change at any time.

* `GfxQueue`, `WaitQueue` — the queues, each with its submissions and its history, which no code keeps;
* `Cp` — what the holder of the lock does;
* `Action`, `State.exec`, `queueSystem` — submissions, flips, resumptions, and the holder's next turn;
* `QueueKept` — a queue ran its submissions in order, passed met waits only, and timed none out too early;
* `GfxStopOk`, `ComputeStopOk`, `StopsOk` — the condition on a stop.

Times are nanoseconds in 64 bits.  A look at a wait and the reading of the clock after it are one step, and
so are a look and the question whether the address is a flip label.  The resumptions of `PumpQueues` come
in any order.
-/

namespace PS4Recomp.Gnm.CommandQueues

open Library.Transition Library.WaitHistory

/-! ### The queues -/

inductive GfxSubmit
  | buffers (dcb ccb : Option (Nat × Nat))
  | present (id : Nat)
  deriving DecidableEq

/-- A buffer that is given and is not empty. -/
def bufferFrames : Option (Nat × Nat) → List Frame
  | some (words, dw) => if dw = 0 then [] else [⟨words, dw, 0⟩]
  | none => []

/-- The constant engine runs first, as far as it can go. -/
def GfxSubmit.stream (dcb ccb : Option (Nat × Nat)) : GfxStream where
  frames := bufferFrames dcb
  ce := { stack := bufferFrames ccb }
  ceRun := if bufferFrames ccb = [] then none else some .start

def GfxSubmit.job : GfxSubmit → GfxJob
  | .buffers dcb ccb => .buffers (stream dcb ccb)
  | .present id => .present id

structure GfxQueue where
  pending : List GfxSubmit := []
  active : Bool := false
  cur : GfxStream := {}
  suspendedAt : Nat := 0
  flipWait : Bool := false
  submitted : List GfxSubmit := []
  history : List (Event World Packet) := []

/-- What is left of the submissions. -/
def GfxQueue.remaining (q : GfxQueue) : List GfxJob :=
  (if q.active then [.buffers q.cur] else []) ++ q.pending.map GfxSubmit.job

structure WaitQueue where
  pending : List ComputeSubmit := []
  suspendedAt : Nat := 0
  submitted : List ComputeSubmit := []
  history : List (Event World Packet) := []

/-- The difference of two times. -/
def sub64 (a b : Nat) : Nat := (a + 2 ^ 64 - b) % 2 ^ 64

def WaitQueue.suspended (q : WaitQueue) : Bool := q.suspendedAt ≠ 0 ∧ q.pending ≠ []

def WaitQueue.timedOut (q : WaitQueue) (now limit : Nat) : Bool :=
  q.suspended ∧ limit < sub64 now q.suspendedAt

def kGfxWaitLimit : Nat := 50 * 1000000

def kFlipWaitLimit : Nat := 2000 * 1000000

def kComputeWaitLimit : Nat := 50 * 1000000

def kMaxComputeQueues : Nat := 64

/-! ### The command processor -/

/-- Where the holder of the lock is: between calls; behind the look of `ResumeGfxQueue`; at the top of the
loop of `RunGfxQueue` or among the packets; at a queue of `ResumeComputeQueues`; before, in and inside the
loop of a compute queue's run, with the place to return to. -/
inductive Cp
  | idle
  | gfxReady (ready : Bool)
  | gfxLoop (force : Bool)
  | gfxWalk (force : Bool)
  | pump (now slot : Nat)
  | cqStart (slot : Nat) (force : Bool) (ret : Option Nat)
  | cqLoop (slot now : Nat) (force : Bool) (ret : Option Nat)
  | cqWalk (slot now : Nat) (skip : Bool) (ret : Option Nat)
  deriving DecidableEq

structure State where
  world : World
  clock : Nat
  cp : Cp := .idle
  gfx : GfxQueue := {}
  cq : Nat → WaitQueue := fun _ => {}

inductive Action
  | world (w : World) (elapsed : Nat)
  | submitGfx (subs : List GfxSubmit)
  | present (id : Nat)
  | submitCompute (queueSlot words dw : Nat)
  | resetCompute (queueSlot : Nat)
  | resumeGfx
  | resumeCompute
  | turn

/-- How long the wait that the queue is suspended at may last. -/
def GfxQueue.limit (q : GfxQueue) : Nat := if q.flipWait then kFlipWaitLimit else kGfxWaitLimit

/-- `ResumeGfxQueue` behind its look: the wait is met, timed out, or neither. -/
def GfxQueue.resume (q : GfxQueue) (clock : Nat) (ready : Bool) : GfxQueue × Cp :=
  if ready = false ∧ sub64 clock q.suspendedAt ≤ q.limit then (q, .idle)
  else if ready then ({ q with suspendedAt := 0 }, .gfxLoop false)
  else (q, .gfxLoop true)

/-- `RunGfxQueue`, the top of its loop. -/
def GfxQueue.loop (q : GfxQueue) (c : Commands) (w : World) (clock : Nat) (force : Bool) : GfxQueue × Cp :=
  if q.active = false then
    match q.pending with
    | [] => (q, .idle)
    | .present id :: rest =>
        ({ q with pending := rest, history := .ran w (.present id) :: q.history }, .gfxLoop force)
    | .buffers dcb ccb :: rest =>
        ({ q with pending := rest, cur := GfxSubmit.stream dcb ccb, active := true }, .gfxLoop force)
  else if force = true ∧ q.suspendedAt ≠ 0 then
    -- the next wait the stream reaches is a new suspension
    ({ q with
        cur := q.cur.skipWait c
        suspendedAt := 0
        flipWait := false
        history := .skipped clock q.cur.front.packet :: q.history }, .gfxWalk false)
  else (q, .gfxWalk force)

/-- `ProcessGfxPackets`, one turn of its loop, and what `RunGfxQueue` does when it returns. -/
def GfxQueue.walk (q : GfxQueue) (c : Commands) (w : World) (clock : Nat) (force : Bool) : GfxQueue × Cp :=
  match gfxNext c w q.cur with
  | .done => ({ q with suspendedAt := 0, flipWait := false, active := false }, .gfxLoop force)
  | .quiet st => ({ q with cur := st }, .gfxWalk force)
  | .ran p st => ({ q with cur := st, history := .ran w p :: q.history }, .gfxWalk force)
  | .blocked =>
      let flip := w.flipLabel (waitPollAddress c q.cur.front)
      let q := { q with history := .stopped clock flip q.cur.front.packet :: q.history }
      if q.suspendedAt = 0 then ({ q with suspendedAt := clock, flipWait := flip }, .idle) else (q, .idle)

/-- Where a compute queue's run returns to. -/
def Cp.back (slot : Nat) : Option Nat → Cp
  | none => .idle
  | some now => .pump now (slot + 1)

/-- `ResumeComputeQueues` at a queue. -/
def WaitQueue.resume (q : WaitQueue) (c : Commands) (w : World) (now slot : Nat) : WaitQueue × Cp :=
  match q.pending with
  | [] => (q, .pump now (slot + 1))
  | sub :: _ =>
      if q.suspended = false ∨ sub.frames = [] then (q, .pump now (slot + 1))
      else
        let ready := waitRegMemReady c w .compute sub.front
        if ready = false ∧ q.timedOut now kComputeWaitLimit = false then (q, .pump now (slot + 1))
        else if ready then ({ q with suspendedAt := 0 }, .cqStart slot false (some now))
        else (q, .cqStart slot true (some now))

/-- `WaitQueue::Run`, the top of its loop. -/
def WaitQueue.loop (q : WaitQueue) (slot now : Nat) (force : Bool) (ret : Option Nat) : WaitQueue × Cp :=
  if q.pending = [] then (q, .back slot ret)
  else if force = true ∧ q.suspendedAt ≠ 0 then ({ q with suspendedAt := 0 }, .cqWalk slot now true ret)
  else (q, .cqWalk slot now false ret)

/-- `ProcessComputePackets`, one turn of its loop, and what `WaitQueue::Run` does when it returns. -/
def WaitQueue.walk (q : WaitQueue) (c : Commands) (w : World) (clock slot now : Nat) (skip : Bool)
    (ret : Option Nat) : WaitQueue × Cp :=
  match q.pending with
  | [] => (q, .back slot ret)
  | sub :: rest =>
      match computeNext c skip w sub with
      | .done => ({ q with suspendedAt := 0, pending := rest }, .cqLoop slot now false ret)
      | .quiet sub => ({ q with pending := sub :: rest }, .cqWalk slot now skip ret)
      | .ran p sub =>
          if skip = true ∧ p.isWait c = true then
            ({ q with pending := sub :: rest, history := .skipped clock p :: q.history },
              .cqWalk slot now false ret)
          else
            ({ q with pending := sub :: rest, history := .ran w p :: q.history }, .cqWalk slot now skip ret)
      | .blocked =>
          let flip := w.flipLabel (waitPollAddress c sub.front)
          let q := { q with history := .stopped clock flip sub.front.packet :: q.history }
          if q.suspendedAt = 0 then ({ q with suspendedAt := if now = 0 then 1 else now }, .back slot ret)
          else (q, .back slot ret)

def State.withGfx (s : State) (r : GfxQueue × Cp) : State := { s with gfx := r.1, cp := r.2 }

def State.withCq (s : State) (slot : Nat) (r : WaitQueue × Cp) : State :=
  { s with cq := Function.update s.cq slot r.1, cp := r.2 }

/-- The next turn of the holder of the lock. -/
def State.turn (c : Commands) (s : State) : Option State :=
  match s.cp with
  | .idle => none
  | .gfxReady ready => some (s.withGfx (s.gfx.resume s.clock ready))
  | .gfxLoop force => some (s.withGfx (s.gfx.loop c s.world s.clock force))
  | .gfxWalk force => some (s.withGfx (s.gfx.walk c s.world s.clock force))
  | .pump now slot =>
      if kMaxComputeQueues ≤ slot then some { s with cp := .idle }
      else some (s.withCq slot ((s.cq slot).resume c s.world now slot))
  | .cqStart slot force ret => some { s with cp := .cqLoop slot s.clock force ret }
  | .cqLoop slot now force ret => some (s.withCq slot ((s.cq slot).loop slot now force ret))
  | .cqWalk slot now skip ret => some (s.withCq slot ((s.cq slot).walk c s.world s.clock slot now skip ret))

def State.submitGfx (s : State) (subs : List GfxSubmit) : State :=
  { s with
    gfx := { s.gfx with pending := s.gfx.pending ++ subs, submitted := s.gfx.submitted ++ subs }
    cp := .gfxLoop false }

/-- `ps4_gnm_metal_present`: a flip waits behind what is queued, or is shown at once. -/
def State.present (s : State) (id : Nat) : State :=
  let q := { s.gfx with submitted := s.gfx.submitted ++ [GfxSubmit.present id] }
  if q.active = true ∨ q.pending ≠ [] then { s with gfx := { q with pending := q.pending ++ [GfxSubmit.present id] } }
  else { s with gfx := { q with history := .ran s.world (.present id) :: q.history } }

def State.submitCompute (s : State) (queueSlot words dw : Nat) : State :=
  let slot := queueSlot % kMaxComputeQueues
  let sub : ComputeSubmit := ⟨[⟨words, dw, 0⟩]⟩
  let q := s.cq slot
  let q := { q with pending := q.pending ++ [sub], submitted := q.submitted ++ [sub] }
  s.withCq slot (q, if q.suspended then .idle else .cqStart slot false none)

def State.exec (c : Commands) (s : State) : Action → Option State
  | .world world elapsed =>
      if s.clock + elapsed < 2 ^ 64 then some { s with world, clock := s.clock + elapsed } else none
  | .turn => s.turn c
  | .submitGfx subs => if s.cp = .idle then some (s.submitGfx subs) else none
  | .present id => if s.cp = .idle then some (s.present id) else none
  | .submitCompute queueSlot words dw =>
      if s.cp = .idle then some (s.submitCompute queueSlot words dw) else none
  | .resetCompute queueSlot =>
      if s.cp = .idle then some (s.withCq (queueSlot % kMaxComputeQueues) ({}, .idle)) else none
  | .resumeGfx =>
      if s.cp = .idle ∧ s.gfx.active = true ∧ s.gfx.suspendedAt ≠ 0 then
        some { s with cp := .gfxReady (waitRegMemReady c s.world .gfx s.gfx.cur.front) }
      else none
  | .resumeCompute => if s.cp = .idle then some { s with cp := .pump s.clock 0 } else none

/-- All queues are empty, some time after the system has started. -/
def State.Init (s : State) : Prop :=
  0 < s.clock ∧ s.clock < 2 ^ 64 ∧ s.cp = .idle ∧ s.gfx = {} ∧ s.cq = fun _ => {}

def queueSystem (c : Commands) : System State Action where
  init := State.Init
  step s a s' := s.exec c a = some s'

/-! ### What is asked of the queues -/

/-- **A queue is kept.**  Its history runs its submissions packet after packet up to what is left, a wait in
it that was run was met, and a wait that was skipped had been waited for over its full limit. -/
structure QueueKept {J : Type} (c : Commands) (own : Queue) (M : Walker World J Packet)
    (submitted remaining : List J) (history : List (Event World Packet)) : Prop where
  inOrder : Drains M submitted history remaining
  met : ∀ w p, .ran w p ∈ history → p.isWait c = true → p.metBy c w own ≠ .unmet
  fullWaits : FullWaits kGfxWaitLimit kFlipWaitLimit history

/-- The last thing that a queue did was to stop. -/
def stoppedLast : List (Event World Packet) → Bool
  | .stopped _ _ _ :: _ => true
  | _ => false

/-- The graphics queue does not stop while it still counts as suspended, unless it has run no packet since
its last stop. -/
def GfxStopOk (c : Commands) (s : State) : Prop :=
  (gfxWait c s.gfx.cur).isSome = true → waitRegMemReady c s.world .gfx s.gfx.cur.front = false →
    s.gfx.suspendedAt = 0 ∨ stoppedLast s.gfx.history = true

/-- A compute queue stops at the time when its run began, and not at a flip label. -/
def ComputeStopOk (c : Commands) (s : State) (slot now : Nat) (skip : Bool) : Prop :=
  ∀ sub ∈ (s.cq slot).pending.take 1, skip = false → (computeWait c sub).isSome = true →
    waitRegMemReady c s.world .compute sub.front = false →
      s.clock = now ∧ s.world.flipLabel (waitPollAddress c sub.front) = false

instance (c : Commands) (s : State) : Decidable (GfxStopOk c s) :=
  inferInstanceAs (Decidable (_ → _ → _ ∨ _))

instance (c : Commands) (s : State) (slot now : Nat) (skip : Bool) : Decidable (ComputeStopOk c s slot now skip) :=
  inferInstanceAs (Decidable (∀ sub ∈ (s.cq slot).pending.take 1, _))

def CpStopOk (c : Commands) (s : State) : Cp → Prop
  | .gfxWalk _ => GfxStopOk c s
  | .cqWalk slot now skip _ => ComputeStopOk c s slot now skip
  | _ => True

instance (c : Commands) (s : State) (cp : Cp) : Decidable (CpStopOk c s cp) :=
  match cp with
  | .gfxWalk _ => inferInstanceAs (Decidable (GfxStopOk c s))
  | .cqWalk slot now skip _ => inferInstanceAs (Decidable (ComputeStopOk c s slot now skip))
  | .idle | .gfxReady _ | .gfxLoop _ | .pump _ _ | .cqStart _ _ _ | .cqLoop _ _ _ _ => .isTrue trivial

/-- **The condition on a stop.** -/
def StopsOk (c : Commands) (s : State) : Action → Prop
  | .turn => CpStopOk c s s.cp
  | _ => True

instance (c : Commands) (s : State) (a : Action) : Decidable (StopsOk c s a) :=
  match a with
  | .turn => inferInstanceAs (Decidable (CpStopOk c s s.cp))
  | .world _ _ | .submitGfx _ | .present _ | .submitCompute _ _ _ | .resetCompute _ | .resumeGfx
  | .resumeCompute => .isTrue trivial

end PS4Recomp.Gnm.CommandQueues
