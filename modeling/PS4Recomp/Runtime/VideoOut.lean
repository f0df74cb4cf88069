import Mathlib.Data.List.FinRange
import Mathlib.Logic.Function.Basic
import PS4Recomp.Library.Transition

/-!
# Video-out handles and their flips

`ps4_videoout.c`: a table of handles, the buffers registered with each, the flips in flight, and the labels
that the command processor polls.

* `VideoOutHandle`, `PendingFlip`, `VideoOut` — a slot of the table, a flip, and the table;
* `sceVideoOutOpen`, `sceVideoOutClose`, `sceVideoOutRegisterBuffers`, `sceVideoOutUnregisterBuffers`,
  `sceVideoOutGetBufferLabelAddress`, `ps4_videoout_submit_flip` — the calls;
* `lock_flip_label`, `finish_flip` — the command processor reaches a flip, and a flip completes;
* `VideoOut.exec`, `videoSystem` — the calls, locks and completions in any order;
* `Locked`, `FlipsKept` — which labels are set, and what is asked of labels and counters;
* `FlipOk` — the condition on a step.

A flip that is not queued is reached and completes like any other.  Attributes of a buffer set count only
for the checks; the picture, event queues, vertical blanks and times of a flip are left out.
-/

namespace PS4Recomp.Runtime.VideoOut

open Library.Transition

def MAX_VIDEO_HANDLES : Nat := 8
def MAX_FRAME_BUFFERS : Nat := 16
def PS4_VIDEO_OUT_MAX_BUFFER_SETS : Nat := 4

def ENOMEM : Int := 12
def EINVAL : Int := 22

/-- An error code as the call returns it. -/
def videoError (code : Nat) : Int := (code : Int) - 2 ^ 32

def ORBIS_VIDEO_OUT_ERROR_INVALID_VALUE : Int := videoError 0x80290001
def ORBIS_VIDEO_OUT_ERROR_INVALID_ADDRESS : Int := videoError 0x80290002
def ORBIS_VIDEO_OUT_ERROR_INVALID_PITCH : Int := videoError 0x80290004
def ORBIS_VIDEO_OUT_ERROR_INVALID_TILING_MODE : Int := videoError 0x80290007
def ORBIS_VIDEO_OUT_ERROR_INVALID_ASPECT_RATIO : Int := videoError 0x80290008
def ORBIS_VIDEO_OUT_ERROR_INVALID_INDEX : Int := videoError 0x8029000A
def ORBIS_VIDEO_OUT_ERROR_INVALID_HANDLE : Int := videoError 0x8029000B
def ORBIS_VIDEO_OUT_ERROR_NO_EMPTY_SLOT : Int := videoError 0x8029000F
def ORBIS_VIDEO_OUT_ERROR_SLOT_OCCUPIED : Int := videoError 0x80290010

abbrev Slot := Fin 8

structure PendingFlip where
  handle : Int
  /-- `none` is the blank frame, −1. -/
  bufferIndex : Option Nat
  flipArg : Int
  /-- The label: a slot of the table and a buffer index. -/
  lock : Option (Slot × Nat)
  deriving DecidableEq

/-- A flip in flight.  Where it comes from, which registration of its buffer it means, and whether the command
processor has reached it, no code keeps. -/
structure Flip where
  pf : PendingFlip
  gpu : Bool
  registration : Nat
  reached : Bool := false
  deriving DecidableEq

/-- The part of `OrbisVideoOutFlipStatus` that counts. -/
structure FlipStatus where
  num : Nat := 0
  flipArg : Int := 0
  numFlipPending : Nat := 0
  numGpuFlipPending : Nat := 0
  currentBuffer : Option Nat := some 0
  deriving DecidableEq

structure VideoOutHandle where
  inUse : Bool := false
  handle : Int := 0
  buffers : Nat → Nat := fun _ => 0
  bufferSet : Nat → Option Nat := fun _ => none
  /-- How many buffers a set has; 0 is a free set. -/
  sets : Nat → Nat := fun _ => 0
  flipStatus : FlipStatus := {}
  labels : Option (Nat → Nat) := none
  /-- The buffer of the last completed flip. -/
  prevIndex : Option Nat := none
  /-- How often a buffer index was registered, and the last completed flip: no code keeps them. -/
  registration : Nat → Nat := fun _ => 0
  last : Option Flip := none

structure VideoOut where
  slots : Slot → VideoOutHandle := fun _ => {}
  nextVideoHandle : Int := 1
  inFlight : List Flip := []

def VideoOut.setSlot (s : VideoOut) (i : Slot) (v : VideoOutHandle) : VideoOut :=
  { s with slots := Function.update s.slots i v }

def VideoOut.findVideoHandle (s : VideoOut) (handle : Int) : Option Slot :=
  if handle ≤ 0 then none
  else (List.finRange 8).find? fun i => (s.slots i).inUse && (s.slots i).handle = handle

/-! ### Opening and closing -/

/-- A slot as `sceVideoOutOpen` leaves it: the labels of the slot are kept and cleared. -/
def VideoOutHandle.opened (v : VideoOutHandle) (handle : Int) : VideoOutHandle where
  inUse := true
  handle
  labels := v.labels.map fun _ _ => 0

def VideoOut.sceVideoOutOpen (s : VideoOut) : VideoOut × Int :=
  match (List.finRange 8).find? fun i => !(s.slots i).inUse with
  | none => (s, -ENOMEM)
  | some i =>
      let handle := s.nextVideoHandle
      ({ s.setSlot i ((s.slots i).opened handle) with nextVideoHandle := handle + 1 }, handle)

def VideoOut.sceVideoOutClose (s : VideoOut) (handle : Int) : VideoOut × Int :=
  match s.findVideoHandle handle with
  | none => (s, -EINVAL)
  | some i => (s.setSlot i { s.slots i with inUse := false }, 0)

/-! ### Buffers -/

structure BufferAttribute where
  tmode : Int := 0
  aspect : Int := 0
  width : Nat := 1920
  pixelPitch : Nat := 1920
  reserved0 : Nat := 0
  reserved1 : Nat := 0

/-- The set that a registration takes, after the checks in the order of the system library. -/
def VideoOutHandle.registerCheck (v : VideoOutHandle) (startIndex bufferCount : Int) (attr : BufferAttribute) :
    Except Int Nat :=
  match (List.range PS4_VIDEO_OUT_MAX_BUFFER_SETS).find? fun k => v.sets k = 0 with
  | none => .error ORBIS_VIDEO_OUT_ERROR_NO_EMPTY_SLOT
  | some set =>
      if startIndex < 0 ∨ bufferCount ≤ 0 ∨ MAX_FRAME_BUFFERS ≤ startIndex ∨ MAX_FRAME_BUFFERS < bufferCount ∨
          MAX_FRAME_BUFFERS < startIndex + bufferCount then .error ORBIS_VIDEO_OUT_ERROR_INVALID_VALUE
      else if ∃ i < bufferCount.toNat, (v.bufferSet (startIndex.toNat + i)).isSome then
        .error ORBIS_VIDEO_OUT_ERROR_SLOT_OCCUPIED
      else if attr.reserved0 ≠ 0 ∨ attr.reserved1 ≠ 0 then .error ORBIS_VIDEO_OUT_ERROR_INVALID_VALUE
      else if attr.aspect ≠ 0 then .error ORBIS_VIDEO_OUT_ERROR_INVALID_ASPECT_RATIO
      else if attr.pixelPitch < attr.width then .error ORBIS_VIDEO_OUT_ERROR_INVALID_PITCH
      else if attr.tmode < 0 ∨ 1 < attr.tmode then .error ORBIS_VIDEO_OUT_ERROR_INVALID_TILING_MODE
      else .ok set

/-- The buffers from `start` on belong to `set`; their labels are cleared. -/
def VideoOutHandle.registered (v : VideoOutHandle) (start count set : Nat) (bufferArray : Nat → Nat) :
    VideoOutHandle :=
  { v with
    buffers := fun k => if start ≤ k ∧ k < start + count then bufferArray (k - start) else v.buffers k
    bufferSet := fun k => if start ≤ k ∧ k < start + count then some set else v.bufferSet k
    labels := v.labels.map fun ls k => if start ≤ k ∧ k < start + count then 0 else ls k
    sets := Function.update v.sets set count
    registration := fun k => if start ≤ k ∧ k < start + count then v.registration k + 1 else v.registration k }

def VideoOut.sceVideoOutRegisterBuffers (s : VideoOut) (handle startIndex : Int)
    (bufferArray : Option (Nat → Nat)) (bufferCount : Int) (attr : Option BufferAttribute) : VideoOut × Int :=
  match bufferArray, attr with
  | some bufferArray, some attr =>
      match s.findVideoHandle handle with
      | none => (s, ORBIS_VIDEO_OUT_ERROR_INVALID_HANDLE)
      | some i =>
          match (s.slots i).registerCheck startIndex bufferCount attr with
          | .error err => (s, err)
          | .ok set =>
              (s.setSlot i ((s.slots i).registered startIndex.toNat bufferCount.toNat set bufferArray), set)
  | _, _ => (s, ORBIS_VIDEO_OUT_ERROR_INVALID_ADDRESS)

def VideoOutHandle.unregistered (v : VideoOutHandle) (set : Nat) : VideoOutHandle :=
  { v with
    bufferSet := fun k => if v.bufferSet k = some set then none else v.bufferSet k
    buffers := fun k => if v.bufferSet k = some set then 0 else v.buffers k
    sets := Function.update v.sets set 0 }

def VideoOut.sceVideoOutUnregisterBuffers (s : VideoOut) (handle setIndex : Int) : VideoOut × Int :=
  match s.findVideoHandle handle with
  | none => (s, ORBIS_VIDEO_OUT_ERROR_INVALID_HANDLE)
  | some i =>
      if setIndex < 0 ∨ PS4_VIDEO_OUT_MAX_BUFFER_SETS ≤ setIndex ∨ (s.slots i).sets setIndex.toNat = 0 then
        (s, ORBIS_VIDEO_OUT_ERROR_INVALID_VALUE)
      else (s.setSlot i ((s.slots i).unregistered setIndex.toNat), 0)

/-! ### Labels and flips -/

/-- `flip_labels_locked`: the labels are allocated on first use, if there is a context (`ctx`) and guest
memory (`alloc`). -/
def VideoOutHandle.flipLabels (v : VideoOutHandle) (ctx alloc : Bool) : VideoOutHandle :=
  match v.labels with
  | some _ => v
  | none => if ctx && alloc then { v with labels := some fun _ => 0 } else v

def VideoOut.sceVideoOutGetBufferLabelAddress (s : VideoOut) (handle : Int) (labelAddr ctx alloc : Bool) :
    VideoOut × Int :=
  if labelAddr = false then (s, ORBIS_VIDEO_OUT_ERROR_INVALID_ADDRESS)
  else
    match s.findVideoHandle handle with
    | none => (s, ORBIS_VIDEO_OUT_ERROR_INVALID_HANDLE)
    | some i =>
        let v := (s.slots i).flipLabels ctx alloc
        (s.setSlot i v, if v.labels.isSome then MAX_FRAME_BUFFERS else ORBIS_VIDEO_OUT_ERROR_INVALID_VALUE)

def VideoOutHandle.setLabel (v : VideoOutHandle) (k x : Nat) : VideoOutHandle :=
  { v with labels := v.labels.map fun ls => Function.update ls k x }

/-- The slot and the flip of an accepted `ps4_videoout_submit_flip`. -/
def VideoOutHandle.accept (v : VideoOutHandle) (i : Slot) (index : Option Nat) (flipArg : Int)
    (gpuFlip ctx alloc : Bool) : VideoOutHandle × Flip :=
  let v := if gpuFlip && index.isSome then v.flipLabels ctx alloc else v
  let lock := if gpuFlip && v.labels.isSome then index.map fun k => (i, k) else none
  ({ v with flipStatus := { v.flipStatus with
      numFlipPending := v.flipStatus.numFlipPending + 1
      numGpuFlipPending := v.flipStatus.numGpuFlipPending + 1 } },
    { pf := { handle := v.handle, bufferIndex := index, flipArg, lock }
      gpu := gpuFlip
      registration := (index.map v.registration).getD 0 })

def VideoOut.ps4_videoout_submit_flip (s : VideoOut) (handle bufferIndex : Int) (flipArg : Int)
    (gpuFlip ctx alloc : Bool) : VideoOut × Int :=
  match s.findVideoHandle handle with
  | none => (s, ORBIS_VIDEO_OUT_ERROR_INVALID_HANDLE)
  | some i =>
      if bufferIndex ≠ -1 ∧ (bufferIndex < 0 ∨ MAX_FRAME_BUFFERS ≤ bufferIndex ∨
          (s.slots i).bufferSet bufferIndex.toNat = none) then (s, ORBIS_VIDEO_OUT_ERROR_INVALID_INDEX)
      else
        let index := if 0 ≤ bufferIndex then some bufferIndex.toNat else none
        let r := (s.slots i).accept i index flipArg gpuFlip ctx alloc
        ({ s.setSlot i r.1 with inFlight := s.inFlight ++ [r.2] }, 0)

def VideoOut.lock_flip_label (s : VideoOut) (pf : PendingFlip) : VideoOut :=
  match pf.lock with
  | some (i, k) => s.setSlot i ((s.slots i).setLabel k 1)
  | none => s

/-- The slot of a flip that completes: the buffer flipped before it is released. -/
def VideoOutHandle.finished (v : VideoOutHandle) (f : Flip) : VideoOutHandle :=
  let v := match v.prevIndex with
    | some k => v.setLabel k 0
    | none => v
  { v with
    flipStatus := {
      num := v.flipStatus.num + 1
      flipArg := f.pf.flipArg
      numFlipPending := v.flipStatus.numFlipPending - 1
      numGpuFlipPending := v.flipStatus.numGpuFlipPending - 1
      currentBuffer := f.pf.bufferIndex }
    prevIndex := f.pf.bufferIndex
    last := some f }

def VideoOut.finish_flip (s : VideoOut) (f : Flip) : VideoOut :=
  match s.findVideoHandle f.pf.handle with
  | some i => s.setSlot i ((s.slots i).finished f)
  | none => s

def VideoOut.sceVideoOutIsFlipPending (s : VideoOut) (handle : Int) : Nat :=
  match s.findVideoHandle handle with
  | some i => (s.slots i).flipStatus.numFlipPending
  | none => 0

def VideoOut.sceVideoOutGetFlipStatus (s : VideoOut) (handle : Int) : Option FlipStatus :=
  (s.findVideoHandle handle).map fun i => (s.slots i).flipStatus

/-! ### The system -/

inductive Call
  | openHandle
  | close (handle : Int)
  | register (handle startIndex : Int) (bufferArray : Option (Nat → Nat)) (bufferCount : Int)
      (attr : Option BufferAttribute)
  | unregister (handle setIndex : Int)
  | labelAddress (handle : Int) (labelAddr ctx alloc : Bool)
  | submitFlip (handle bufferIndex flipArg : Int) (gpuFlip ctx alloc : Bool)
  /-- The command processor reaches a flip in flight. -/
  | reach (n : Nat)
  /-- A flip in flight that was reached completes. -/
  | complete (n : Nat)

def VideoOut.reach (s : VideoOut) (n : Nat) : Option VideoOut :=
  s.inFlight[n]?.map fun f =>
    { s.lock_flip_label f.pf with inFlight := s.inFlight.set n { f with reached := true } }

def VideoOut.complete (s : VideoOut) (n : Nat) : Option VideoOut :=
  match s.inFlight[n]? with
  | some f => if f.reached then some { s.finish_flip f with inFlight := s.inFlight.eraseIdx n } else none
  | none => none

def VideoOut.exec (s : VideoOut) : Call → Option VideoOut
  | .openHandle => some s.sceVideoOutOpen.1
  | .close handle => some (s.sceVideoOutClose handle).1
  | .register handle startIndex bufferArray bufferCount attr =>
      some (s.sceVideoOutRegisterBuffers handle startIndex bufferArray bufferCount attr).1
  | .unregister handle setIndex => some (s.sceVideoOutUnregisterBuffers handle setIndex).1
  | .labelAddress handle labelAddr ctx alloc =>
      some (s.sceVideoOutGetBufferLabelAddress handle labelAddr ctx alloc).1
  | .submitFlip handle bufferIndex flipArg gpuFlip ctx alloc =>
      some (s.ps4_videoout_submit_flip handle bufferIndex flipArg gpuFlip ctx alloc).1
  | .reach n => s.reach n
  | .complete n => s.complete n

def videoSystem : System VideoOut Call where
  init s := s = {}
  step s a s' := s.exec a = some s'

/-! ### What is asked of labels and counters -/

/-- A GPU flip of a buffer as it is registered now, which the command processor has reached. -/
def Flip.Locks (f : Flip) (v : VideoOutHandle) (k : Nat) : Prop :=
  f.pf.handle = v.handle ∧ f.gpu = true ∧ f.pf.bufferIndex = some k ∧ f.registration = v.registration k ∧
    f.reached = true

instance (f : Flip) (v : VideoOutHandle) (k : Nat) : Decidable (f.Locks v k) :=
  inferInstanceAs (Decidable (_ ∧ _ ∧ _ ∧ _ ∧ _))

/-- **A buffer is locked** from the moment the command processor reaches a GPU flip of it until the next flip
after that one completes: the flip is in flight, or was the last to complete. -/
def Locked (fs : List Flip) (v : VideoOutHandle) (k : Nat) : Prop :=
  (∃ f ∈ fs, f.Locks v k) ∨ ∃ f, v.last = some f ∧ f.Locks v k

/-- A flip of a handle. -/
def Flip.isOf (handle : Int) (f : Flip) : Bool := f.pf.handle = handle

def Flip.isGpuOf (handle : Int) (f : Flip) : Bool := f.isOf handle && f.gpu

/-- Handles in use. -/
def VideoOut.Open (s : VideoOut) (i : Slot) : Prop := (s.slots i).inUse = true

/-- A lock or a completion of a flip whose handle is closed. -/
def OfClosed (s : VideoOut) : Call → Prop
  | .reach n => ∀ f, s.inFlight[n]? = some f → s.findVideoHandle f.pf.handle = none
  | .complete n => ∀ f, s.inFlight[n]? = some f → s.findVideoHandle f.pf.handle = none
  | _ => False

/-- **The condition on a step.**  A GPU flip of a buffer finds labels or memory for them; where the command
processor reaches a flip, its slot is not used by another handle and its buffer was not registered anew; and
where a flip completes, no flip of the buffer flipped before it has been reached. -/
def FlipOk (s : VideoOut) : Call → Prop
  | .submitFlip handle bufferIndex _ gpuFlip ctx alloc =>
      gpuFlip = true → bufferIndex ≠ -1 → ∀ i ∈ s.findVideoHandle handle,
        (s.slots i).labels.isSome = true ∨ (ctx && alloc) = true
  | .reach n =>
      ∀ f ∈ s.inFlight[n]?, ∀ p ∈ f.pf.lock, (s.slots p.1).inUse = true →
        (s.slots p.1).handle = f.pf.handle ∧
          ((s.slots p.1).bufferSet p.2 ≠ none → (s.slots p.1).registration p.2 = f.registration)
  | .complete n =>
      ∀ f ∈ s.inFlight[n]?, ∀ i ∈ s.findVideoHandle f.pf.handle, ∀ k ∈ (s.slots i).prevIndex,
        (s.slots i).bufferSet k ≠ none → ∀ g ∈ s.inFlight, ¬g.Locks (s.slots i) k
  | _ => True

instance (s : VideoOut) (a : Call) : Decidable (FlipOk s a) :=
  match a with
  | .submitFlip handle _ _ _ _ _ =>
      inferInstanceAs (Decidable (_ → _ → ∀ i ∈ s.findVideoHandle handle, _ ∨ _))
  | .reach n => inferInstanceAs (Decidable (∀ f ∈ s.inFlight[n]?, ∀ p ∈ f.pf.lock, _ → _ ∧ (_ → _)))
  | .complete n =>
      inferInstanceAs (Decidable (∀ f ∈ s.inFlight[n]?, ∀ i ∈ s.findVideoHandle f.pf.handle,
        ∀ k ∈ (s.slots i).prevIndex, _ → ∀ g ∈ s.inFlight, ¬g.Locks (s.slots i) k))
  | .openHandle | .close _ | .register _ _ _ _ _ | .unregister _ _ | .labelAddress _ _ _ _ => .isTrue trivial

/-- **Labels and counters.**  A handle reports as pending its flips in flight; it reports as pending GPU flips
the GPU flips among them, if and only if there are no others; a registered buffer's label is 1 where it is
locked and 0 elsewhere; and a step of a closed handle's flip that meets the condition changes no open one. -/
structure FlipsKept (s : VideoOut) : Prop where
  pending : ∀ i, s.Open i → s.sceVideoOutIsFlipPending (s.slots i).handle =
    s.inFlight.countP (Flip.isOf (s.slots i).handle)
  gpuPending : ∀ i, s.Open i → ∀ status, s.sceVideoOutGetFlipStatus (s.slots i).handle = some status →
    (status.numGpuFlipPending = s.inFlight.countP (Flip.isGpuOf (s.slots i).handle) ↔
      ∀ f ∈ s.inFlight, f.pf.handle = (s.slots i).handle → f.gpu = true)
  label : ∀ i, s.Open i → ∀ k, (s.slots i).bufferSet k ≠ none → ∀ ls, (s.slots i).labels = some ls →
    (Locked s.inFlight (s.slots i) k → ls k = 1) ∧ (¬Locked s.inFlight (s.slots i) k → ls k = 0)
  closed : ∀ a s', OfClosed s a → FlipOk s a → s.exec a = some s' → ∀ i, s.Open i → s'.slots i = s.slots i

end PS4Recomp.Runtime.VideoOut
