import PS4Recomp.Library.Transition

/-!
# Fibers as coroutines: run, switch, return to the thread

`ps4_fiber.c` in the coroutine mode: any number of host threads, and the calls of `libSceFiber` cut at
every access to what they share.

* `OrbisFiberObject`, `FiberHost`, `FiberWorker` — the guest object of a fiber, its host side, and the host
  thread's side;
* `Place`, `State` — where each host thread is in the code, and on which host stack it runs;
* `exec`, `fiberSystem` — the effect of one cut, and all interleavings;
* `Alone` — `sceFiberInitialize` of an address overlaps no other call on it, and finds no fiber there that
  runs.

A host thread and its worker have one name, and host sides are numbered in the order they are made.  A
context switch loads another host stack: what was saved there goes on with `co_finish_switch`.  Objects at
different addresses do not overlap, and guest code writes to none.  Contexts, names, registers and error
codes are left out, and so are the look-ups of `Runtime.FiberLookup`.  `resumed`, `delivered`, `sent` and
`got` record the arguments of the calls and what they return; no code reads them.
-/

namespace PS4Recomp.Runtime.Fiber

open Library.Transition

/-- `FIBER_STATE_IDLE` and the others. -/
inductive FiberState where
  | idle
  | running
  | finalized
  | suspending
  deriving DecidableEq

/-- The guest object of a fiber: `valid` is that both magic numbers are set, `addrContext` that
`addr_context` is not 0. -/
structure OrbisFiberObject where
  valid : Bool := false
  state : FiberState := .idle
  host : Option ℕ := none
  addrContext : Bool := false
  deriving DecidableEq

/-- `fiber_valid`. -/
def OrbisFiberObject.fiberValid (f : OrbisFiberObject) : Bool := f.valid && f.host.isSome

/-- The host side of a fiber; `release` is the object of the fiber to mark idle. -/
structure FiberHost (T : Type*) where
  guestAddr : ℕ := 0
  worker : Option T := none
  inArg : BitVec 64 := 0
  stack : Bool := false
  release : Option ℕ := none
  freed : Bool := false

/-- The thread side of a host thread that runs fibers. -/
structure FiberWorker where
  current : Option ℕ := none
  returnArg : BitVec 64 := 0
  release : Option ℕ := none

/-- The host stacks. -/
inductive Endpoint (T : Type*) where
  | thread (t : T)
  | fiber (h : ℕ)
  deriving DecidableEq

/-- A run or a switch: `tl_fiber_self` at its start, the argument, and whether it attaches a context that
passes the checks. -/
structure Call where
  self : Option ℕ
  arg : BitVec 64
  attach : Bool
  contextOk : Bool
  deriving DecidableEq

/-- The context of the object, or the one attached, is refused. -/
def Call.refused (k : Call) (f : OrbisFiberObject) : Bool :=
  if k.attach then f.addrContext || !k.contextOk else !f.addrContext

/-- Where a host thread is: the cut it runs next.  `a` is the guest object of the call, `h` its host side,
`g` the calling fiber, `w` its worker. -/
inductive Place (T : Type*) where
  | guest
  -- fiber_claim
  | valid (a : ℕ) (k : Call)
  | take (a : ℕ) (k : Call)
  -- fiber_run, fiber_switch
  | prepare (a : ℕ) (k : Call)
  | giveBack (a : ℕ)
  | suspend (a h : ℕ) (k : Call)
  | enter (a h : ℕ) (k : Call) (w : T) (release : Option ℕ)
  | current (a h : ℕ) (k : Call) (w : T)
  | jump (a h : ℕ) (k : Call)
  -- co_finish_switch, on the stack that was switched to
  | finish
  | finishIdle (a : ℕ)
  | deliver
  -- shim_sceFiberReturnToThread
  | backCurrent (g : ℕ) (w : T)
  | backSuspend (g : ℕ) (w : T)
  | backRelease (g : ℕ) (w : T)
  | backJump (g : ℕ) (w : T)
  -- shim_sceFiberFinalize
  | finValid (a : ℕ)
  | finTake (a : ℕ)
  | finFree (a : ℕ)
  | finClear (a : ℕ)
  -- fiber_initialize
  | initWrite (a : ℕ) (context : Bool)
  | initIdle (a : ℕ)
  deriving DecidableEq

/-- The shared state; `stack` is the host stack a thread runs on. -/
structure State (T : Type*) where
  obj : ℕ → OrbisFiberObject := fun _ => {}
  host : ℕ → FiberHost T := fun _ => {}
  worker : T → FiberWorker := fun _ => {}
  stack : T → Endpoint T := .thread
  tlFiberSelf : T → Option ℕ := fun _ => none
  place : T → Place T := fun _ => .guest
  nextHost : ℕ := 0
  resumed : ℕ → List (BitVec 64) := fun _ => []
  delivered : ℕ → List (BitVec 64) := fun _ => []
  sent : T → List (BitVec 64) := fun _ => []
  got : T → List (BitVec 64) := fun _ => []

/-- What happens next: a host thread calls a function of `libSceFiber`, or runs the cut it is at. -/
inductive Act (T : Type*) where
  | fiberInitialize (t : T) (a : ℕ) (context : Bool)
  | run (t : T) (a : ℕ) (arg : BitVec 64) (attach contextOk : Bool)
  | switch (t : T) (a : ℕ) (arg : BitVec 64) (attach contextOk : Bool)
  | returnToThread (t : T) (arg : BitVec 64)
  | finalize (t : T) (a : ℕ)
  | next (t : T) (ok : Bool)
  deriving DecidableEq

/-- A null or misaligned address, which every call refuses. -/
def badAddr (a : ℕ) : Bool := a == 0 || a % 8 != 0

variable {T : Type*} [DecidableEq T]

namespace State

def goto (s : State T) (t : T) (p : Place T) : State T :=
  { s with place := Function.update s.place t p }

def setObj (s : State T) (a : ℕ) (f : OrbisFiberObject) : State T :=
  { s with obj := Function.update s.obj a f }

def setHost (s : State T) (h : ℕ) (x : FiberHost T) : State T :=
  { s with host := Function.update s.host h x }

def setWorker (s : State T) (w : T) (x : FiberWorker) : State T :=
  { s with worker := Function.update s.worker w x }

/-- `atomic_store(&f->state, ..)`. -/
def store (s : State T) (a : ℕ) (x : FiberState) : State T :=
  s.setObj a { s.obj a with state := x }

end State

/-- The context is attached and the host stack allocated. -/
def State.equip (s : State T) (a h : ℕ) : State T :=
  (s.setObj a { s.obj a with addrContext := true }).setHost h { s.host h with stack := true }

/-- `fiber_run` clears `return_arg` and enters the fiber; `fiber_switch` first leaves its own. -/
def State.launch (s : State T) (t : T) (a h : ℕ) (k : Call) : State T :=
  match k.self with
  | none => (s.setWorker t { s.worker t with returnArg := 0 }).goto t (.enter a h k t none)
  | some _ => s.goto t (.suspend a h k)

/-- `fiber_run` and `fiber_switch` from the claim on; `ok` is that the worker and the host stack are
there. -/
def prepare (s : State T) (t : T) (a : ℕ) (k : Call) (ok : Bool) : Option (State T) :=
  if k.refused (s.obj a) then some (s.goto t (.giveBack a))
  else if ok then (s.obj a).host.map fun h => (s.equip a h).launch t a h k
  else some ((s.setObj a { s.obj a with addrContext := true }).goto t (.giveBack a))

/-- A host thread runs the cut it is at.  No result means that it waits for a fiber to leave its stack. -/
def next (s : State T) (t : T) (ok : Bool) : Option (State T) :=
  match s.place t with
  | .guest => none
  -- fiber_claim, fiber_take_idle
  | .valid a k => if (s.obj a).fiberValid then some (s.goto t (.take a k)) else some (s.goto t .guest)
  | .take a k =>
      match (s.obj a).state with
      | .idle => some ((s.store a .running).goto t (.prepare a k))
      | .suspending => none
      | .running | .finalized => some (s.goto t .guest)
  -- fiber_run, fiber_switch, co_enter
  | .prepare a k => prepare s t a k ok
  | .giveBack a => some ((s.store a .idle).goto t .guest)
  | .suspend a h k =>
      match k.self with
      | none => none
      | some g =>
          match (s.host g).worker with
          | none => none
          | some w =>
              some ((s.store (s.host g).guestAddr .suspending).goto t
                (.enter a h k w (some (s.host g).guestAddr)))
  | .enter a h k w release =>
      some ((s.setHost h { s.host h with worker := some w, inArg := k.arg, release := release }).goto t
        (.current a h k w))
  | .current a h k w =>
      some ({ s.setWorker w { s.worker w with current := some h } with
        tlFiberSelf := Function.update s.tlFiberSelf t (some h) }.goto t (.jump a h k))
  | .jump _ h k =>
      some ({ s with
        stack := Function.update s.stack t (.fiber h)
        resumed := Function.update s.resumed h (s.resumed h ++ [k.arg]) }.goto t .finish)
  -- co_finish_switch
  | .finish =>
      match s.stack t with
      | .fiber h =>
          match (s.host h).release with
          | none => some (s.goto t .deliver)
          | some a => some ((s.setHost h { s.host h with release := none }).goto t (.finishIdle a))
      | .thread u =>
          match (s.worker u).release with
          | none => some (s.goto t .deliver)
          | some a => some ((s.setWorker u { s.worker u with release := none }).goto t (.finishIdle a))
  | .finishIdle a => some ((s.store a .idle).goto t .deliver)
  | .deliver =>
      match s.stack t with
      | .fiber h =>
          some ({ s with
            delivered := Function.update s.delivered h (s.delivered h ++ [(s.host h).inArg]) }.goto t .guest)
      | .thread u =>
          some ({ s with got := Function.update s.got t (s.got t ++ [(s.worker u).returnArg]) }.goto t .guest)
  -- shim_sceFiberReturnToThread
  | .backCurrent g w =>
      some ((s.setWorker w { s.worker w with current := none }).goto t (.backSuspend g w))
  | .backSuspend g w => some ((s.store (s.host g).guestAddr .suspending).goto t (.backRelease g w))
  | .backRelease g w =>
      some ({ s.setWorker w { s.worker w with release := some (s.host g).guestAddr } with
        tlFiberSelf := Function.update s.tlFiberSelf t none }.goto t (.backJump g w))
  | .backJump _ w =>
      some ({ s with stack := Function.update s.stack t (.thread w) }.goto t .finish)
  -- shim_sceFiberFinalize
  | .finValid a => if (s.obj a).fiberValid then some (s.goto t (.finTake a)) else some (s.goto t .guest)
  | .finTake a =>
      match (s.obj a).state with
      | .idle => some ((s.store a .finalized).goto t (.finFree a))
      | .suspending => none
      | .running | .finalized => some (s.goto t .guest)
  | .finFree a =>
      match (s.obj a).host with
      | none => none
      | some h => some ((s.setHost h { s.host h with freed := true }).goto t (.finClear a))
  | .finClear a =>
      some ((s.setObj a { s.obj a with host := none, valid := false }).goto t .guest)
  -- fiber_initialize
  | .initWrite a context =>
      some ({ (s.setHost s.nextHost { guestAddr := a }).setObj a
          { valid := true, host := some s.nextHost, addrContext := context } with
        nextHost := s.nextHost + 1 }.goto t (.initIdle a))
  | .initIdle a => some ((s.store a .idle).goto t .guest)

def exec (s : State T) : Act T → Option (State T)
  | .fiberInitialize t a context =>
      if s.place t = .guest then
        if badAddr a then some s else some (s.goto t (.initWrite a context))
      else none
  | .run t a arg attach contextOk =>
      if s.place t = .guest then
        if s.tlFiberSelf t ≠ none then some s
        else if badAddr a then some s
        else some (s.goto t (.valid a ⟨none, arg, attach, contextOk⟩))
      else none
  | .switch t a arg attach contextOk =>
      if s.place t = .guest then
        match s.tlFiberSelf t with
        | none => some s
        | some g =>
            if badAddr a then some s else some (s.goto t (.valid a ⟨some g, arg, attach, contextOk⟩))
      else none
  | .returnToThread t arg =>
      if s.place t = .guest then
        match s.tlFiberSelf t with
        | none => some s
        | some g =>
            match (s.host g).worker with
            | none => none
            | some w =>
                some ({ s.setWorker w { s.worker w with returnArg := arg } with
                  sent := Function.update s.sent t (s.sent t ++ [arg]) }.goto t (.backCurrent g w))
      else none
  | .finalize t a =>
      if s.place t = .guest then
        if badAddr a then some s else some (s.goto t (.finValid a))
      else none
  | .next t ok => next s t ok

/-- The address whose initialization the thread is in. -/
def Place.initializes : Place T → Option ℕ
  | .initWrite a _ | .initIdle a => some a
  | _ => none

/-- The address of the call a thread has begun, before it owns the object. -/
def Place.mentions : Place T → Option ℕ
  | .valid a _ | .take a _ | .finValid a | .finTake a | .initWrite a _ | .initIdle a => some a
  | _ => none

/-- The condition on a step: an initialization begins only when no other call on its address is in
progress and a fiber there is idle, and no call begins while its address is initialized. -/
def Alone (s : State T) : Act T → Prop
  | .fiberInitialize _ a _ =>
      (∀ u, (s.place u).mentions ≠ some a) ∧ ((s.obj a).valid = true → (s.obj a).state = .idle)
  | .run _ a _ _ _ | .switch _ a _ _ _ | .finalize _ a => ∀ u, (s.place u).initializes ≠ some a
  | .returnToThread _ _ | .next _ _ => True

instance [Fintype T] (s : State T) (act : Act T) : Decidable (Alone s act) := by
  unfold Alone
  split <;> infer_instance

/-- No fibers, and every thread on its own stack. -/
def fiberSystem (T : Type*) [DecidableEq T] : System (State T) (Act T) where
  init s := s = {}
  step s act s' := exec s act = some s'

end PS4Recomp.Runtime.Fiber
