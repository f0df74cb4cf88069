import PS4Recomp.Runtime.Fiber

/-!
# Fibers with host threads of their own

`ps4_fiber.c` in the thread mode: each fiber runs on a host thread that is made when it first runs, and the
worker is handed over with batons.

* `Fiber`, `Place`, `State` — a fiber with its object and its host side, where each thread is, and the shared
  state;
* `exec` — the effect of one cut, for the host threads of workers and of fibers;
* `Unclaimed` — when `pthread_create` fails in a switch, nobody has claimed the switching fiber meanwhile.

A thread is an `Endpoint`: the host thread of a worker or that of a fiber.  A fiber is one initialization of
an object, and objects are initialized where no fiber is.  Arguments, contexts and error codes are left out;
whether a context is refused is a choice of the step.
-/

namespace PS4Recomp.Runtime.FiberThreads

open Library.Transition
open Runtime.Fiber (Endpoint FiberState)

/-- A fiber; `valid` is that its magic numbers are set. -/
structure Fiber (T : Type*) where
  valid : Bool := false
  state : FiberState := .idle
  worker : Option T := none
  hostStarted : Bool := false
  kill : Bool := false
  baton : Bool := false
  deriving DecidableEq

/-- Where a thread is: the cut it runs next.  `a` is the fiber of the call, `w` the worker. -/
inductive Place (T : Type*) where
  | unborn
  | guest
  -- fiber_claim
  | valid (a : ℕ)
  | take (a : ℕ)
  -- fiber_run, fiber_switch
  | prepare (a : ℕ)
  | giveBack (a : ℕ)
  | leaveCurrent (a : ℕ) (w : T)
  | leaveIdle (a : ℕ) (w : T)
  -- fiber_resume
  | resume (a : ℕ) (w : T)
  | create (a : ℕ) (w : T)
  | started (a : ℕ) (w : T)
  | post (a : ℕ) (w : T)
  | failed (a : ℕ) (w : T)
  -- fiber_switch, after fiber_resume has failed
  | claimSelf (a : ℕ) (w : T)
  | showSelf (a : ℕ) (w : T)
  | hideSelf (a : ℕ) (w : T)
  -- baton_wait, fiber_suspend
  | wait
  | woken
  | killed
  | gone
  -- shim_sceFiberReturnToThread
  | backCurrent (w : T)
  | backIdle (w : T)
  | backPost (w : T)
  -- shim_sceFiberFinalize
  | finValid (a : ℕ)
  | finTake (a : ℕ)
  | finKill (a : ℕ)
  | finPost (a : ℕ)
  | finFree (a : ℕ)
  | finClear (a : ℕ)
  deriving DecidableEq

/-- The shared state. -/
structure State (T : Type*) where
  fiber : ℕ → Fiber T := fun _ => {}
  current : T → Option ℕ := fun _ => none
  baton : T → Bool := fun _ => false
  place : Endpoint T → Place T := fun e =>
    match e with
    | .thread _ => .guest
    | .fiber _ => .unborn
  nextFiber : ℕ := 0

/-- What happens next: a thread calls a function of `libSceFiber`, or runs the cut it is at. -/
inductive Act (T : Type*) where
  | fiberInitialize (e : Endpoint T)
  | run (t : T) (a : ℕ)
  | switch (g a : ℕ)
  | returnToThread (g : ℕ)
  | finalize (e : Endpoint T) (a : ℕ)
  | next (e : Endpoint T) (ok : Bool)
  deriving DecidableEq

variable {T : Type*} [DecidableEq T]

namespace State

def goto (s : State T) (e : Endpoint T) (p : Place T) : State T :=
  { s with place := Function.update s.place e p }

def setFiber (s : State T) (a : ℕ) (f : Fiber T) : State T :=
  { s with fiber := Function.update s.fiber a f }

def setCurrent (s : State T) (w : T) (h : Option ℕ) : State T :=
  { s with current := Function.update s.current w h }

/-- `atomic_store(&f->state, ..)`. -/
def store (s : State T) (a : ℕ) (x : FiberState) : State T :=
  s.setFiber a { s.fiber a with state := x }

end State

/-- `fiber_run` hands over its own worker, `fiber_switch` that of the fiber that runs. -/
def handOver (s : State T) (e : Endpoint T) (a : ℕ) : Option (State T) :=
  match e with
  | .thread t => some (s.goto e (.resume a t))
  | .fiber g => (s.fiber g).worker.map fun w => s.goto e (.leaveCurrent a w)

/-- `baton_wait`: of the worker, or of the fiber. -/
def batonWait (s : State T) (e : Endpoint T) : Option (State T) :=
  match e with
  | .thread t =>
      if s.baton t then some ({ s with baton := Function.update s.baton t false }.goto e .guest) else none
  | .fiber g =>
      if (s.fiber g).baton then some ((s.setFiber g { s.fiber g with baton := false }).goto e .woken) else none

/-- A thread runs the cut it is at.  `ok` is that the context is accepted and the worker there, or that
`pthread_create` succeeds.  No result means that it waits. -/
def next (s : State T) (e : Endpoint T) (ok : Bool) : Option (State T) :=
  match s.place e with
  | .unborn | .guest | .gone => none
  -- fiber_claim, fiber_take_idle
  | .valid a => if (s.fiber a).valid then some (s.goto e (.take a)) else some (s.goto e .guest)
  | .take a =>
      if (s.fiber a).state = .idle then some ((s.store a .running).goto e (.prepare a))
      else some (s.goto e .guest)
  -- fiber_run, fiber_switch
  | .prepare a => if ok then handOver s e a else some (s.goto e (.giveBack a))
  | .giveBack a => some ((s.store a .idle).goto e .guest)
  | .leaveCurrent a w => some ((s.setCurrent w (some a)).goto e (.leaveIdle a w))
  | .leaveIdle a w =>
      match e with
      | .thread _ => none
      | .fiber g => some ((s.store g .idle).goto e (.resume a w))
  -- fiber_resume
  | .resume a w =>
      some (((s.setFiber a { s.fiber a with worker := some w }).setCurrent w (some a)).goto e (.create a w))
  | .create a w =>
      if (s.fiber a).hostStarted then some (s.goto e (.post a w))
      else if ok then some ((s.goto (.fiber a) .wait).goto e (.started a w))
      else some (s.goto e (.failed a w))
  | .started a w => some ((s.setFiber a { s.fiber a with hostStarted := true }).goto e (.post a w))
  | .post a _ => some ((s.setFiber a { s.fiber a with baton := true }).goto e .wait)
  | .failed a w =>
      match e with
      | .thread _ => some ((s.setCurrent w none).goto e (.giveBack a))
      | .fiber _ => some ((s.setCurrent w none).goto e (.claimSelf a w))
  | .claimSelf a w =>
      match e with
      | .thread _ => none
      | .fiber g =>
          if (s.fiber g).state = .idle then some ((s.store g .running).goto e (.showSelf a w))
          else some (s.goto e (.hideSelf a w))
  | .showSelf a w =>
      match e with
      | .thread _ => none
      | .fiber g => some ((s.setCurrent w (some g)).goto e (.giveBack a))
  | .hideSelf a w =>
      match e with
      | .thread _ => none
      | .fiber _ => some ((s.setCurrent w none).goto e (.giveBack a))
  -- baton_wait, fiber_suspend
  | .wait => batonWait s e
  | .woken =>
      match e with
      | .thread _ => none
      | .fiber g => if (s.fiber g).kill then some (s.goto e .killed) else some (s.goto e .guest)
  | .killed => some (s.goto e .gone)
  -- shim_sceFiberReturnToThread
  | .backCurrent w =>
      match e with
      | .thread _ => none
      | .fiber _ => some ((s.setCurrent w none).goto e (.backIdle w))
  | .backIdle w =>
      match e with
      | .thread _ => none
      | .fiber g => some ((s.store g .idle).goto e (.backPost w))
  | .backPost w => some ({ s with baton := Function.update s.baton w true }.goto e .wait)
  -- shim_sceFiberFinalize
  | .finValid a => if (s.fiber a).valid then some (s.goto e (.finTake a)) else some (s.goto e .guest)
  | .finTake a =>
      if (s.fiber a).state = .idle then some ((s.store a .finalized).goto e (.finKill a))
      else some (s.goto e .guest)
  | .finKill a =>
      if (s.fiber a).hostStarted then
        some ((s.setFiber a { s.fiber a with kill := true }).goto e (.finPost a))
      else some (s.goto e (.finFree a))
  | .finPost a => some ((s.setFiber a { s.fiber a with baton := true }).goto e (.finClear a))
  | .finFree a => some (s.goto e (.finClear a))
  | .finClear a => some ((s.setFiber a { s.fiber a with valid := false }).goto e .guest)

def exec (s : State T) : Act T → Option (State T)
  | .fiberInitialize e =>
      if s.place e = .guest then
        some { s.setFiber s.nextFiber { valid := true } with nextFiber := s.nextFiber + 1 }
      else none
  | .run t a => if s.place (.thread t) = .guest then some (s.goto (.thread t) (.valid a)) else none
  | .switch g a => if s.place (.fiber g) = .guest then some (s.goto (.fiber g) (.valid a)) else none
  | .returnToThread g =>
      if s.place (.fiber g) = .guest then
        (s.fiber g).worker.map fun w => s.goto (.fiber g) (.backCurrent w)
      else none
  | .finalize e a => if s.place e = .guest then some (s.goto e (.finValid a)) else none
  | .next e ok => next s e ok

/-- When `pthread_create` has failed in a switch, the fiber that switches is still idle. -/
def Unclaimed (s : State T) : Act T → Prop
  | .next (.fiber g) _ =>
      match s.place (.fiber g) with
      | .claimSelf _ _ => (s.fiber g).state = .idle
      | _ => True
  | _ => True

end PS4Recomp.Runtime.FiberThreads
