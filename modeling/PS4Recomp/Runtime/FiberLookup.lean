import PS4Recomp.Library.Quiesce
import PS4Recomp.Runtime.Fiber

/-!
# Looking up the host thread of a fiber

`ps4_fiber_endpoint_host_thread` runs in signal handlers and takes no lock: any number of look-ups, while
workers are published and destroyed and fibers run and are finalized, in either mode of `ps4_fiber.c`.

* `Mode` — the fibers as the look-ups see them: which fiber is current on a worker, and which step takes or
  frees one;
* `Slot`, `Look` — where a worker is on its way into and out of `g_workers`, and where a look-up is;
* `exec`, `lookupSystem` — the effect of one access, and all interleavings;
* `early` — the look-ups that ran when an object was made unreachable and still run; no code reads it.

A worker has the name of its host thread and a fiber that of its host side: `Endpoint` names the objects, and
also their contexts and host threads.  `g_lookups` does not wrap: there are fewer than 2^32 threads.
-/

namespace PS4Recomp.Runtime.FiberLookup

open Library.Transition
open Runtime.Fiber (Endpoint)

/-- The fibers, in one of the two modes: `thread` is the host thread of a guest thread that acts,
`getsWorker` that the step comes after `get_worker`, `takes` the fiber that a step moves to
`FIBER_STATE_FINALIZED`, and `frees` the one that `fiber_free_host` frees. -/
structure Mode (S A T : Type*) where
  start : S
  exec : S → A → Option S
  threads : Bool
  current : S → T → Option ℕ
  hostStarted : S → ℕ → Bool
  thread : A → Option T
  getsWorker : S → A → Bool
  atGuest : S → T → Bool
  takes : S → A → Option ℕ
  frees : S → A → Option ℕ

/-- `MAX_WORKERS`. -/
def maxWorkers : ℕ := 1024

/-- Where a worker is: the cut of `worker_publish` or `worker_destroy` that comes next, or its slot. -/
inductive Slot where
  | none
  -- worker_publish
  | load
  | scan (i n : ℕ)
  | grow (n : ℕ)
  | live (slot : Option ℕ)
  -- worker_destroy
  | clear (i : ℕ)
  | quiesce
  | free
  | gone
  deriving DecidableEq

/-- Where a look-up of the context `ctx` is: the access it makes next, with the worker and the fiber it has
found. -/
inductive Look (T : Type*) where
  | out
  | load (ctx : Endpoint T)
  | slot (ctx : Endpoint T) (i n : ℕ)
  | current (ctx : Endpoint T) (i n : ℕ) (w : T)
  | context (ctx : Endpoint T) (i n : ℕ) (w : T) (h : Option ℕ)
  | fiber (ctx : Endpoint T) (i n : ℕ) (w : T) (h : ℕ)
  | started (w : T) (h : ℕ)
  | hostThread (h : ℕ)
  | host (w : T)
  | leave (found : Option (Endpoint T))
  deriving DecidableEq

/-- The look-up is in `g_lookups`. -/
def Look.running {T : Type*} : Look T → Bool
  | .out => false
  | _ => true

/-- What a look-up has a pointer to. -/
def Look.holds {T : Type*} : Look T → List (Endpoint T)
  | .current _ _ _ w | .context _ _ _ w none | .host w => [.thread w]
  | .context _ _ _ w (some h) | .fiber _ _ _ w h | .started w h => [.thread w, .fiber h]
  | .hostThread h => [.fiber h]
  | .out | .load _ | .slot _ _ _ | .leave _ => []

/-- What the next access of a look-up reads. -/
def Look.reads {T : Type*} : Look T → Option (Endpoint T)
  | .current _ _ _ w | .context _ _ _ w _ | .host w => some (.thread w)
  | .fiber _ _ _ _ h | .started _ h | .hostThread h => some (.fiber h)
  | .out | .load _ | .slot _ _ _ | .leave _ => none

/-- The shared state. -/
structure State (S T L : Type*) where
  base : S
  workers : ℕ → Option T := fun _ => none
  nworkers : ℕ := 0
  lookups : ℕ := 0
  slot : T → Slot := fun _ => .none
  look : L → Look T := fun _ => .out
  early : Endpoint T → L → Bool := fun _ _ => false
  drained : ℕ → Bool := fun _ => false
  freed : Endpoint T → Bool := fun _ => false

/-- What happens next: a step of the fibers, `get_worker` or `lookup_quiesce` before such a step, the next
cut of `worker_publish` or `worker_destroy`, the end of a host thread, or a look-up. -/
inductive Act (A T L : Type*) where
  | base (a : A)
  | getWorker (a : A)
  | quiesce (a : A)
  | worker (t : T)
  | exit (t : T)
  | lookup (l : L) (ctx : Endpoint T)
  | read (l : L)
  deriving DecidableEq

variable {S A T L : Type*} [DecidableEq T] [DecidableEq L]

/-- The look-ups that run now are early for the object. -/
def State.takeOut (s : State S T L) (x : Endpoint T) : State S T L :=
  { s with early := Function.update s.early x fun l => (s.look l).running }

def State.free (s : State S T L) (x : Endpoint T) : State S T L :=
  { s with freed := Function.update s.freed x true }

def State.setSlot (s : State S T L) (t : T) (p : Slot) : State S T L :=
  { s with slot := Function.update s.slot t p }

def State.setLook (s : State S T L) (l : L) (p : Look T) : State S T L :=
  { s with look := Function.update s.look l p }

/-- A host thread makes a step of the fibers when it is not in `worker_publish` and has not ended. -/
def Slot.mayStep (p : Slot) (needed : Bool) : Bool :=
  match p with
  | .live _ => true
  | .none => !needed
  | _ => false

/-- A step of the fibers. -/
def baseStep (M : Mode S A T) (s : State S T L) (a : A) (base : S) : State S T L :=
  { s with
    base
    early :=
      match M.takes s.base a with
      | none => s.early
      | some h => (s.takeOut (.fiber h)).early
    freed :=
      match M.frees s.base a with
      | none => s.freed
      | some h => (s.free (.fiber h)).freed }

/-- `worker_publish` and `worker_destroy`. -/
def workerNext (s : State S T L) (t : T) : Option (State S T L) :=
  match s.slot t with
  | .none | .live _ | .gone => none
  | .load => some (s.setSlot t (.scan 0 s.nworkers))
  | .scan i n =>
      if i < n then
        match s.workers i with
        | none => some ({ s with workers := Function.update s.workers i (some t) }.setSlot t (.live (some i)))
        | some _ => some (s.setSlot t (.scan (i + 1) n))
      else if maxWorkers ≤ n then some (s.setSlot t (.live none))
      else some (s.setSlot t (.grow n))
  | .grow n =>
      if s.nworkers = n then some ({ s with nworkers := n + 1 }.setSlot t .load)
      else some (s.setSlot t .load)
  | .clear i =>
      some (({ s with workers := Function.update s.workers i none }.takeOut (.thread t)).setSlot t .quiesce)
  | .quiesce => if s.lookups = 0 then some (s.setSlot t .free) else none
  | .free => some ((s.free (.thread t)).setSlot t .gone)

/-- `ps4_fiber_endpoint_host_thread`. -/
def lookNext (M : Mode S A T) (s : State S T L) (l : L) : Option (State S T L) :=
  match s.look l with
  | .out => none
  | .load ctx => some (s.setLook l (.slot ctx 0 s.nworkers))
  | .slot ctx i n =>
      if i < n then
        match s.workers i with
        | none => some (s.setLook l (.slot ctx (i + 1) n))
        | some w => some (s.setLook l (.current ctx i n w))
      else some (s.setLook l (.leave none))
  | .current ctx i n w => some (s.setLook l (.context ctx i n w (M.current s.base w)))
  | .context ctx i n w h =>
      match h with
      | none =>
          if ctx = .thread w then some (s.setLook l (.host w)) else some (s.setLook l (.slot ctx (i + 1) n))
      | some h =>
          if ctx = .thread w then
            if M.threads then some (s.setLook l (.started w h)) else some (s.setLook l (.host w))
          else some (s.setLook l (.fiber ctx i n w h))
  | .fiber ctx i n w h =>
      if ctx = .fiber h then
        if M.threads then some (s.setLook l (.started w h)) else some (s.setLook l (.host w))
      else some (s.setLook l (.slot ctx (i + 1) n))
  | .started w h =>
      if M.hostStarted s.base h then some (s.setLook l (.hostThread h)) else some (s.setLook l (.host w))
  | .hostThread h => some (s.setLook l (.leave (some (.fiber h))))
  | .host w => some (s.setLook l (.leave (some (.thread w))))
  | .leave _ =>
      some ({ s with
        lookups := s.lookups - 1
        early := fun x u => s.early x u && u ≠ l }.setLook l .out)

def exec (M : Mode S A T) (s : State S T L) : Act A T L → Option (State S T L)
  | .base a =>
      if (M.thread a).all (fun t => (s.slot t).mayStep (M.getsWorker s.base a)) &&
          (M.frees s.base a).all (fun h => s.drained h) then
        (M.exec s.base a).map (baseStep M s a)
      else none
  | .getWorker a =>
      match M.thread a with
      | none => none
      | some t =>
          if M.getsWorker s.base a && s.slot t = .none then some (s.setSlot t .load) else none
  | .quiesce a =>
      match M.frees s.base a with
      | none => none
      | some h => if s.lookups = 0 then some { s with drained := Function.update s.drained h true } else none
  | .worker t => workerNext s t
  | .exit t =>
      if M.atGuest s.base t then
        match s.slot t with
        | .live (some i) => some (s.setSlot t (.clear i))
        | .live none => some (s.setSlot t .free)
        | _ => none
      else none
  | .lookup l ctx =>
      if s.look l = .out then some ({ s with lookups := s.lookups + 1 }.setLook l (.load ctx)) else none
  | .read l => lookNext M s l

/-- All interleavings, from no workers and no look-ups. -/
def lookupSystem (M : Mode S A T) (L : Type*) [DecidableEq L] : System (State S T L) (Act A T L) where
  init s := s = { base := M.start }
  step s act s' := exec M s act = some s'

/-- The fibers alone. -/
def Mode.system (M : Mode S A T) : System S A where
  init s := s = M.start
  step s a s' := M.exec s a = some s'

/-- The condition on the steps of the fibers. -/
def FibersOk (Ok : S → A → Prop) (s : State S T L) : Act A T L → Prop
  | .base a => Ok s.base a
  | _ => True

instance (Ok : S → A → Prop) [∀ s a, Decidable (Ok s a)] (s : State S T L) (act : Act A T L) :
    Decidable (FibersOk Ok s act) := by
  unfold FibersOk
  split <;> infer_instance

end PS4Recomp.Runtime.FiberLookup
