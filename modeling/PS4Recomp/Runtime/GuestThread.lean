import PS4Recomp.Library.Transition

/-!
# Guest threads: creation, exit, join, detach and collection

`ps4_threading.c`: the calls of any number of guest threads, cut at every access to the object of a
thread that others may reach.

* `RecompThread`, `shouldCollect` — the fields of a thread object, and `should_collect_locked`;
* `Place`, `State` — where each thread is in the code, the lists `g_threads` and `g_gc_list`, and the
  objects;
* `exec`, `threadSystem` — the effect of one cut, and all interleavings;
* `touches` — the objects a cut reads or writes;
* `Uses` — the thread will still touch the object before it looks for one again.

Objects are numbered in the order they are made, and a thread has the number of its object: 0 is the main
thread.  A `calloc` that gives an old address again still makes a new object.  A section is one step with
the acquisition of its lock; the release is a step of its own where it touches an object.  Handles, names,
stacks and the guest code are left out: a look-up finds any registered object, and a running thread calls
what it likes.  `released`, `exited`, `joined` and `failed` record what happened; no code reads them.
-/

namespace PS4Recomp.Runtime.GuestThread

open Library.Transition

/-- A thread object: `terminated` is `tid == TID_TERMINATED`, `dead` is `state == PTHREAD_STATE_DEAD`, and
`detached` the flag `THREAD_FLAG_DETACHED`. -/
structure RecompThread where
  terminated : Bool := false
  refcount : ℤ := 1
  dead : Bool := false
  detached : Bool := false
  lock : Option ℕ := none
  joinWaitMutex : Option ℕ := none
  joiner : Option ℕ := none
  joinTarget : Option ℕ := none
  retVal : BitVec 64 := 0
  finished : Bool := false
  startReady : Bool := false
  deriving DecidableEq

/-- `should_collect_locked`. -/
def RecompThread.shouldCollect (t : RecompThread) : Bool :=
  decide (t.refcount = 0) && t.dead && t.detached

/-- Who called `try_collect_locked`. -/
inductive Collecting where
  | exit
  | join (v : BitVec 64)
  | detach
  | create
  deriving DecidableEq

/-- Who called `recomp_thread_collect`. -/
inductive Returning where
  | join (o : ℕ) (v : BitVec 64)
  | detach
  | create (detached : Bool)
  deriving DecidableEq

/-- Where a thread is: the cut it runs next.  `o` is the object of the call, `v` the value read from it. -/
inductive Place where
  -- recomp_host_thread_runner
  | unborn
  | starting
  | running
  -- recomp_thread_exit
  | exitMark
  | exitTerminate
  | exitBroadcast
  | exitUnlock
  | exitHost
  | ended
  -- try_collect_locked
  | collectMove (o : ℕ) (k : Collecting)
  | collectUnlock (o : ℕ) (k : Collecting)
  -- recomp_thread_collect
  | gather (k : Returning)
  | reclaim (reclaimList : List ℕ) (k : Returning)
  -- do_thread_join
  | joinCheck (o : ℕ)
  | joinUnlock (o : ℕ)
  | joinWait (o : ℕ)
  | joinSleep (o : ℕ)
  | joinLeave (o : ℕ)
  | joinRead (o : ℕ)
  | joinHost (o : ℕ) (v : BitVec 64)
  | joinMark (o : ℕ) (v : BitVec 64)
  -- do_thread_detach
  | detachCheck (o : ℕ)
  -- the release of the lock before an error
  | refuse (o : ℕ)
  -- do_create_thread
  | createAlloc (detached : Bool)
  | createRegister (o : ℕ)
  | createSpawn (o : ℕ)
  | createDetach (o : ℕ)
  | createReady (o : ℕ)
  | createFail (o : ℕ)
  deriving DecidableEq

/-- The object of the call a thread is in. -/
def Place.target : Place → Option ℕ
  | .collectMove o _ | .collectUnlock o _ | .joinCheck o | .joinUnlock o | .joinWait o | .joinSleep o
  | .joinLeave o | .joinRead o | .joinHost o _ | .joinMark o _ | .detachCheck o | .refuse o
  | .createRegister o | .createSpawn o | .createDetach o | .createReady o | .createFail o => some o
  | _ => none

/-- The thread still touches its own object. -/
def Place.usesOwn : Place → Bool
  | .unborn | .exitHost | .ended => false
  | _ => true

/-- The objects a collector has taken off the list. -/
def Place.taken : Place → List ℕ
  | .reclaim reclaimList _ => reclaimList
  | _ => []

/-- The shared state.  `next` is the next object, `released` counts how often an object was freed, `exited`
is the value a thread exited with, `joined` the joins that returned 0 with their values and `failed` the
objects of the creations that returned an error. -/
structure State where
  obj : ℕ → RecompThread := fun _ => {}
  place : ℕ → Place := fun a => if a = 0 then .running else .unborn
  threads : List ℕ := [0]
  gcList : List ℕ := []
  next : ℕ := 1
  released : ℕ → ℕ := fun _ => 0
  exited : ℕ → Option (BitVec 64) := fun _ => none
  joined : List (ℕ × BitVec 64) := []
  failed : List ℕ := []

/-- The thread will touch the object in the call it is in, or in its own run. -/
def Uses (s : State) (a o : ℕ) : Prop :=
  (s.place a).target = some o ∨ a = o ∧ (s.place a).usesOwn = true

instance (s : State) (a o : ℕ) : Decidable (Uses s a o) :=
  inferInstanceAs (Decidable (_ ∨ _))

/-- How `calloc` and `recomp_create_thread_context` end. -/
inductive Allocated where
  | noMemory
  | noContext
  | allocated
  deriving DecidableEq

/-- What happens next: a thread calls `shim_scePthreadExit` or returns, `shim_pthread_join` or `shim_pthread_detach`
with what the look-up finds, or `do_create_thread`; a creation allocates, or calls `pthread_create`; a
thread runs the cut it is at. -/
inductive Act where
  | exit (a : ℕ) (status : BitVec 64)
  | join (a : ℕ) (found : Option ℕ)
  | detach (a : ℕ) (found : Option ℕ)
  | create (a : ℕ) (detached : Bool)
  | alloc (a : ℕ) (outcome : Allocated)
  | spawn (a : ℕ) (ok : Bool)
  | next (a : ℕ)
  deriving DecidableEq

namespace State

def goto (s : State) (a : ℕ) (p : Place) : State :=
  { s with place := Function.update s.place a p }

def setObj (s : State) (o : ℕ) (t : RecompThread) : State :=
  { s with obj := Function.update s.obj o t }

/-- `try_collect_locked` up to the global lock, by the thread that holds the lock of `o`. -/
def tryCollect (s : State) (a o : ℕ) (k : Collecting) : State :=
  if (s.obj o).shouldCollect then s.goto a (.collectMove o k) else s.goto a (.collectUnlock o k)

/-- The section of `try_collect_locked` under `g_threads_mutex`. -/
def collectMove (s : State) (a o : ℕ) (k : Collecting) : State :=
  if (s.obj o).shouldCollect then
    { s with threads := s.threads.erase o, gcList := o :: s.gcList }.goto a (.collectUnlock o k)
  else s.goto a (.collectUnlock o k)

/-- What follows `try_collect_locked`. -/
def afterCollect (s : State) (a o : ℕ) : Collecting → State
  | .exit => s.goto a .exitTerminate
  | .join v => s.goto a (.gather (.join o v))
  | .detach => s.goto a (.gather .detach)
  | .create => { s with failed := o :: s.failed }.goto a .running

/-- The section of `recomp_thread_collect` under `g_threads_mutex`. -/
def gather (s : State) (a : ℕ) (k : Returning) : State :=
  { s with gcList := s.gcList.filter fun o => !(s.obj o).terminated }.goto a
    (.reclaim (s.gcList.filter fun o => (s.obj o).terminated).reverse k)

/-- What follows `recomp_thread_collect`. -/
def afterReclaim (s : State) (a : ℕ) : Returning → State
  | .join o v => { s with joined := (o, v) :: s.joined }.goto a .running
  | .detach => s.goto a .running
  | .create detached => s.goto a (.createAlloc detached)

/-- An object freed. -/
def free (s : State) (o : ℕ) : State :=
  { s with released := Function.update s.released o (s.released o + 1) }

/-- `calloc` and the first assignments of `do_create_thread`. -/
def calloc (s : State) (detached : Bool) : State :=
  { s with
    obj := Function.update s.obj s.next { detached := detached }
    next := s.next + 1 }

end State

/-- A thread runs the cut it is at.  No result means that it waits for a lock or for another thread. -/
def run (s : State) (a : ℕ) : Option State :=
  match s.place a with
  -- recomp_host_thread_runner
  | .starting => if (s.obj a).startReady then some (s.goto a .running) else none
  -- recomp_thread_exit
  | .exitMark =>
      if (s.obj a).lock = none then
        some ((s.setObj a { s.obj a with
          lock := some a, dead := true, finished := true, refcount := (s.obj a).refcount - 1 }).tryCollect
            a a .exit)
      else none
  | .exitTerminate =>
      if (s.obj a).joinWaitMutex = none then
        some ((s.setObj a { s.obj a with joinWaitMutex := some a, terminated := true }).goto a
          .exitBroadcast)
      else none
  | .exitBroadcast => some (s.goto a .exitUnlock)
  | .exitUnlock => some ((s.setObj a { s.obj a with joinWaitMutex := none }).goto a .exitHost)
  | .exitHost => some (s.goto a .ended)
  -- try_collect_locked
  | .collectMove o k => some (s.collectMove a o k)
  | .collectUnlock o k => some ((s.setObj o { s.obj o with lock := none }).afterCollect a o k)
  -- recomp_thread_collect
  | .gather k => some (s.gather a k)
  | .reclaim [] k => some (s.afterReclaim a k)
  | .reclaim (o :: reclaimList) k => some ((s.free o).goto a (.reclaim reclaimList k))
  -- do_thread_join
  | .joinCheck o =>
      if (s.obj o).lock = none then
        if (s.obj o).detached = true ∨ (s.obj o).joiner ≠ none then
          some ((s.setObj o { s.obj o with lock := some a }).goto a (.refuse o))
        else
          let s := s.setObj o { s.obj o with lock := some a, joiner := some a }
          some ((s.setObj a { s.obj a with joinTarget := some o }).goto a (.joinUnlock o))
      else none
  | .joinUnlock o => some ((s.setObj o { s.obj o with lock := none }).goto a (.joinWait o))
  | .joinWait o =>
      if (s.obj o).joinWaitMutex = none then
        if (s.obj o).terminated then
          some ((s.setObj o { s.obj o with joinWaitMutex := some a }).goto a (.joinLeave o))
        else some (s.goto a (.joinSleep o))
      else none
  | .joinSleep o => some (s.goto a (.joinWait o))
  | .joinLeave o => some ((s.setObj o { s.obj o with joinWaitMutex := none }).goto a (.joinRead o))
  | .joinRead o =>
      some ((s.setObj a { s.obj a with joinTarget := none }).goto a (.joinHost o (s.obj o).retVal))
  | .joinHost o v => if s.place o = .ended then some (s.goto a (.joinMark o v)) else none
  | .joinMark o v =>
      if (s.obj o).lock = none then
        some ((s.setObj o { s.obj o with lock := some a, detached := true, joiner := none }).tryCollect a o
          (.join v))
      else none
  -- do_thread_detach
  | .detachCheck o =>
      if (s.obj o).lock = none then
        if (s.obj o).detached = true ∨ (s.obj o).joiner ≠ none then
          some ((s.setObj o { s.obj o with lock := some a }).goto a (.refuse o))
        else
          some ((s.setObj o { s.obj o with lock := some a, detached := true }).tryCollect a o .detach)
      else none
  | .refuse o => some ((s.setObj o { s.obj o with lock := none }).goto a .running)
  -- do_create_thread
  | .createRegister o => some ({ s with threads := o :: s.threads }.goto a (.createSpawn o))
  | .createDetach o => some (s.goto a (.createReady o))
  | .createReady o => some ((s.setObj o { s.obj o with startReady := true }).goto a .running)
  | .createFail o =>
      if (s.obj o).lock = none then
        some ((s.setObj o { s.obj o with lock := some a, refcount := 0, dead := true }).tryCollect a o
          .create)
      else none
  | .unborn | .running | .ended | .createAlloc _ | .createSpawn _ => none

/-- The look-up finds a registered object, or none; a null object is an error at once, and so is a join of
the thread itself. -/
def look (s : State) (a : ℕ) (found : Option ℕ) (p : ℕ → Place) : Option State :=
  match found with
  | none => some s
  | some o => if o ∈ s.threads then some (s.goto a (p o)) else none

def exec (s : State) : Act → Option State
  | .exit a status =>
      if s.place a = .running then
        -- the main thread ends without recomp_thread_exit
        if a = 0 then some (s.goto a .ended)
        else
          some ({ s.setObj a { s.obj a with retVal := status } with
            exited := Function.update s.exited a (some status) }.goto a .exitMark)
      else none
  | .join a found =>
      if s.place a = .running then
        if found = some a then some s else look s a found .joinCheck
      else none
  | .detach a found => if s.place a = .running then look s a found .detachCheck else none
  | .create a detached => if s.place a = .running then some (s.goto a (.gather (.create detached))) else none
  | .alloc a outcome =>
      match s.place a with
      | .createAlloc detached =>
          match outcome with
          | .noMemory => some (s.goto a .running)
          | .noContext => some ({ (s.calloc detached).free s.next with
              failed := s.next :: s.failed }.goto a .running)
          | .allocated => some ((s.calloc detached).goto a (.createRegister s.next))
      | _ => none
  | .spawn a ok =>
      match s.place a with
      | .createSpawn o =>
          if ok then some ((s.goto o .starting).goto a (.createDetach o))
          else some (s.goto a (.createFail o))
      | _ => none
  | .next a => run s a

/-- The objects a step reads or writes: a look-up walks through `g_threads`, a collection through
`g_gc_list`, and a list link is in the object. -/
def touches (s : State) : Act → ℕ → Prop
  | .exit a _, o => o = a
  | .join a _, o | .detach a _, o => o = a ∨ o ∈ s.threads
  | .create a _, o => o = a
  | .alloc a _, o => o = a
  | .spawn a _, o => o = a ∨ (s.place a).target = some o
  | .next a, o =>
      Uses s a o ∨ o ∈ (s.place a).taken ∨
        match s.place a with
        | .collectMove _ _ => o ∈ s.threads ∨ o ∈ s.gcList
        | .createRegister _ => o ∈ s.threads
        | .gather _ => o ∈ s.gcList
        | _ => False

/-- The main thread runs. -/
def start : State := { obj := fun o => if o = 0 then { startReady := true } else {} }

def threadSystem : System State Act where
  init s := s = start
  step s a s' := exec s a = some s'

end PS4Recomp.Runtime.GuestThread
