import PS4Recomp.Runtime.Fiber

/-!
# Thread-specific keys

`pthread_key_create`, `pthread_key_delete`, `pthread_setspecific` and `pthread_getspecific` of
`ps4_threading.c`, the destructors of `recomp_thread_exit`, and the values that `ps4_fiber.c` carries from the
context of a thread to that of a fiber and back.

* `State` — the contexts of threads and fibers, the counter of keys and the destructors of the process;
* `carry` — `fiber_adopt_thread` and `fiber_release_thread` at the cuts of `Runtime.Fiber`;
* `KeyStore` — what keys are for: a value for each thread and key, `NULL` when the key is created;
* `exec`, `keySystem` — all interleavings of the calls and of the fibers, in the coroutine mode;
* `WithinLimits` — keys are created while the counter is below the bound of the arrays, and no number that
  was not handed out yet is set.

A context is zero when its thread starts.  A call runs with the context of the stack its thread is on, the one
the slot of the TCB names.  The destructor of a key is stored with the step that hands the key out; what the
destructors do is a choice of the run.  The caller's `errno` and the error numbers of the `sce` calls are left
out.
-/

namespace PS4Recomp.Runtime.ThreadKeys

open Library.Transition
open Runtime.Fiber (Endpoint)

/-- `EINVAL`. -/
def EINVAL : BitVec 64 := 22

/-- The values of a context, by key. -/
abbrev TlsKeys := Fin 128 → BitVec 64

/-- Keys as the callers see them: those that exist, and the value last set on each thread. -/
structure KeyStore (T : Type*) where
  live : List (BitVec 32) := []
  value : T → BitVec 32 → BitVec 64 := fun _ _ => 0

variable {T : Type*} [DecidableEq T]

namespace KeyStore

def create (k : KeyStore T) (key : BitVec 32) : KeyStore T where
  live := key :: k.live
  value t := Function.update (k.value t) key 0

def delete (k : KeyStore T) (key : BitVec 32) : KeyStore T :=
  { k with live := k.live.filter (· ≠ key) }

def set (k : KeyStore T) (t : T) (key : BitVec 32) (v : BitVec 64) : KeyStore T :=
  { k with value := Function.update k.value t (Function.update (k.value t) key v) }

end KeyStore

/-- The shared state; no code reads `store`, which records what the callers were told. -/
structure State (T : Type*) where
  fibers : Fiber.State T := {}
  tlsKeys : Endpoint T → TlsKeys := fun _ _ => 0
  tlsDestructors : Fin 128 → BitVec 64 := fun _ => 0
  nextKey : BitVec 32 := 1
  store : KeyStore T := {}

namespace State

/-- The context a call of the thread runs with. -/
def ctx (s : State T) (t : T) : Endpoint T := s.fibers.stack t

def setKey (s : State T) (e : Endpoint T) (key : Fin 128) (v : BitVec 64) : State T :=
  { s with tlsKeys := Function.update s.tlsKeys e (Function.update (s.tlsKeys e) key v) }

end State

/-- `shim_pthread_key_create`: the state, the value returned and the key stored for the caller. -/
def keyCreate (s : State T) (destructorAddr : BitVec 64) : State T × BitVec 64 × BitVec 32 :=
  let key := s.nextKey
  let s := { s with nextKey := s.nextKey + 1 }
  let s := if h : key.toNat < 128 then
      { s with tlsDestructors := Function.update s.tlsDestructors ⟨key.toNat, h⟩ destructorAddr }
    else s
  (s, 0, key)

/-- `shim_pthread_key_delete`. -/
def keyDelete (s : State T) (rdi : BitVec 64) : State T × BitVec 64 :=
  let key : BitVec 32 := rdi.setWidth 32
  if h : key.toNat < 128 then
    ({ s with tlsDestructors := Function.update s.tlsDestructors ⟨key.toNat, h⟩ 0 }, 0)
  else (s, 0)

/-- `shim_pthread_setspecific`. -/
def setspecific (s : State T) (t : T) (rdi rsi : BitVec 64) : State T × BitVec 64 :=
  let key : BitVec 32 := rdi.setWidth 32
  if h : key.toNat < 128 then (s.setKey (s.ctx t) ⟨key.toNat, h⟩ rsi, 0)
  else (s, EINVAL)

/-- `shim_pthread_getspecific`. -/
def getspecific (s : State T) (t : T) (rdi : BitVec 64) : BitVec 64 :=
  let key : BitVec 32 := rdi.setWidth 32
  if h : key.toNat < 128 then s.tlsKeys (s.ctx t) ⟨key.toNat, h⟩
  else 0

/-- `recomp_thread_exit` at one key: the value is cleared in the thread's own context before the destructor
runs. -/
def exitKey (s : State T) (t : T) (key : Fin 128) : State T :=
  if s.tlsKeys (.thread t) key ≠ 0 ∧ s.tlsDestructors key ≠ 0 then s.setKey (.thread t) key 0 else s

/-- The values copied by a step of `libSceFiber`: by `fiber_release_thread` when a fiber leaves its thread,
by `fiber_adopt_thread` when a fiber enters one, and when a fiber is made. -/
def carry (s : Fiber.State T) (keys : Endpoint T → TlsKeys) : Fiber.Act T → Endpoint T → TlsKeys
  | .returnToThread t _ =>
      match s.tlFiberSelf t with
      | none => keys
      | some g =>
          match (s.host g).worker with
          | none => keys
          | some w => Function.update keys (.thread w) (keys (.fiber g))
  | .next t _ =>
      match s.place t with
      | .suspend _ _ k =>
          match k.self with
          | none => keys
          | some g =>
              match (s.host g).worker with
              | none => keys
              | some w => Function.update keys (.thread w) (keys (.fiber g))
      | .enter _ h _ w _ => Function.update keys (.fiber h) (keys (.thread w))
      | .initWrite _ _ => Function.update keys (.fiber s.nextHost) (keys (s.stack t))
      | _ => keys
  | _ => keys

/-- What happens next: a step of `libSceFiber`, a call on a key by a thread that runs guest code, or the exit
of a thread that comes to a key. -/
inductive Act (T : Type*) where
  | fiber (act : Fiber.Act T)
  | keyCreate (t : T) (destructorAddr : BitVec 64)
  | keyDelete (t : T) (rdi : BitVec 64)
  | setspecific (t : T) (rdi rsi : BitVec 64)
  | getspecific (t : T) (rdi : BitVec 64)
  | exitKey (t : T) (key : Fin 128)

/-- The store after a call returned 0. -/
def State.told (s : State T) (rax : BitVec 64) (store : KeyStore T) : State T :=
  if rax = 0 then { s with store } else s

def exec (s : State T) : Act T → Option (State T)
  | .fiber act =>
      (Fiber.exec s.fibers act).map fun fibers =>
        { s with fibers, tlsKeys := carry s.fibers s.tlsKeys act }
  | .keyCreate t destructorAddr =>
      if s.fibers.place t = .guest then
        let (s', rax, key) := keyCreate s destructorAddr
        some (s'.told rax (s.store.create key))
      else none
  | .keyDelete t rdi =>
      if s.fibers.place t = .guest then
        let (s', rax) := keyDelete s rdi
        some (s'.told rax (s.store.delete (rdi.setWidth 32)))
      else none
  | .setspecific t rdi rsi =>
      if s.fibers.place t = .guest then
        let (s', rax) := setspecific s t rdi rsi
        some (s'.told rax (s.store.set t (rdi.setWidth 32) rsi))
      else none
  | .getspecific t _ => if s.fibers.place t = .guest then some s else none
  -- a thread that exits on the stack of a fiber clears a copy that no call of its own reads
  | .exitKey t key =>
      if s.fibers.place t = .guest then
        let s' := exitKey s t key
        if s.tlsKeys (.thread t) key ≠ 0 ∧ s.tlsDestructors key ≠ 0 ∧ s.ctx t = .thread t then
          some { s' with store := s.store.set t (BitVec.ofNat 32 key) 0 }
        else some s'
      else none

/-- The condition on a step: fibers are initialized where none is in use, a key is created while the counter
is below the bound of the arrays, and a value is set at no number below it that was not handed out yet. -/
def WithinLimits (s : State T) : Act T → Prop
  | .fiber act => Fiber.Alone s.fibers act
  | .keyCreate _ _ => s.nextKey.toNat < 128
  | .setspecific _ rdi rsi =>
      let key : BitVec 32 := rdi.setWidth 32
      key.toNat < s.nextKey.toNat ∨ 128 ≤ key.toNat ∨ rsi = 0
  | .keyDelete _ _ | .getspecific _ _ | .exitKey _ _ => True

instance [Fintype T] (s : State T) (act : Act T) : Decidable (WithinLimits s act) := by
  unfold WithinLimits
  split <;> infer_instance

/-- No fibers and no keys, and every thread on its own stack with a zero context. -/
def keySystem (T : Type*) [DecidableEq T] : System (State T) (Act T) where
  init s := s = {}
  step s act s' := exec s act = some s'

/-- What the callers rely on in a state, whatever call comes next: a call on a key that exists succeeds, a
value read is the one last set there by the thread since the key was created, and creation succeeds with a key
that does not exist. -/
structure Right (s : State T) : Prop where
  set : ∀ t rdi rsi, s.fibers.place t = .guest → rdi.setWidth 32 ∈ s.store.live →
    (setspecific s t rdi rsi).2 = 0
  get : ∀ t rdi, s.fibers.place t = .guest → getspecific s t rdi = s.store.value t (rdi.setWidth 32)
  create : ∀ destructorAddr, (keyCreate s destructorAddr).2.1 = 0 ∧
    (keyCreate s destructorAddr).2.2 ∉ s.store.live

end PS4Recomp.Runtime.ThreadKeys
