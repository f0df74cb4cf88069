import PS4Recomp.Library.Transition

/-!
# Guest mutexes and conditions: the threads' steps

`ps4_sync.c`: one `GuestMutex` and one `CondNode` used with it, any number of threads.  A thread
id stands for a guest thread (a fiber runs under the id of its thread), `none` is the owner word 0.

* `State` — the owner word, the recursion count, the announced waiters, the host lock `lk`,
  `cn->m`, and where each thread is (`Pc`);
* `Code`, `code` — the C functions, cut at every access to what threads share: `gm_lock` with its
  fast path, spin, `gm_sleep` and the legacy `gm_acquire_locked`, `gm_relock`, `gm_trylock`,
  `gm_unlock`, `gm_cond_wait`, `gc_signal`;
* `exec`, `syncSystem` — the effect of one cut, and the transition system of all interleavings.

`pthread_cond_wait` releases `lk` and sleeps in one step; a sleeper may wake when it is signalled,
when its time is over or for no reason, and then waits for `lk`.  `pthread_cond_signal` wakes at
least one sleeper if there is one.  `locks` and `unlocks` count the calls that returned 0; no code
reads them.  Clocks and the statistics counters are left out: the steps do not depend on them, a
time limit is a choice.
-/

namespace PS4Recomp.Runtime

open Library.Transition

/-- The values the functions return. -/
inductive Errno where
  | ok | eperm | ebusy | edeadlk | etimedout
  deriving DecidableEq, Repr

/-- The calls of the shims. -/
inductive Call where
  | lock | trylock | unlock | condWait | signal
  deriving DecidableEq, Repr

/-- The host condition variables: `m->cv` and `cn->host_cond`. -/
inductive CondVar where
  | cv | host
  deriving DecidableEq, Repr

/-- What is fixed for a run: `g_mutex_legacy`, whether the spin and the extra wait are on, and the
type of the mutex. -/
structure Config where
  legacy : Bool
  spin : Bool
  extra : Bool
  type : ℤ

/-- Where a thread is.  `timed` is `abs != NULL`, `out` that the last wait returned `ETIMEDOUT`,
`woke` that the thread slept since it announced itself, `nb` that the
caller is `gm_trylock`, `d` the saved `depth`. -/
inductive Pc where
  | idle
  | ret (k : Call) (r : Errno)
  | unlk (k : Call) (r : Errno)
  | acquired (nb locked : Bool)
  -- gm_relock
  | relock (nb timed locked : Bool)
  -- gm_lock, gm_spin
  | lockRead (timed : Bool)
  | lockCas (timed : Bool)
  | spin (timed : Bool)
  | spinRead (timed : Bool)
  | spinCas (timed : Bool)
  -- gm_sleep
  | sleepLk (timed : Bool)
  | sleepAnnounce (timed : Bool)
  | sleepCas (timed woke out : Bool)
  | sleepWait (timed : Bool)
  | sleepAsleep (timed : Bool)
  | sleepWoken (timed out : Bool)
  | sleepLeave (got : Bool)
  | sleepUnlk (got : Bool)
  -- gm_acquire_locked
  | legLk (timed : Bool)
  | legRead (timed woke out : Bool)
  | legAnnounce (timed : Bool)
  | legWait (timed : Bool)
  | legAsleep (timed : Bool)
  | legWoken (timed out : Bool)
  | legLeave (timed out : Bool)
  | legGapUnlk (timed out : Bool)
  | legGap (timed out : Bool)
  | legTake (nb woke : Bool)
  -- gm_trylock
  | tryLk
  | tryRead
  | tryCas
  -- gm_unlock, gm_unlock_locked, gm_release
  | unlockLk
  | unlockRead
  | unlockDec
  | unlockStore
  | unlockWaiters
  | unlockSignalLk
  | unlockSignal
  -- gm_cond_wait
  | cwRead (timed : Bool)
  | cwDepth (timed : Bool)
  | cwLk (timed : Bool) (d : BitVec 32)
  | cwSetM (timed : Bool) (d : BitVec 32)
  | cwCount (timed : Bool) (d : BitVec 32)
  | cwStore (timed : Bool) (d : BitVec 32)
  | cwWaiters (timed : Bool) (d : BitVec 32)
  | cwSignal (timed : Bool) (d : BitVec 32)
  | cwWait (timed : Bool) (d : BitVec 32)
  | cwAsleep (timed : Bool) (d : BitVec 32)
  | cwWoken (d : BitVec 32) (out : Bool)
  | cwAnnounce (d : BitVec 32) (out : Bool)
  | cwCas (d : BitVec 32) (out woke : Bool)
  | cwCvWait (d : BitVec 32) (out : Bool)
  | cwCvAsleep (d : BitVec 32) (out : Bool)
  | cwCvWoken (d : BitVec 32) (out : Bool)
  | cwTake (d : BitVec 32) (out woke : Bool)
  | cwLeave (d : BitVec 32) (out : Bool)
  | cwRestore (d : BitVec 32) (out : Bool)
  -- gc_signal
  | gsRead (all : Bool)
  | gsLk (all : Bool)
  | gsSignal (all locked : Bool)
  deriving DecidableEq

/-- One access to what threads share, and where the thread goes after it. -/
inductive Code where
  | call
  | ret (k : Call) (r : Errno)
  | choose (a b : Pc)
  | readOwner (free mine other : Pc)
  | casOwner (won lost : Pc)
  | setOwner (next : Pc)
  | clearOwner (next : Pc)
  | readCount (next : BitVec 32 → Pc)
  | setCount (c : BitVec 32) (next : Pc)
  | incCount (next : Pc)
  | decCount (zero more : Pc)
  | incWaiters (next : Pc)
  | decWaiters (next : Pc)
  | readWaiters (zero more : Pc)
  | lockLk (next : Pc)
  | unlockLk (next : Pc)
  | wait (next : Pc)
  | asleep (c : CondVar) (timed : Bool) (next : Bool → Pc)
  | signal (c : CondVar) (all : Bool) (next : Pc)
  | setM (next : Pc)
  | readM (unset set : Pc)

/-- Where a call starts. -/
def entry (cfg : Config) : Call → Bool → Pc
  | .lock, timed => .lockRead timed
  | .trylock, _ => if cfg.legacy then .tryLk else .tryRead
  | .unlock, _ => if cfg.legacy then .unlockLk else .unlockRead
  | .condWait, timed => .cwRead timed
  | .signal, all => .gsRead all

/-- `return r`, after `pthread_mutex_unlock(&m->lk)` when the lock is held. -/
def leave (locked : Bool) (k : Call) (r : Errno) : Pc := if locked then .unlk k r else .ret k r

/-- `ETIMEDOUT` or 0. -/
def waitResult (out : Bool) : Errno := if out then .etimedout else .ok

/-- The call that takes a mutex. -/
def lockCall (nb : Bool) : Call := if nb then .trylock else .lock

/-- The result of `gm_relock` on a mutex type that does not count, and `EBUSY` for it in
`gm_trylock`. -/
def relockError (nb timed : Bool) : Errno :=
  if nb then .ebusy else if timed then .etimedout else .edeadlk

/-- The C code of the module, by place. -/
def code (cfg : Config) : Pc → Code
  | .idle => .call
  | .ret k r => .ret k r
  | .unlk k r => .unlockLk (.ret k r)
  | .acquired nb locked => .setCount 1 (leave locked (lockCall nb) .ok)
  | .relock nb timed locked =>
      if cfg.type = 1 ∨ cfg.type = 3 ∨ cfg.type = 4 then
        let refused := leave locked (lockCall nb) (relockError nb timed)
        .choose refused refused
      else .incCount (leave locked (lockCall nb) .ok)
  -- gm_lock
  | .lockRead timed =>
      if cfg.legacy then .readOwner (.legLk timed) (.relock false timed false) (.legLk timed)
      else .readOwner (.lockCas timed) (.relock false timed false)
        (if cfg.spin then .spinRead timed else .sleepLk timed)
  | .lockCas timed =>
      .casOwner (.acquired false false) (if cfg.spin then .spinRead timed else .sleepLk timed)
  | .spin timed => .choose (.spinRead timed) (.sleepLk timed)
  | .spinRead timed => .readOwner (.spinCas timed) (.spin timed) (.spin timed)
  | .spinCas timed => .casOwner (.acquired false false) (.spin timed)
  -- gm_sleep
  | .sleepLk timed => .lockLk (.sleepAnnounce timed)
  | .sleepAnnounce timed => .incWaiters (.sleepCas timed false false)
  | .sleepCas timed _ out =>
      .casOwner (.sleepLeave true) (if out then .sleepLeave false else .sleepWait timed)
  | .sleepWait timed => .wait (.sleepAsleep timed)
  | .sleepAsleep timed => .asleep .cv timed (.sleepWoken timed)
  | .sleepWoken timed out => .lockLk (.sleepCas timed true out)
  | .sleepLeave got => .decWaiters (.sleepUnlk got)
  | .sleepUnlk got => .unlockLk (if got then .acquired false false else .ret .lock .etimedout)
  -- gm_acquire_locked
  | .legLk timed => .lockLk (.legRead timed false false)
  | .legRead timed woke out =>
      let held : Pc := if out then .unlk .lock .etimedout else .legAnnounce timed
      .readOwner (.legTake false woke) held held
  | .legAnnounce timed => .incWaiters (.legWait timed)
  | .legWait timed => .wait (.legAsleep timed)
  | .legAsleep timed => .asleep .cv timed (.legWoken timed)
  | .legWoken timed out => .lockLk (.legLeave timed out)
  | .legLeave timed out =>
      .decWaiters (if cfg.extra then .legGapUnlk timed out else .legRead timed true out)
  | .legGapUnlk timed out => .unlockLk (.legGap timed out)
  | .legGap timed out => .lockLk (.legRead timed true out)
  | .legTake nb _ => .setOwner (.acquired nb true)
  -- gm_trylock
  | .tryLk => .lockLk .tryRead
  | .tryRead =>
      .readOwner (if cfg.legacy then .legTake true false else .tryCas)
        (.relock true false cfg.legacy) (leave cfg.legacy .trylock .ebusy)
  | .tryCas => .casOwner (.acquired true false) (.ret .trylock .ebusy)
  -- gm_unlock
  | .unlockLk => .lockLk .unlockRead
  | .unlockRead =>
      let notMine := leave cfg.legacy .unlock .eperm
      .readOwner notMine .unlockDec notMine
  | .unlockDec => .decCount .unlockStore (leave cfg.legacy .unlock .ok)
  | .unlockStore => .clearOwner (if cfg.legacy then .unlockSignal else .unlockWaiters)
  | .unlockWaiters => .readWaiters (.ret .unlock .ok) .unlockSignalLk
  | .unlockSignalLk => .lockLk .unlockSignal
  | .unlockSignal => .signal .cv false (.unlk .unlock .ok)
  -- gm_cond_wait
  | .cwRead timed => .readOwner (.ret .condWait .eperm) (.cwDepth timed) (.ret .condWait .eperm)
  | .cwDepth timed => .readCount (.cwLk timed)
  | .cwLk timed d => .lockLk (.cwSetM timed d)
  | .cwSetM timed d => .setM (.cwCount timed d)
  | .cwCount timed d => .setCount 0 (.cwStore timed d)
  | .cwStore timed d => .clearOwner (if cfg.legacy then .cwSignal timed d else .cwWaiters timed d)
  | .cwWaiters timed d => .readWaiters (.cwWait timed d) (.cwSignal timed d)
  | .cwSignal timed d => .signal .cv false (.cwWait timed d)
  | .cwWait timed d => .wait (.cwAsleep timed d)
  | .cwAsleep timed d => .asleep .host timed (.cwWoken d)
  | .cwWoken d out => .lockLk (.cwAnnounce d out)
  | .cwAnnounce d out => .incWaiters (.cwCas d out false)
  | .cwCas d out woke =>
      if cfg.legacy then .readOwner (.cwTake d out woke) (.cwCvWait d out) (.cwCvWait d out)
      else .casOwner (.cwLeave d out) (.cwCvWait d out)
  | .cwCvWait d out => .wait (.cwCvAsleep d out)
  | .cwCvAsleep d out => .asleep .cv false fun _ => .cwCvWoken d out
  | .cwCvWoken d out => .lockLk (.cwCas d out true)
  | .cwTake d out _ => .setOwner (.cwLeave d out)
  | .cwLeave d out => .decWaiters (.cwRestore d out)
  | .cwRestore d out => .setCount d (.unlk .condWait (waitResult out))
  -- gc_signal
  | .gsRead all =>
      if cfg.legacy then .choose (.gsSignal all false) (.gsSignal all false)
      else .readM (.gsSignal all false) (.gsLk all)
  | .gsLk all => .lockLk (.gsSignal all true)
  | .gsSignal all locked => .signal .host all (leave locked .signal .ok)

/-- The shared state, and where each thread is. -/
structure State (Tid : Type*) where
  owner : Option Tid
  count : BitVec 32
  waiters : BitVec 32
  lk : Option Tid
  condMutex : Bool
  pc : Tid → Pc
  locks : Tid → ℕ
  unlocks : Tid → ℕ

variable {Tid : Type*} [DecidableEq Tid]

/-- Thread `T` moves to `p`. -/
def State.goto (s : State Tid) (T : Tid) (p : Pc) : State Tid :=
  { s with pc := Function.update s.pc T p }

/-- The thread at `p` sleeps on `c`. -/
def sleepsOn (cfg : Config) (c : CondVar) (p : Pc) : Bool :=
  match code cfg p with
  | .asleep c' _ _ => c' == c
  | _ => false

/-- Where a signalled sleeper goes. -/
def wake (cfg : Config) (p : Pc) : Pc :=
  match code cfg p with
  | .asleep _ _ next => next false
  | _ => p

/-- The threads of `W` are woken. -/
def State.wakeAll (s : State Tid) (cfg : Config) (W : Set Tid) [DecidablePred (· ∈ W)] :
    State Tid :=
  { s with pc := fun V => if V ∈ W then wake cfg (s.pc V) else s.pc V }

/-- The calls that count as a completed lock, and the one that counts as a completed unlock. -/
def countReturn (s : State Tid) (T : Tid) (k : Call) (r : Errno) : State Tid :=
  if r ≠ .ok then s
  else match k with
    | .lock | .trylock => { s with locks := Function.update s.locks T (s.locks T + 1) }
    | .unlock => { s with unlocks := Function.update s.unlocks T (s.unlocks T + 1) }
    | .condWait | .signal => s

open Classical in
/-- The effect of one access by thread `T`. -/
def exec (cfg : Config) (T : Tid) (s s' : State Tid) : Code → Prop
  | .call => ∃ k b, s' = s.goto T (entry cfg k b)
  | .ret k r => s' = (countReturn s T k r).goto T .idle
  | .choose a b => s' = s.goto T a ∨ s' = s.goto T b
  | .readOwner free mine other =>
      s' = s.goto T (if s.owner = none then free else if s.owner = some T then mine else other)
  | .casOwner won lost =>
      s' = if s.owner = none then { s with owner := some T }.goto T won else s.goto T lost
  | .setOwner next => s' = { s with owner := some T }.goto T next
  | .clearOwner next => s' = { s with owner := none }.goto T next
  | .readCount next => s' = s.goto T (next s.count)
  | .setCount c next => s' = { s with count := c }.goto T next
  | .incCount next => s' = { s with count := s.count + 1 }.goto T next
  | .decCount zero more =>
      s' = { s with count := s.count - 1 }.goto T (if s.count - 1 = 0 then zero else more)
  | .incWaiters next => s' = { s with waiters := s.waiters + 1 }.goto T next
  | .decWaiters next => s' = { s with waiters := s.waiters - 1 }.goto T next
  | .readWaiters zero more => s' = s.goto T (if s.waiters = 0 then zero else more)
  | .lockLk next => s.lk = none ∧ s' = { s with lk := some T }.goto T next
  | .unlockLk next => s' = { s with lk := none }.goto T next
  | .wait next => s' = { s with lk := none }.goto T next
  | .asleep _ timed next => s' = s.goto T (next false) ∨ timed = true ∧ s' = s.goto T (next true)
  | .signal c all next =>
      ∃ W : Set Tid, (∀ V ∈ W, sleepsOn cfg c (s.pc V) = true) ∧
        (all = true → ∀ V, sleepsOn cfg c (s.pc V) = true → V ∈ W) ∧
        ((∃ V, sleepsOn cfg c (s.pc V) = true) → W.Nonempty) ∧
        s' = (s.wakeAll cfg W).goto T next
  | .setM next => s' = { s with condMutex := true }.goto T next
  | .readM unset set => s' = s.goto T (if s.condMutex then set else unset)

/-- The mutex and the condition as `calloc` and the map leave them, no thread in a call. -/
def initState : State Tid where
  owner := none
  count := 0
  waiters := 0
  lk := none
  condMutex := false
  pc := fun _ => .idle
  locks := fun _ => 0
  unlocks := fun _ => 0

/-- All interleavings of the threads' accesses. -/
def syncSystem (Tid : Type*) [DecidableEq Tid] (cfg : Config) : System (State Tid) Tid where
  init s := s = initState
  step s T s' := exec cfg T s s' (code cfg (s.pc T))

end PS4Recomp.Runtime
