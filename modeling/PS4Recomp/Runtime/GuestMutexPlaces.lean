import PS4Recomp.Runtime.GuestMutexSteps

/-!
# Guest mutexes: the places of the code

A table of what is known of a thread from where it is (`place`), and the facts that tie the table
to the code: each is checked place by place, and says what an access of a given kind needs of the
place it is at and gives to the place it leads to.

* `locked_next`, `counted_next` — the host lock and the announcement;
* `only_next`, `scheme_of_code` — the places and the accesses of each scheme;
* `owns_next` — ownership;
* `phase_next` — the recursion levels;
* `role_next` — sleeping, releasing and waking.
-/

namespace PS4Recomp.Runtime

open Library.Transition

variable {cfg : Config}

/-- Where a thread stands with its own completed calls: `plain` outside a change of ownership,
`fresh` it has just taken the mutex, `granted` a lock is counted but has not returned, `dropped`
its last level is gone, `gone` so is the ownership, `returned` an unlock is about to return,
`saved d` and `parked d` inside `gm_cond_wait` with `depth = d`, before and after the count is
cleared. -/
inductive Phase where
  | plain | fresh | granted | dropped | gone | returned
  | saved (d : BitVec 32)
  | parked (d : BitVec 32)

/-- What a thread does for a wake-up of `m->cv`: `sleepy` it found the mutex taken and is on its way
to sleep, or asleep; `releasing` it freed the mutex and has not yet looked for sleepers or
signalled; `pending` it was woken and has not yet tried the mutex again. -/
inductive Role where
  | none | sleepy | releasing | pending
  deriving DecidableEq

/-- What is known of a thread from where it is: it holds `m->lk`; it is counted in `waiters`; it
owns the mutex (or does not, or either); it read the owner word free and still holds `lk`; and the
scheme (`g_mutex_legacy`) it can be there in. -/
structure Place where
  locked : Bool := false
  counted : Bool := false
  owns : Option Bool := none
  phase : Phase := .plain
  role : Role := .none
  sawFree : Bool := false
  only : Option Bool := none

/-- A lock that returns 0 is granted, an unlock that returns 0 is done. -/
def retPhase : Call → Errno → Phase
  | .lock, r | .trylock, r => if r = .ok then .granted else .plain
  | .unlock, r => if r = .ok then .returned else .plain
  | .condWait, _ | .signal, _ => .plain

/-- A lock that returns 0 leaves its caller the owner. -/
def retOwns : Call → Errno → Option Bool
  | .lock, r | .trylock, r => if r = .ok then some true else none
  | .unlock, _ | .condWait, _ | .signal, _ => none

/-- A thread about to try the mutex, woken or not. -/
def woken (woke : Bool) : Role := if woke then .pending else .none

/-- The table of places. -/
def place (cfg : Config) : Pc → Place
  | .idle => {}
  | .ret k r => { owns := retOwns k r, phase := retPhase k r }
  | .unlk k r => { locked := true, owns := retOwns k r, phase := retPhase k r }
  | .acquired _ locked => { locked, owns := true, phase := .fresh }
  | .relock _ _ locked => { locked, owns := true }
  | .lockRead _ => {}
  | .lockCas _ => { owns := false, only := false }
  | .spin _ => { owns := false, only := false }
  | .spinRead _ => { owns := false, only := false }
  | .spinCas _ => { owns := false, only := false }
  | .sleepLk _ => { owns := false, only := false }
  | .sleepAnnounce _ => { locked := true, owns := false, only := false }
  | .sleepCas _ woke _ =>
      { locked := true, counted := true, owns := false, role := woken woke, only := false }
  | .sleepWait _ =>
      { locked := true, counted := true, owns := false, role := .sleepy, only := false }
  | .sleepAsleep _ => { counted := true, owns := false, role := .sleepy, only := false }
  | .sleepWoken _ _ => { counted := true, owns := false, role := .pending, only := false }
  | .sleepLeave got =>
      { locked := true, counted := true, owns := got, phase := if got then .fresh else .plain,
        only := false }
  | .sleepUnlk got =>
      { locked := true, owns := got, phase := if got then .fresh else .plain, only := false }
  | .legLk _ => { owns := false, only := true }
  | .legRead _ woke _ => { locked := true, owns := false, role := woken woke, only := true }
  | .legAnnounce _ => { locked := true, owns := false, role := .sleepy, only := true }
  | .legWait _ => { locked := true, counted := true, owns := false, role := .sleepy, only := true }
  | .legAsleep _ => { counted := true, owns := false, role := .sleepy, only := true }
  | .legWoken _ _ => { counted := true, owns := false, role := .pending, only := true }
  | .legLeave _ _ =>
      { locked := true, counted := true, owns := false, role := .pending, only := true }
  | .legGapUnlk _ _ => { locked := true, owns := false, role := .pending, only := true }
  | .legGap _ _ => { owns := false, role := .pending, only := true }
  | .legTake _ woke =>
      { locked := true, owns := false, role := woken woke, sawFree := true, only := true }
  | .tryLk => { only := true }
  | .tryRead => { locked := cfg.legacy }
  | .tryCas => { owns := false, only := false }
  | .unlockLk => { only := true }
  | .unlockRead => { locked := cfg.legacy }
  | .unlockDec => { locked := cfg.legacy, owns := true }
  | .unlockStore => { locked := cfg.legacy, owns := true, phase := .dropped }
  | .unlockWaiters => { owns := false, phase := .gone, role := .releasing, only := false }
  | .unlockSignalLk => { owns := false, phase := .gone, role := .releasing, only := false }
  | .unlockSignal => { locked := true, owns := false, phase := .gone, role := .releasing }
  | .cwRead _ => {}
  | .cwDepth _ => { owns := true }
  | .cwLk _ d => { owns := true, phase := .saved d }
  | .cwSetM _ d => { locked := true, owns := true, phase := .saved d }
  | .cwCount _ d => { locked := true, owns := true, phase := .saved d }
  | .cwStore _ d => { locked := true, owns := true, phase := .parked d }
  | .cwWaiters _ d =>
      { locked := true, owns := false, phase := .parked d, role := .releasing, only := false }
  | .cwSignal _ d => { locked := true, owns := false, phase := .parked d, role := .releasing }
  | .cwWait _ d => { locked := true, owns := false, phase := .parked d }
  | .cwAsleep _ d => { owns := false, phase := .parked d }
  | .cwWoken d _ => { owns := false, phase := .parked d }
  | .cwAnnounce d _ => { locked := true, owns := false, phase := .parked d }
  | .cwCas d _ woke =>
      { locked := true, counted := true, owns := false, phase := .parked d, role := woken woke }
  | .cwCvWait d _ =>
      { locked := true, counted := true, owns := false, phase := .parked d, role := .sleepy }
  | .cwCvAsleep d _ => { counted := true, owns := false, phase := .parked d, role := .sleepy }
  | .cwCvWoken d _ => { counted := true, owns := false, phase := .parked d, role := .pending }
  | .cwTake d _ woke =>
      { locked := true, counted := true, owns := false, phase := .parked d, role := woken woke,
        sawFree := true, only := true }
  | .cwLeave d _ => { locked := true, counted := true, owns := true, phase := .parked d }
  | .cwRestore d _ => { locked := true, owns := true, phase := .parked d }
  | .gsRead _ => {}
  | .gsLk _ => { only := false }
  | .gsSignal _ locked => { locked }

@[simp] theorem woken_false : woken false = .none := rfl

@[simp] theorem woken_true : woken true = .pending := rfl

@[simp] theorem woken_ne_sleepy (woke : Bool) : woken woke ≠ .sleepy := by
  cases woke <;> decide

theorem woken_cases (woke : Bool) : woken woke = .none ∨ woken woke = .pending := by
  cases woke
  · exact .inl rfl
  · exact .inr rfl

@[simp] theorem relockError_ne_ok (nb timed : Bool) : relockError nb timed ≠ .ok := by
  cases nb <;> cases timed <;> decide

-- everything below looks at the table and the code place by place
attribute [local simp] place code entry leave wake

/-! ### the schemes -/

/-- The place belongs to the scheme that is on. -/
def Place.InScheme (cfg : Config) (a : Place) : Prop := ∀ l, a.only = some l → l = cfg.legacy

/-- The scheme an access belongs to: the legacy scheme sets the owner word under `lk`, the atomic
one exchanges it and looks at `waiters`. -/
def Code.scheme : Code → Option Bool
  | .setOwner _ => some true
  | .casOwner _ _ | .readWaiters _ _ => some false
  | _ => none

theorem only_next (p : Pc) (hp : (place cfg p).InScheme cfg) :
    (code cfg p).All cfg fun n => (place cfg n).InScheme cfg := by
  cases p with
  | idle =>
      intro k b
      cases k <;> simp only [entry] <;> (try split_ifs) <;> simp_all [place, Place.InScheme]
  | _ =>
      simp only [code, leave]
      (try split_ifs) <;> simp_all [Code.All, place, Place.InScheme]

theorem scheme_of_code (p : Pc) (hp : (place cfg p).InScheme cfg) :
    ∀ l, (code cfg p).scheme = some l → l = cfg.legacy := by
  cases p <;> simp only [code] <;> (try split_ifs) <;>
    simp_all [Code.scheme, place, Place.InScheme]

/-! ### the host lock and the announcement -/

/-- Whether the thread holds `lk` after an access. -/
def Code.lockedAfter (locked : Bool) : Code → Bool
  | .lockLk _ => true
  | .unlockLk _ | .wait _ => false
  | _ => locked

/-- The accesses made under `lk` only. -/
def Code.underLk : Code → Bool
  | .unlockLk _ | .wait _ | .setOwner _ | .signal .cv _ _ => true
  | _ => false

/-- Whether the thread is counted in `waiters` after an access. -/
def Code.countedAfter (counted : Bool) : Code → Bool
  | .incWaiters _ => true
  | .decWaiters _ => false
  | _ => counted

theorem locked_next (p : Pc) (hp : (place cfg p).InScheme cfg) : (code cfg p).All cfg fun n =>
    (place cfg n).locked = (code cfg p).lockedAfter (place cfg p).locked := by
  cases p with
  | idle =>
      intro k b
      cases k <;> simp only [entry] <;> (try split_ifs) <;>
        simp_all [place, code, Code.lockedAfter]
  | _ =>
      simp only [code, leave]
      (try split_ifs) <;> simp_all [Code.All, Code.lockedAfter, place, Place.InScheme]

theorem locked_of_underLk (cfg : Config) (p : Pc) (h : (code cfg p).underLk = true) :
    (place cfg p).locked = true := by
  cases p <;> simp only [code] at h <;> (try split_ifs at h) <;>
    simp_all [Code.underLk, place]

theorem counted_next (p : Pc) : (code cfg p).All cfg fun n =>
    (place cfg n).counted = (code cfg p).countedAfter (place cfg p).counted := by
  cases p with
  | idle =>
      intro k b
      cases k <;> simp only [entry] <;> (try split_ifs) <;>
        simp_all [place, code, Code.countedAfter]
  | _ =>
      simp only [code, leave]
      (try split_ifs) <;> simp_all [Code.All, Code.countedAfter, place]

/-- Only a thread that is not counted announces itself, and only one that is counted withdraws. -/
theorem counted_of_code (cfg : Config) (p : Pc) :
    (∀ n, code cfg p = .incWaiters n → (place cfg p).counted = false) ∧
      ∀ n, code cfg p = .decWaiters n → (place cfg p).counted = true := by
  cases p <;> simp only [code] <;> (try split_ifs) <;> simp_all [place]

/-! ### ownership -/

/-- What an access needs of the ownership of its place, and gives to the places it leads to. -/
def Code.OwnsOk (cfg : Config) (a : Option Bool) : Code → Prop
  | .readOwner free mine other =>
      (place cfg free).owns ≠ some true ∧ (place cfg mine).owns ≠ some false ∧
        (place cfg other).owns ≠ some true ∨
      a = some false ∧ (place cfg free).owns = some false ∧ (place cfg mine).owns = some false ∧
        (place cfg other).owns = some false
  | .casOwner won lost =>
      a = some false ∧ (place cfg won).owns = some true ∧ (place cfg lost).owns ≠ some true
  | .setOwner next => a = some false ∧ (place cfg next).owns = some true
  | .clearOwner next => a = some true ∧ (place cfg next).owns = some false
  | .setCount _ next => a = some true ∧ (place cfg next).owns ≠ some false
  | .incCount next => a = some true ∧ (place cfg next).owns ≠ some false
  | .decCount zero more =>
      a = some true ∧ (place cfg zero).owns = some true ∧ (place cfg more).owns = none
  | .readCount next => a = some true ∧ ∀ d, (place cfg (next d)).owns = some true
  | c => c.All cfg fun n => (place cfg n).owns = none ∨ (place cfg n).owns = a

theorem owns_next (cfg : Config) (p : Pc) : (code cfg p).OwnsOk cfg (place cfg p).owns := by
  cases p with
  | idle =>
      intro k b
      cases k <;> simp only [entry] <;> (try split_ifs) <;> simp [place]
  | acquired nb locked | relock nb timed locked =>
      cases nb <;> simp only [code, leave, lockCall] <;> (try split_ifs) <;>
        simp_all [Code.OwnsOk, Code.All, place, retOwns]
  | _ =>
      simp only [code, leave]
      (try split_ifs) <;> simp_all [Code.OwnsOk, Code.All, place, retOwns]

/-! ### the recursion levels -/

/-- What an access needs of the phase of its place, and gives to the places it leads to. -/
def Code.PhaseOk (cfg : Config) (a : Phase) : Code → Prop
  | .call => a = .plain ∧ ∀ k b, (place cfg (entry cfg k b)).phase = .plain
  | .ret k r => a = retPhase k r ∧ (place cfg .idle).phase = .plain
  | .casOwner won lost =>
      a = .plain ∧ (place cfg won).phase = .fresh ∧ (place cfg lost).phase = .plain ∨
      ∃ d, a = .parked d ∧ (place cfg won).phase = .parked d ∧ (place cfg lost).phase = .parked d
  | .setOwner next =>
      a = .plain ∧ (place cfg next).phase = .fresh ∨
      ∃ d, a = .parked d ∧ (place cfg next).phase = .parked d
  | .clearOwner next =>
      a = .dropped ∧ (place cfg next).phase = .gone ∨
      ∃ d, a = .parked d ∧ (place cfg next).phase = .parked d
  | .readCount next => a = .plain ∧ ∀ d, (place cfg (next d)).phase = .saved d
  | .setCount c next =>
      a = .fresh ∧ c = 1 ∧ (place cfg next).phase = .granted ∨
      (∃ d, a = .saved d ∧ (place cfg next).phase = .parked d) ∨
      a = .parked c ∧ (place cfg next).phase = .plain
  | .incCount next => a = .plain ∧ (place cfg next).phase = .granted
  | .decCount zero more =>
      a = .plain ∧ (place cfg zero).phase = .dropped ∧ (place cfg more).phase = .returned
  | .readOwner free mine other =>
      (place cfg free).phase = a ∧ (place cfg mine).phase = a ∧ (place cfg other).phase = a
  | .signal _ _ next => (place cfg next).phase = a ∨ a = .gone ∧ (place cfg next).phase = .returned
  | .readWaiters zero more =>
      ((place cfg zero).phase = a ∨ a = .gone ∧ (place cfg zero).phase = .returned) ∧
        (place cfg more).phase = a
  | c => c.All cfg fun n => (place cfg n).phase = a

theorem phase_next (cfg : Config) (p : Pc) : (code cfg p).PhaseOk cfg (place cfg p).phase := by
  cases p with
  | idle =>
      refine ⟨rfl, fun k b => ?_⟩
      cases k <;> simp only [entry] <;> (try split_ifs) <;> simp [place]
  | acquired nb locked | relock nb timed locked =>
      cases nb <;> simp only [code, leave, lockCall] <;> (try split_ifs) <;>
        simp_all [Code.PhaseOk, Code.All, place, retPhase]
  | _ =>
      simp only [code, leave]
      (try split_ifs) <;> simp_all [Code.PhaseOk, Code.All, place, retPhase]

/-! ### sleeping, releasing, waking -/

/-- What an access does to the role of the thread: only a thread that finds the mutex taken turns
sleepy, one that frees it turns releasing, a woken one stays pending until it tries the mutex. -/
def Code.RoleOk (cfg : Config) (a : Role) : Code → Prop
  | .readOwner free _ _ =>
      (a = .none ∧ (place cfg free).role ≠ .sleepy) ∨ a = .pending ∧ (place cfg free).role = .pending
  | .casOwner _ _ | .setOwner _ => a = .none ∨ a = .pending
  | .clearOwner next => (place cfg next).role = .releasing
  | .readWaiters zero more => (place cfg zero).role ≠ .sleepy ∧ (place cfg more).role = .releasing
  | .signal .cv _ next => (place cfg next).role ≠ .sleepy
  | .asleep .cv _ next => ∀ out, (place cfg (next out)).role = .pending
  | c => c.All cfg fun n => (place cfg n).role = a

theorem role_next (cfg : Config) (p : Pc) : (code cfg p).RoleOk cfg (place cfg p).role := by
  cases p with
  | idle =>
      intro k b
      cases k <;> simp only [entry] <;> (try split_ifs) <;> simp [place]
  | _ =>
      simp only [code, leave]
      (try split_ifs) <;> simp_all [Code.RoleOk, Code.All, place, woken_cases]

theorem sleepsOn_of_sleepy (p : Pc) (h : (place cfg p).role = .sleepy)
    (hl : (place cfg p).locked = false) : sleepsOn cfg .cv p = true := by
  cases p <;> simp_all [place, sleepsOn, code]

/-- In the atomic scheme a sleepy thread is counted in `waiters`. -/
theorem counted_of_sleepy (p : Pc) (h : (place cfg p).role = .sleepy)
    (hs : (place cfg p).InScheme cfg) (ha : cfg.legacy = false) :
    (place cfg p).counted = true := by
  cases p <;> simp_all [place, Place.InScheme]

/-! ### the legacy test under the lock -/

/-- A thread sets the owner word only where it read it free, and it gets there by reading it so. -/
def Code.SawFreeOk (cfg : Config) (a : Bool) : Code → Prop
  | .readOwner _ mine other =>
      (place cfg mine).sawFree = false ∧ (place cfg other).sawFree = false
  | .setOwner next => a = true ∧ (place cfg next).sawFree = false
  | c => c.All cfg fun n => (place cfg n).sawFree = false

theorem sawFree_next (cfg : Config) (p : Pc) : (code cfg p).SawFreeOk cfg (place cfg p).sawFree := by
  cases p with
  | idle =>
      intro k b
      cases k <;> simp only [entry] <;> (try split_ifs) <;> simp [place]
  | _ =>
      simp only [code, leave]
      (try split_ifs) <;> simp_all [Code.SawFreeOk, Code.All, place]

theorem of_sawFree (p : Pc) (h : (place cfg p).sawFree = true) :
    (place cfg p).locked = true ∧ (place cfg p).only = some true := by
  cases p <;> simp_all [place]

/-! ### what a wake-up keeps -/

theorem place_wake (p : Pc) :
    (place cfg (wake cfg p)).only = (place cfg p).only ∧
      (place cfg (wake cfg p)).locked = (place cfg p).locked ∧
      (place cfg (wake cfg p)).counted = (place cfg p).counted ∧
      (place cfg (wake cfg p)).owns = (place cfg p).owns ∧
      (place cfg (wake cfg p)).phase = (place cfg p).phase ∧
      (place cfg (wake cfg p)).sawFree = (place cfg p).sawFree := by
  cases p <;> simp only [wake, code] <;> (try split_ifs) <;> simp [place]

/-- A sleeper on `m->cv` is sleepy, and pending once it is woken. -/
theorem role_wake_cv (p : Pc) (h : sleepsOn cfg .cv p = true) :
    (place cfg p).role = .sleepy ∧ (place cfg (wake cfg p)).role = .pending := by
  cases p <;> simp only [sleepsOn, wake, code] at h ⊢ <;> (try split_ifs at h) <;>
    simp_all [place]

/-- A sleeper on `cn->host_cond` does not wait for the mutex, woken or not. -/
theorem role_wake_host (p : Pc) (h : sleepsOn cfg .host p = true) :
    (place cfg (wake cfg p)).role = (place cfg p).role := by
  cases p <;> simp only [sleepsOn, wake, code] at h ⊢ <;> (try split_ifs at h) <;>
    simp_all [place]

theorem owns_of_phase (cfg : Config) (p : Pc) (h : (place cfg p).phase = .granted ∨
    (place cfg p).phase = .dropped ∨ ∃ d, (place cfg p).phase = .saved d) :
    (place cfg p).owns = some true := by
  cases p with
  | ret k r | unlk k r =>
      cases k <;> cases r <;> simp_all [place, retPhase, retOwns]
  | sleepLeave got | sleepUnlk got => cases got <;> simp_all [place]
  | _ => simp_all [place]

theorem owns_of_gone (p : Pc) (h : (place cfg p).phase = .gone) :
    (place cfg p).owns = some false := by
  cases p with
  | ret k r | unlk k r =>
      cases k <;> cases r <;> simp_all [place, retPhase]
  | sleepLeave got | sleepUnlk got => cases got <;> simp_all [place]
  | _ => simp_all [place]

end PS4Recomp.Runtime
