import PS4Recomp.Runtime.Equeue
import PS4Recomp.Runtime.EventFlag
import PS4Recomp.Runtime.KernelSema

/-!
# Threads blocked on deleted objects

Kernel semaphores, event flags and event queues live in slots that are used again.  A thread that blocks
keeps a pointer to the slot, and what it looks at when it wakes — a magic number, a deleted mark — is
restored by the next object of the slot.

* `semaKind`, `EventFlag.evfKind` — semaphores and event flags as objects of a table, whose creation
  and deletion take several sections;
* `EqTable`, `EqTableAct`, `eqExec`, `eqTableSystem` — event queues, created and deleted under the lock of
  the table; `EqDrained`, `EqHonest` — as for the other two;
* **`deletedWaiters_return`** — where a new object takes a slot only after everybody blocked there has
  returned, a thread whose object is deleted is woken, and returns an error;
* `deletedWaiters_resurrect` — without this each of the three lets a thread take from another object.

Destroying a mutex or a condition variable and making it again changes nothing for the threads that
still use it.
-/

namespace PS4Recomp.Runtime.DeletedWaiters

open Library Library.Transition KernelSema EventFlag Equeue

/-! ### semaphores -/

/-- The arguments of `sceKernelCreateSema`. -/
structure SemaArgs where
  hasSem : Bool
  hasName : Bool
  attr : BitVec 32
  initCount : BitVec 32
  maxCount : BitVec 32
  deriving DecidableEq

theorem recheck_magic (k : RecompKernelSema) (n : BitVec 32) :
    (k.recheck n).2.magic = k.magic ∧ ((k.recheck n).1 = none → k.magic = ksemMagic) := by
  unfold RecompKernelSema.recheck
  split
  · rename_i h
    exact ⟨rfl, fun _ => h.1⟩
  · split
    · exact ⟨rfl, fun h => (nomatch h)⟩
    · exact ⟨rfl, fun h => (nomatch h)⟩

theorem enter_magic (k : RecompKernelSema) (op : SemaOp) :
    (k.enter op).2.magic = k.magic ∧ ((k.enter op).1 = none → k.magic = ksemMagic) := by
  cases op with
  | signal n =>
      rcases k.enter_signal n with ⟨heq, -⟩ | ⟨heq, -⟩
      · rw [heq]
        exact ⟨rfl, fun h => (nomatch h)⟩
      · rw [heq]
        exact ⟨rfl, fun h => (nomatch h)⟩
  | cancel n => exact ⟨rfl, fun h => (nomatch h)⟩
  | poll n =>
      refine ⟨?_, fun h => (nomatch h)⟩
      show (k.poll n).2.magic = k.magic
      unfold RecompKernelSema.poll
      split
      · rfl
      · rfl
  | wait n timeout =>
      show (k.wait n timeout).2.magic = k.magic ∧ ((k.wait n timeout).1 = none → k.magic = ksemMagic)
      unfold RecompKernelSema.wait
      split
      · exact ⟨rfl, fun h => (nomatch h)⟩
      · split
        · exact ⟨rfl, fun h => (nomatch h)⟩
        · exact recheck_magic { k with numWaiters := k.numWaiters + 1 } n

theorem resume_magic (k : RecompKernelSema) (w : SemaWait) (timedOut : Bool) :
    (k.resume w timedOut).2.magic = k.magic ∧
      ((k.resume w timedOut).1 = none → k.magic = ksemMagic) := by
  unfold RecompKernelSema.resume
  split
  · exact ⟨rfl, fun h => (nomatch h)⟩
  · exact recheck_magic k w.needCount

/-- A blocked thread that finds the magic gone fails, and the counter stays. -/
theorem resume_dead (k : RecompKernelSema) (w : SemaWait) (timedOut : Bool) (h : k.magic ≠ ksemMagic) :
    ∃ r k', k.resume w timedOut = (some r, k') ∧ r.code ≠ 0 ∧ k'.currentCount = k.currentCount := by
  have htimed : KernelSema.etimedout ≠ 0 := by decide
  have hesrch : esrch ≠ 0 := by decide
  unfold RecompKernelSema.resume
  split
  · exact ⟨_, _, rfl, htimed, rfl⟩
  · unfold RecompKernelSema.recheck
    rw [if_neg (fun e => h e.1), if_pos h]
    exact ⟨_, _, rfl, hesrch, rfl⟩

/-- Semaphores in `g_ksem_table`. -/
def semaKind : TableKind RecompKernelSema SemaArgs SemaOp SemaWait SemaRet where
  size := 1024
  empty := {}
  used k := k.inUse
  alive k := k.magic == ksemMagic
  claim k := { k with inUse := true }
  init k args := k.create args.attr args.initCount args.maxCount
  kill k := { k with magic := 0 }
  release k := { k with inUse := false }
  enter := RecompKernelSema.enter
  resume := RecompKernelSema.resume
  sleeper := SemaOp.sleeper
  timed w := w.hasTimeout
  createRefused args :=
    if createInvalid args.hasSem args.hasName args.attr args.initCount args.maxCount then
      some { code := KernelSema.einval }
    else none
  opRefused op := if op.invalid then some { code := KernelSema.einval } else none
  full := { code := KernelSema.enfile }
  missing := { code := esrch }
  done := { code := 0 }
  alive_claim _ := rfl
  alive_kill _ := rfl
  alive_release _ := rfl
  alive_enter k op := by rw [(enter_magic k op).1]
  alive_resume k w timedOut := by rw [(resume_magic k w timedOut).1]
  enter_sleeps k op h := beq_iff_eq.2 ((enter_magic k op).2 h)
  resume_sleeps k w timedOut h := beq_iff_eq.2 ((resume_magic k w timedOut).2 h)

/-! ### event queues -/

/-- The section of a call on a queue; the number of a post is not used here. -/
def eqEnter (eq : KernelEqueueInternal) : EqOp → Option EqRet × KernelEqueueInternal
  | .postEvent c =>
      let r := eq.post 0 c.ident c.filter c.data c.udata
      (some { code := r.1 }, r.2)
  | .triggerEvent c =>
      let r := eq.trigger 0 c.ident c.filter c.data c.udata
      (some { code := r.1 }, r.2)
  | .triggerUserEvent ident udata =>
      let c := userCall ident udata
      let r := eq.post 0 c.ident c.filter c.data c.udata
      (some { code := r.1 }, r.2)
  | .addUserEvent _ | .addUserEventEdge _ => (some { code := 0 }, eq)
  | .removeEvents ident filter =>
      (some { code := 0 }, eq.remove (KernelEqueueInternal.dropsEvents ident filter))
  | .deleteUserEvent ident => (some { code := 0 }, eq.remove (KernelEqueueInternal.dropsUser ident))
  | .wait numEvents _ timeout => eq.wait numEvents timeout

/-- What a call returns before it looks for the queue. -/
def opRefused : EqOp → Option EqRet
  | .wait numEvents hasOut _ =>
      if numEvents.sle 0 then some { code := Equeue.einval }
      else if hasOut then none else some { code := efault }
  | _ => none

/-- What a call returns when there is no such queue. -/
def opMissing : EqOp → EqRet
  | .postEvent _ | .triggerEvent _ | .triggerUserEvent _ _ | .removeEvents _ _ => { code := negEinval }
  | _ => { code := ebadf }

/-- Where the thread blocks when the call does not return. -/
def opSleeper : EqOp → Option EqWait
  | .wait numEvents _ timeout => some ⟨numEvents, timeout.isSome⟩
  | _ => none

/-- `MAX_EQUEUES`. -/
def maxEqueues : ℕ := 128

/-- `-ENOMEM`. -/
def negEnomem : BitVec 32 := -12

section Machine

variable {T : Type*}

/-- The queues, the next id, and what the last step returned. -/
structure EqTable (T : Type*) where
  slots : Slots KernelEqueueInternal EqWait T
  nextEqId : BitVec 32 := 1
  ret : Option EqRet := none

/-- The steps.  `wake` is a signal, a broadcast or a wake-up without cause. -/
inductive EqTableAct (T : Type*) where
  | create (t : T) (slot : Option ℕ) (hasOut : Bool)
  | delete (t : T) (id : BitVec 32)
  | call (t : T) (id : BitVec 32) (op : EqOp)
  | wake (t : T) | resume (t : T) (timedOut : Bool)

/-- `find_equeue_locked`. -/
def findEqueue (s : Slots KernelEqueueInternal EqWait T) (id : BitVec 32) : Option ℕ :=
  if id.sle 0 then none
  else (List.range maxEqueues).find? fun i => (s.record i).inUse && (s.record i).id == id

/-- The first slot not in use, or none. -/
def IsFirstFree (s : Slots KernelEqueueInternal EqWait T) : Option ℕ → Prop
  | some i => i < maxEqueues ∧ (s.record i).inUse = false ∧ ∀ j < i, (s.record j).inUse = true
  | none => ∀ j < maxEqueues, (s.record j).inUse = true

instance (s : Slots KernelEqueueInternal EqWait T) : ∀ slot, Decidable (IsFirstFree s slot)
  | some _ => inferInstanceAs (Decidable (_ ∧ _ ∧ _))
  | none => inferInstanceAs (Decidable (∀ j < maxEqueues, _))

variable [DecidableEq T]

/-- A step; `none` where it is not possible. -/
def eqExec (s : EqTable T) : EqTableAct T → Option (EqTable T)
  | .create t slot hasOut =>
      if s.slots.blocked t ≠ none then none
      else if !hasOut then some { s with ret := some { code := negEinval } }
      else if IsFirstFree s.slots slot then
        match slot with
        | some i =>
            some { s with
              slots := s.slots.create i ((s.slots.record i).create s.nextEqId)
              nextEqId := s.nextEqId + 1, ret := some { code := 0 } }
        | none => some { s with ret := some { code := negEnomem } }
      else none
  | .delete t id =>
      if s.slots.blocked t ≠ none then none
      else match findEqueue s.slots id with
      | some i =>
          some { s with
            slots := s.slots.kill i { s.slots.record i with isDeleted := true, inUse := false }
            ret := some { code := 0 } }
      | none => some { s with ret := some { code := negEinval } }
  | .call t id op =>
      if s.slots.blocked t ≠ none then none
      else match opRefused op with
      | some r => some { s with ret := some r }
      | none =>
          match findEqueue s.slots id with
          | none => some { s with ret := some (opMissing op) }
          | some i =>
              let (r, eq) := eqEnter (s.slots.record i) op
              match r, opSleeper op with
              | some r, _ => some { s with slots := s.slots.write i eq, ret := some r }
              | none, some w =>
                  some { s with
                    slots := (s.slots.write i eq).sleep t ⟨i, s.slots.object i, w, false⟩, ret := none }
              | none, none => none
  | .wake t => some { s with slots := s.slots.wake t }
  | .resume t timedOut =>
      match s.slots.blocked t with
      | some b =>
          if b.woken || (timedOut && b.request.hasTimeout) then
            let (r, eq) := (s.slots.record b.slot).resume b.request timedOut
            match r with
            | some r =>
                some { s with slots := (s.slots.write b.slot eq).leave t, ret := some r }
            | none =>
                some { s with
                  slots := (s.slots.write b.slot eq).sleep t { b with woken := false }, ret := none }
          else none
      | none => none

/-- All interleavings, from a table of slots not in use. -/
def eqTableSystem (T : Type*) [DecidableEq T] : System (EqTable T) (EqTableAct T) where
  init s := ∃ record, (∀ i, (record i : KernelEqueueInternal).inUse = false) ∧
    s = { slots := { record } }
  step s a s' := eqExec s a = some s'

omit [DecidableEq T] in
/-- A queue is made only in a slot where nobody is blocked. -/
def EqDrained (s : EqTable T) : EqTableAct T → Prop
  | .create _ (some i) _ => s.slots.Drained i
  | _ => True

/-- A thread blocked on a deleted queue is woken, and returns an error when it runs; no ring changes. -/
def EqHonest (s : EqTable T) : Prop :=
  ∀ t b, s.slots.blocked t = some b → s.slots.Gone b → b.woken = true ∧
    ∀ timedOut, ∃ s' r, eqExec s (.resume t timedOut) = some s' ∧ s'.ret = some r ∧ r.code ≠ 0 ∧
      ∀ i, (s'.slots.record i).toRingBuffer = (s.slots.record i).toRingBuffer

/-! ### the sections and the deleted mark -/

/-- The deleted mark stays, and only a thread that does not see it sleeps. -/
def KeepsMark (eq : KernelEqueueInternal) (r : Option EqRet × KernelEqueueInternal) : Prop :=
  r.2.isDeleted = eq.isDeleted ∧ (r.1 = none → eq.isDeleted = false)

theorem append_isDeleted (eq : KernelEqueueInternal) (e : OrbisKernelEvent) :
    (eq.append e).isDeleted = eq.isDeleted := by
  unfold KernelEqueueInternal.append
  split
  · rfl
  · rfl

theorem finish_isDeleted (eq : KernelEqueueInternal) (n : BitVec 32) :
    (eq.finish n).2.isDeleted = eq.isDeleted := by
  unfold KernelEqueueInternal.finish
  split
  · rfl
  · rfl

theorem recheck_keepsMark (eq : KernelEqueueInternal) (n : BitVec 32) :
    KeepsMark eq (eq.recheck n) := by
  unfold KernelEqueueInternal.recheck
  split
  · rename_i h
    exact ⟨rfl, fun _ => Bool.eq_false_iff.2 h.2⟩
  · exact ⟨finish_isDeleted eq n, fun h => (nomatch h)⟩

theorem eqEnter_keepsMark (eq : KernelEqueueInternal) (op : EqOp) : KeepsMark eq (eqEnter eq op) := by
  have hpost : ∀ c : PostCall,
      (eq.post 0 c.ident c.filter c.data c.udata).2.isDeleted = eq.isDeleted := by
    intro c
    unfold KernelEqueueInternal.post
    split
    · rfl
    · exact append_isDeleted eq _
  cases op with
  | postEvent c => exact ⟨hpost c, fun h => (nomatch h)⟩
  | triggerUserEvent ident udata => exact ⟨hpost (userCall ident udata), fun h => (nomatch h)⟩
  | triggerEvent c =>
      refine ⟨?_, fun h => (nomatch h)⟩
      show (eq.trigger 0 c.ident c.filter c.data c.udata).2.isDeleted = eq.isDeleted
      unfold KernelEqueueInternal.trigger
      split
      · rfl
      · split
        · rfl
        · exact append_isDeleted eq _
  | addUserEvent ident => exact ⟨rfl, fun h => (nomatch h)⟩
  | addUserEventEdge ident => exact ⟨rfl, fun h => (nomatch h)⟩
  | removeEvents ident filter => exact ⟨rfl, fun h => (nomatch h)⟩
  | deleteUserEvent ident => exact ⟨rfl, fun h => (nomatch h)⟩
  | wait n hasOut timeout =>
      show KeepsMark eq (eq.wait n timeout)
      unfold KernelEqueueInternal.wait
      split
      · exact ⟨rfl, fun h => (nomatch h)⟩
      · split
        · exact ⟨rfl, fun h => (nomatch h)⟩
        · exact recheck_keepsMark eq n

theorem eqResume_keepsMark (eq : KernelEqueueInternal) (w : EqWait) (timedOut : Bool) :
    KeepsMark eq (eq.resume w timedOut) := by
  unfold KernelEqueueInternal.resume
  split
  · exact ⟨finish_isDeleted eq w.numEvents, fun h => (nomatch h)⟩
  · exact recheck_keepsMark eq w.numEvents

/-- A blocked thread that finds the deleted mark fails, and takes nothing. -/
theorem eqResume_dead (eq : KernelEqueueInternal) (w : EqWait) (timedOut : Bool)
    (h : eq.isDeleted = true) : eq.resume w timedOut = (some { code := ebadf }, eq) := by
  have hfinish : eq.finish w.numEvents = ({ code := ebadf }, eq) := by
    unfold KernelEqueueInternal.finish
    rw [if_pos h]
  unfold KernelEqueueInternal.resume
  split
  · rw [hfinish]
    rfl
  · unfold KernelEqueueInternal.recheck
    rw [if_neg (fun e => e.2 h), hfinish]
    rfl

/-! ### the invariant of the queues -/

variable {s s' : EqTable T} {t : T}

/-- A queue's record is alive until it is deleted. -/
def eqAlive (eq : KernelEqueueInternal) : Bool := !eq.isDeleted

/-- **Step.**  Where new queues take drained slots, every step keeps the invariant. -/
theorem eqInv_exec {a : EqTableAct T} (h : s.slots.Inv eqAlive) (hok : EqDrained s a)
    (hs : eqExec s a = some s') : s'.slots.Inv eqAlive := by
  have hkeep : ∀ i (r : Option EqRet × KernelEqueueInternal), KeepsMark (s.slots.record i) r →
      (s.slots.write i r.2).Inv eqAlive := fun i r hr => h.write fun hi => by
    rw [eqAlive, hr.1]
    exact hi
  have halive : ∀ i (r : Option EqRet × KernelEqueueInternal), KeepsMark (s.slots.record i) r →
      r.1 = none → eqAlive ((s.slots.write i r.2).record i) = true := by
    intro i r hr hnone
    show eqAlive (Function.update s.slots.record i r.2 i) = true
    rw [Function.update_self, eqAlive, hr.1, hr.2 hnone]
    rfl
  cases a with
  | create t slot hasOut =>
      simp only [eqExec] at hs
      split at hs
      · cases hs
      · split at hs
        · cases hs
          exact h
        · split at hs
          · split at hs
            · cases hs
              exact h.create hok
            · cases hs
              exact h
          · cases hs
  | delete t id =>
      simp only [eqExec] at hs
      split at hs
      · cases hs
      · split at hs
        · cases hs
          exact h.kill rfl
        · cases hs
          exact h
  | call t id op =>
      simp only [eqExec] at hs
      split at hs
      · cases hs
      · split at hs
        · cases hs
          exact h
        · split at hs
          · cases hs
            exact h
          · rename_i i _
            have hmark := eqEnter_keepsMark (s.slots.record i) op
            split at hs
            · cases hs
              exact hkeep i _ hmark
            · rename_i hnone _
              cases hs
              exact (hkeep i _ hmark).sleep rfl (halive i _ hmark hnone)
            · cases hs
  | wake t =>
      cases hs
      exact h.wake
  | resume t timedOut =>
      simp only [eqExec] at hs
      split at hs
      · rename_i b hb
        have hmark := eqResume_keepsMark (s.slots.record b.slot) b.request timedOut
        split at hs
        · split at hs
          · cases hs
            exact (hkeep b.slot _ hmark).leave
          · rename_i hnone
            cases hs
            exact (hkeep b.slot _ hmark).sleep (h.own t b hb) (halive b.slot _ hmark hnone)
        · cases hs
      · cases hs

/-- **Runs.** -/
theorem eqInv_reachable (h : Reachable ((eqTableSystem T).restrict EqDrained) s) :
    s.slots.Inv eqAlive := by
  refine Reachable.invariant (P := fun s => s.slots.Inv eqAlive) (fun s hs => ?_)
    (fun s a s' _ hi (hs : EqDrained s a ∧ eqExec s a = some s') => eqInv_exec hi hs.1 hs.2) h
  obtain ⟨record, -, rfl⟩ : ∃ record, _ ∧ s = { slots := { record } } := hs
  exact ⟨fun _ hdel => (nomatch hdel), fun _ _ hb => (nomatch hb), fun _ _ hb => (nomatch hb)⟩

theorem eqHonest_reachable (h : Reachable ((eqTableSystem T).restrict EqDrained) s) : EqHonest s := by
  intro t b hb hg
  obtain ⟨hwoken, halive⟩ := (eqInv_reachable h).gone hb hg
  have hdel : (s.slots.record b.slot).isDeleted = true := by simpa [eqAlive] using halive
  have hebadf : ebadf ≠ 0 := by decide
  refine ⟨hwoken, fun timedOut => ?_⟩
  refine ⟨{ s with
    slots := (s.slots.write b.slot (s.slots.record b.slot)).leave t, ret := some { code := ebadf } },
    { code := ebadf }, ?_, rfl, hebadf, fun i => ?_⟩
  · simp only [eqExec, hb, hwoken, Bool.true_or, if_true, eqResume_dead _ _ _ hdel]
  · show (Function.update s.slots.record b.slot (s.slots.record b.slot) i).toRingBuffer = _
    rw [Function.update_eq_self]

end Machine

/-! ### the three kinds -/

/-- **Deleted objects.**  In every run in which a new semaphore, event flag or event queue takes a slot
only when nobody is blocked there, a thread whose object was deleted is woken and, when it runs, returns
an error; no count, pattern or ring changes by it. -/
theorem deletedWaiters_return (T : Type*) [DecidableEq T] :
    (∀ s, Reachable ((semaKind.system T).restrict TableKind.Drained) s →
      TableKind.Honest semaKind (·.currentCount) (·.code ≠ 0) s) ∧
    (∀ s, Reachable ((evfKind.system T).restrict TableKind.Drained) s →
      TableKind.Honest evfKind (·.pattern) (·.code ≠ 0) s) ∧
    ∀ s, Reachable ((eqTableSystem T).restrict EqDrained) s → EqHonest s := by
  refine ⟨fun s h => ?_, fun s h => ?_, fun s h => eqHonest_reachable h⟩
  · exact TableKind.honest_reachable
      (fun k w timedOut hdead => resume_dead k w timedOut (by simpa [semaKind] using hdead)) h
  · exact TableKind.honest_reachable
      (fun f w timedOut hdead => f.resume_dead w timedOut (by simpa [evfKind] using hdead)) h

/-! ### runs -/

/-- A thread waits on a new semaphore, and the semaphore is deleted. -/
def deleteRun : List (TableAct Bool SemaArgs SemaOp) :=
  [.create false (some 1) ⟨true, true, 1, 0, 5⟩, .init false, .call true 1 (.wait 1 none), .enter true,
    .delete false 1, .kill false, .free false]

theorem deletedWaiters_return_deleteRun :
    ∃ s : TableState RecompKernelSema SemaArgs SemaOp SemaWait SemaRet Bool,
      execAll (guarded TableKind.Drained semaKind.exec)
        { slots := { record := fun _ => {} } } deleteRun = some s ∧
      s.slots.blocked true = some ⟨1, 1, ⟨1, false⟩, true⟩ ∧ s.slots.deleted 1 = true ∧
      TableKind.Honest semaKind (·.currentCount) (·.code ≠ 0) s := by
  obtain ⟨s, hs⟩ : ∃ s, execAll (guarded TableKind.Drained semaKind.exec)
      ({ slots := { record := fun _ => {} } } : TableState _ _ _ _ _ Bool) deleteRun = some s :=
    Option.isSome_iff_exists.1 (by decide)
  have hreach : Reachable ((semaKind.system Bool).restrict TableKind.Drained) s :=
    Reachable.guarded (fun _ _ _ hstep => hstep) deleteRun (.init rfl) hs
  have hfields : (execAll (guarded TableKind.Drained semaKind.exec)
      ({ slots := { record := fun _ => {} } } : TableState _ _ _ _ _ Bool) deleteRun).map
      (fun s => (s.slots.blocked true, s.slots.deleted 1)) =
      some (some ⟨1, 1, ⟨1, false⟩, true⟩, true) := by decide
  rw [hs] at hfields
  obtain ⟨hblocked, hdeleted⟩ := Prod.mk.inj (Option.some.inj hfields)
  exact ⟨s, hs, hblocked, hdeleted, (deletedWaiters_return Bool).1 s hreach⟩

/-- The slot is used again before the waiter runs. -/
def reuseRun : List (TableAct Bool SemaArgs SemaOp) :=
  deleteRun ++ [.create false (some 1) ⟨true, true, 1, 1, 5⟩, .init false]

/-- The same with an event flag. -/
def evfReuseRun : List (TableAct Bool EvfArgs EvfOp) :=
  [.create false (some 1) ⟨true, 0, 0⟩, .init false, .call true 1 (.wait 1 0x12 none), .enter true,
    .delete false 1, .kill false, .free false, .create false (some 1) ⟨true, 0, 3⟩, .init false]

/-- The same with a queue; its second object gets an event. -/
def eqReuseRun : List (EqTableAct Bool) :=
  [.create false (some 0) true, .call true 1 (.wait 1 true none), .delete false 1,
    .create false (some 0) true, .call false 2 (.triggerUserEvent 7 0)]

theorem sema_resurrects : ¬ ∀ s, Reachable (semaKind.system Bool) s →
    TableKind.Honest semaKind (·.currentCount) (·.code ≠ 0) s := by
  intro hall
  obtain ⟨s, hs⟩ : ∃ s, execAll semaKind.exec
      ({ slots := { record := fun _ => {} } } : TableState _ _ _ _ _ Bool) reuseRun = some s :=
    Option.isSome_iff_exists.1 (by decide)
  have hreach : Reachable (semaKind.system Bool) s :=
    Reachable.execAll (fun _ _ _ hstep => hstep) reuseRun (.init rfl) hs
  have hfields : (execAll semaKind.exec
      ({ slots := { record := fun _ => {} } } : TableState _ _ _ _ _ Bool) reuseRun).map
      (fun s => (s.slots.blocked true, s.slots.object 1,
        (semaKind.exec s (.resume true false)).map (·.ret))) =
      some (some ⟨1, 1, ⟨1, false⟩, true⟩, 2, some (some { code := 0 })) := by decide
  rw [hs] at hfields
  obtain ⟨hblocked, hrest⟩ := Prod.mk.inj (Option.some.inj hfields)
  obtain ⟨hobject, hret⟩ := Prod.mk.inj hrest
  have hgone : s.slots.Gone (⟨1, 1, ⟨1, false⟩, true⟩ : Blocked SemaWait) :=
    .inl (by show 1 ≠ s.slots.object 1; rw [hobject]; decide)
  exact TableKind.Honest.failed (hall s hreach) hblocked hgone hret rfl

theorem evf_resurrects : ¬ ∀ s, Reachable (evfKind.system Bool) s →
    TableKind.Honest evfKind (·.pattern) (·.code ≠ 0) s := by
  intro hall
  obtain ⟨s, hs⟩ : ∃ s, execAll evfKind.exec
      ({ slots := { record := fun _ => {} } } : TableState _ _ _ _ _ Bool) evfReuseRun = some s :=
    Option.isSome_iff_exists.1 (by decide)
  have hreach : Reachable (evfKind.system Bool) s :=
    Reachable.execAll (fun _ _ _ hstep => hstep) evfReuseRun (.init rfl) hs
  have hfields : (execAll evfKind.exec
      ({ slots := { record := fun _ => {} } } : TableState _ _ _ _ _ Bool) evfReuseRun).map
      (fun s => (s.slots.blocked true, s.slots.object 1,
        (evfKind.exec s (.resume true false)).map (·.ret))) =
      some (some ⟨1, 1, ⟨1, 0x12, false⟩, true⟩, 2,
        some (some { code := 0, resultPattern := some 3 })) := by decide
  rw [hs] at hfields
  obtain ⟨hblocked, hrest⟩ := Prod.mk.inj (Option.some.inj hfields)
  obtain ⟨hobject, hret⟩ := Prod.mk.inj hrest
  have hgone : s.slots.Gone (⟨1, 1, ⟨1, 0x12, false⟩, true⟩ : Blocked EvfWait) :=
    .inl (by show 1 ≠ s.slots.object 1; rw [hobject]; decide)
  exact TableKind.Honest.failed (hall s hreach) hblocked hgone hret rfl

theorem eq_resurrects : ¬ ∀ s, Reachable (eqTableSystem Bool) s → EqHonest s := by
  intro hall
  obtain ⟨s, hs⟩ : ∃ s, execAll eqExec
      ({ slots := { record := fun _ => firstSlot } } : EqTable Bool) eqReuseRun = some s :=
    Option.isSome_iff_exists.1 (by decide)
  have hreach : Reachable (eqTableSystem Bool) s :=
    Reachable.execAll (fun _ _ _ hstep => hstep) eqReuseRun
      (.init ⟨fun _ => firstSlot, fun _ => rfl, rfl⟩) hs
  have hfields : (execAll eqExec
      ({ slots := { record := fun _ => firstSlot } } : EqTable Bool) eqReuseRun).map
      (fun s => (s.slots.blocked true, s.slots.object 0,
        (eqExec s (.resume true false)).map fun s' => s'.ret.map (·.code))) =
      some (some ⟨0, 1, ⟨1, false⟩, true⟩, 2, some (some 0)) := by decide
  rw [hs] at hfields
  obtain ⟨hblocked, hrest⟩ := Prod.mk.inj (Option.some.inj hfields)
  obtain ⟨hobject, hret⟩ := Prod.mk.inj hrest
  have hgone : s.slots.Gone (⟨0, 1, ⟨1, false⟩, true⟩ : Blocked EqWait) :=
    .inl (by show 1 ≠ s.slots.object 0; rw [hobject]; decide)
  obtain ⟨-, hresume⟩ := hall s hreach true _ hblocked hgone
  obtain ⟨s', r, hexec, hr, hfailed, -⟩ := hresume false
  rw [hexec] at hret
  have hcode : s'.ret.map (·.code) = some 0 := Option.some.inj hret
  rw [hr] at hcode
  exact hfailed (Option.some.inj hcode)

/-- Each of the three kinds lets a waiter of a deleted object take from the next one. -/
theorem deletedWaiters_resurrect :
    (¬ ∀ s, Reachable (semaKind.system Bool) s →
      TableKind.Honest semaKind (·.currentCount) (·.code ≠ 0) s) ∧
    (¬ ∀ s, Reachable (evfKind.system Bool) s →
      TableKind.Honest evfKind (·.pattern) (·.code ≠ 0) s) ∧
    ¬ ∀ s, Reachable (eqTableSystem Bool) s → EqHonest s :=
  ⟨sema_resurrects, evf_resurrects, eq_resurrects⟩

end PS4Recomp.Runtime.DeletedWaiters
