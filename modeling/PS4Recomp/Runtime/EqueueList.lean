import PS4Recomp.Runtime.Equeue

/-!
# Event queues as lists

The ring of `ps4_equeue.c` against the list of its pending events.

* `QueueAct`, `queueExec`, `queueSystem` — the calls on one queue slot, with those that create and delete
  the queue in it;
* `EqueueList` — a queue as a list, `EqState.view` — the one that a ring stands for;
* `postList`, `triggerList`, `EqueueList.wait`, `listExec` — the calls on lists;
* `post_view`, `trigger_view`, `wait_view` — the sections of a call and the list;
* **`equeue_refines_list`** — in every reachable state head, tail and count agree modulo the capacity,
  and whatever calls follow do to the list what `listExec` says.
-/

namespace PS4Recomp.Runtime.Equeue

open Library Library.Transition

/-! ### the slot -/

/-- The steps on a queue slot: the calls of `EqAct`, and those that delete and create its queue. -/
inductive QueueAct (T : Type*) where
  | act (a : EqAct T)
  | delete
  | create (id : BitVec 32)

section Slot

variable {T : Type*} [DecidableEq T]

/-- A step; `none` where it is not possible.  A queue is created in a slot that is not in use. -/
def queueExec (s : EqState T) : QueueAct T → Option (EqState T)
  | .act a => exec s a
  | .delete =>
      if !s.eq.inUse then some (s.answer negEinval)
      else some { s with eq := { s.eq with isDeleted := true, inUse := false }, ret := some { code := 0 } }
  | .create id => if s.eq.inUse then none else some { s with eq := s.eq.create id, ret := some { code := 0 } }

/-- All interleavings of calls on one slot. -/
def queueSystem (T : Type*) [DecidableEq T] : System (EqState T) (QueueAct T) where
  init s := ∃ slot id, s = .start slot id
  step s a s' := queueExec s a = some s'

end Slot

/-! ### lists -/

/-- A queue as the list of its pending events; `calls` counts the posts and triggers that returned 0. -/
@[ext]
structure EqueueList (T : Type*) where
  pending : List OrbisKernelEvent
  inUse : Bool
  isDeleted : Bool
  calls : ℕ
  ret : Option EqRet
  asleep : T → Option EqWait

/-- The list that a ring stands for. -/
def EqState.view {T : Type*} (s : EqState T) : EqueueList T where
  pending := s.eq.pending
  inUse := s.eq.inUse
  isDeleted := s.eq.isDeleted
  calls := s.calls.length
  ret := s.ret
  asleep := s.asleep

/-- An event at the end of a list that is not full. -/
def postList (l : List OrbisKernelEvent) (e : OrbisKernelEvent) : List OrbisKernelEvent :=
  if l.length < equeueCapacity then l ++ [e] else l

/-- The event of a post or trigger. -/
def eventOf (c : PostCall) (fflags : BitVec 32) (call : ℕ) : OrbisKernelEvent :=
  { ident := c.ident, filter := c.filter, flags := 0, fflags, data := c.data, udata := c.udata, call }

/-- A trigger: in the place of the first pending event of its identity, or at the end. -/
def triggerList (l : List OrbisKernelEvent) (c : PostCall) (call : ℕ) : List OrbisKernelEvent :=
  (replaceFirst (fun e => e.ident == c.ident && e.filter == c.filter)
    (fun e => KernelEqueueInternal.retrigger e call c.data c.udata) l).getD
    (postList l (eventOf c 1 call))

namespace EqueueList

variable {T : Type*}

/-- A call returned a code. -/
def answer (q : EqueueList T) (code : BitVec 32) : EqueueList T := { q with ret := some { code } }

/-- A post or trigger that leaves the list `l`. -/
def posted (q : EqueueList T) (l : List OrbisKernelEvent) : EqueueList T :=
  if !q.inUse || q.isDeleted then q.answer negEinval
  else { q with pending := l, calls := q.calls + 1, ret := some { code := 0 } }

/-- The events that do not meet `drop`, in their order. -/
def dropped (q : EqueueList T) (drop : OrbisKernelEvent → Bool) : EqueueList T :=
  { q with pending := q.pending.filter fun e => !drop e, ret := some { code := 0 } }

/-- At most `n` events from the front. -/
def collect (q : EqueueList T) (n : ℕ) : EqRet × List OrbisKernelEvent :=
  ({ code := if (q.pending.take n).length = 0 then etimedout else 0, events := q.pending.take n },
    q.pending.drop n)

/-- A wait that may not sleep. -/
def finish (q : EqueueList T) (n : ℕ) : EqRet × List OrbisKernelEvent :=
  if q.isDeleted then ({ code := ebadf }, q.pending) else q.collect n

/-- A wait that sleeps while the list is empty. -/
def recheck (q : EqueueList T) (n : ℕ) : Option EqRet × List OrbisKernelEvent :=
  if q.pending = [] ∧ ¬q.isDeleted then (none, q.pending)
  else (some (q.finish n).1, (q.finish n).2)

/-- A wait up to its first sleep. -/
def wait (q : EqueueList T) (n : ℕ) (timeout : Option (BitVec 32)) :
    Option EqRet × List OrbisKernelEvent :=
  if q.isDeleted then (some { code := ebadf }, q.pending)
  else if timeout = some 0 then (some (q.collect n).1, (q.collect n).2)
  else q.recheck n

/-- A sleeper that wakes. -/
def resume (q : EqueueList T) (w : EqWait) (timedOut : Bool) : Option EqRet × List OrbisKernelEvent :=
  if w.hasTimeout && timedOut then
    (some (q.finish w.numEvents.toNat).1, (q.finish w.numEvents.toNat).2)
  else q.recheck w.numEvents.toNat

/-- A wait returned, or went to sleep. -/
def waited [DecidableEq T] (q : EqueueList T) (t : T) (r : Option EqRet × List OrbisKernelEvent)
    (w : EqWait) : EqueueList T :=
  { q with
    pending := r.2, ret := r.1
    asleep := Function.update q.asleep t (if r.1.isSome then none else some w) }

end EqueueList

section Lists

variable {T : Type*} [DecidableEq T]

/-- A call on a list. -/
def listCall (q : EqueueList T) (t : T) : EqOp → EqueueList T
  | .postEvent c => q.posted (postList q.pending (eventOf c 0 q.calls))
  | .triggerEvent c => q.posted (triggerList q.pending c q.calls)
  | .triggerUserEvent ident udata =>
      q.posted (postList q.pending (eventOf (userCall ident udata) 0 q.calls))
  | .addUserEvent _ | .addUserEventEdge _ => if !q.inUse then q.answer ebadf else q.answer 0
  | .removeEvents ident filter =>
      if !q.inUse then q.answer negEinval
      else q.dropped (KernelEqueueInternal.dropsEvents ident filter)
  | .deleteUserEvent ident =>
      if !q.inUse then q.answer ebadf else q.dropped (KernelEqueueInternal.dropsUser ident)
  | .wait numEvents hasOut timeout =>
      if numEvents.sle 0 then q.answer einval
      else if !hasOut then q.answer efault
      else if !q.inUse then q.answer ebadf
      else q.waited t (q.wait numEvents.toNat timeout) ⟨numEvents, timeout.isSome⟩

/-- A step on a list. -/
def listExec (q : EqueueList T) : QueueAct T → Option (EqueueList T)
  | .act (.call t op) => if q.asleep t ≠ none then none else some (listCall q t op)
  | .act (.resume t timedOut) =>
      (q.asleep t).map fun w => q.waited t (q.resume w timedOut) w
  | .delete =>
      if !q.inUse then some (q.answer negEinval)
      else some { q with isDeleted := true, inUse := false, ret := some { code := 0 } }
  | .create _ =>
      if q.inUse then none
      else some { q with pending := [], inUse := true, isDeleted := false, ret := some { code := 0 } }

end Lists

/-! ### the sections -/

section Refines

variable {T : Type*} {s s' : EqState T}

namespace KernelEqueueInternal

variable {eq : KernelEqueueInternal}

theorem pending_length : eq.pending.length = eq.count := RingBuffer.length_contents

theorem append_view (h : eq.WF equeueCapacity) (e : OrbisKernelEvent) :
    (eq.append e).WF equeueCapacity ∧ (eq.append e).pending = postList eq.pending e ∧
      (eq.append e).inUse = eq.inUse ∧ (eq.append e).isDeleted = eq.isDeleted := by
  unfold postList
  rw [pending_length]
  by_cases hroom : eq.count < equeueCapacity
  · rw [if_pos hroom]
    exact append_spec h hroom e
  · rw [if_neg hroom, append, if_neg hroom]
    exact ⟨h, rfl, rfl, rfl⟩

theorem collect_view (h : eq.WF equeueCapacity) (numEvents : BitVec 32) :
    (eq.collect numEvents).2.WF equeueCapacity ∧
      (eq.collect numEvents).1.events = eq.pending.take numEvents.toNat ∧
      (eq.collect numEvents).2.pending = eq.pending.drop numEvents.toNat := by
  obtain ⟨hwf, hcont, hlen⟩ := RingBuffer.drain_spec numEvents.toNat h
  have hpending : eq.pending = (eq.collect numEvents).1.events ++ (eq.collect numEvents).2.pending := hcont
  have hlength : (eq.collect numEvents).1.events.length = min numEvents.toNat eq.pending.length := by
    rw [pending_length]
    exact hlen
  refine ⟨hwf, ?_, ?_⟩
  · rcases Nat.le_total numEvents.toNat eq.pending.length with hle | hge
    · rw [hpending, List.take_left']
      rw [hlength, Nat.min_eq_left hle]
    · rw [List.take_of_length_le hge]
      rw [Nat.min_eq_right hge, hpending, List.length_append] at hlength
      have hnil : (eq.collect numEvents).2.pending = [] := List.eq_nil_of_length_eq_zero (by omega)
      rw [hpending, hnil, List.append_nil]
  · rcases Nat.le_total numEvents.toNat eq.pending.length with hle | hge
    · rw [hpending, List.drop_left']
      rw [hlength, Nat.min_eq_left hle]
    · rw [List.drop_of_length_le hge]
      rw [Nat.min_eq_right hge, hpending, List.length_append] at hlength
      exact List.eq_nil_of_length_eq_zero (by omega)

/-- A section of a post or trigger that leaves the list `l`. -/
structure Posts (eq : KernelEqueueInternal) (l : List OrbisKernelEvent)
    (r : BitVec 32 × KernelEqueueInternal) : Prop where
  wf : r.2.WF equeueCapacity
  code : r.1 = if eq.isDeleted then negEinval else 0
  pending : r.2.pending = if eq.isDeleted then eq.pending else l
  inUse : r.2.inUse = eq.inUse
  isDeleted : r.2.isDeleted = eq.isDeleted

/-- **Post.** -/
theorem post_view (h : eq.WF equeueCapacity) (call : ℕ) (c : PostCall) :
    Posts eq (postList eq.pending (eventOf c 0 call)) (eq.post call c.ident c.filter c.data c.udata) := by
  unfold post
  cases hdel : eq.isDeleted with
  | true => exact ⟨h, by rw [hdel]; rfl, by rw [hdel]; rfl, rfl, rfl⟩
  | false =>
      obtain ⟨hwf, hpending, hin, hlive⟩ := append_view h (eventOf c 0 call)
      exact ⟨hwf, by rw [hdel]; rfl, by rw [hdel]; exact hpending, hin, hlive⟩

/-- **Trigger.** -/
theorem trigger_view (h : eq.WF equeueCapacity) (call : ℕ) (c : PostCall) :
    Posts eq (triggerList eq.pending c call) (eq.trigger call c.ident c.filter c.data c.udata) := by
  unfold trigger
  cases hdel : eq.isDeleted with
  | true => exact ⟨h, by rw [hdel]; rfl, by rw [hdel]; rfl, rfl, rfl⟩
  | false =>
      rw [if_neg Bool.false_ne_true]
      split
      · rename_i i hi
        have hreplace : replaceFirst _ (fun e => retrigger e call c.data c.udata) eq.pending = some _ :=
          RingBuffer.replaceFirst_contents _ h hi
        refine ⟨h.set i _, by rw [hdel]; rfl, ?_, rfl, hdel.symm⟩
        rw [hdel, if_neg Bool.false_ne_true, triggerList, hreplace]
        rfl
      · rename_i hnone
        obtain ⟨hwf, hpending, hin, hlive⟩ := append_view h (eventOf c 1 call)
        have hreplace := replaceFirst_none (f := fun e => retrigger e call c.data c.udata) eq.pending
          (RingBuffer.firstMatch_none hnone)
        refine ⟨hwf, by rw [hdel]; rfl, ?_, hin, hlive⟩
        rw [hdel, if_neg Bool.false_ne_true, triggerList, hreplace]
        exact hpending

end KernelEqueueInternal

/-- A section of a wait, and the one on lists. -/
structure WaitsAs (eq : KernelEqueueInternal) (l : Option EqRet × List OrbisKernelEvent)
    (r : Option EqRet × KernelEqueueInternal) : Prop where
  wf : r.2.WF equeueCapacity
  ret : r.1 = l.1
  pending : r.2.pending = l.2
  inUse : r.2.inUse = eq.inUse
  isDeleted : r.2.isDeleted = eq.isDeleted

namespace EqState

theorem collect_view (h : s.eq.WF equeueCapacity) (n : BitVec 32) :
    WaitsAs s.eq (some (s.view.collect n.toNat).1, (s.view.collect n.toNat).2)
      (KernelEqueueInternal.returned (s.eq.collect n)) := by
  obtain ⟨hwf, hevents, hpending⟩ := KernelEqueueInternal.collect_view h n
  refine ⟨hwf, congrArg some ?_, hpending, rfl, rfl⟩
  show (s.eq.collect n).1 =
    { code := if (s.eq.pending.take n.toNat).length = 0 then etimedout else 0
      events := s.eq.pending.take n.toNat }
  rw [← hevents]
  rfl

theorem finish_view (h : s.eq.WF equeueCapacity) (n : BitVec 32) :
    WaitsAs s.eq (some (s.view.finish n.toNat).1, (s.view.finish n.toNat).2)
      (KernelEqueueInternal.returned (s.eq.finish n)) := by
  unfold KernelEqueueInternal.finish EqueueList.finish
  have hdel : s.view.isDeleted = s.eq.isDeleted := rfl
  rw [hdel]
  cases s.eq.isDeleted with
  | true => exact ⟨h, rfl, rfl, rfl, rfl⟩
  | false => exact collect_view h n

theorem recheck_view (h : s.eq.WF equeueCapacity) (n : BitVec 32) :
    WaitsAs s.eq (s.view.recheck n.toNat) (s.eq.recheck n) := by
  have hempty : (s.eq.count = 0 ∧ ¬s.eq.isDeleted = true) ↔
      (s.view.pending = [] ∧ ¬s.view.isDeleted = true) := by
    have hlen : s.view.pending.length = s.eq.count := KernelEqueueInternal.pending_length
    rw [← List.length_eq_zero_iff, hlen]
    rfl
  unfold KernelEqueueInternal.recheck EqueueList.recheck
  by_cases hasleep : s.eq.count = 0 ∧ ¬s.eq.isDeleted = true
  · rw [if_pos hasleep, if_pos (hempty.1 hasleep)]
    exact ⟨h, rfl, rfl, rfl, rfl⟩
  · rw [if_neg hasleep, if_neg fun hl => hasleep (hempty.2 hl)]
    exact finish_view h n

/-- **Wait.** -/
theorem wait_view (h : s.eq.WF equeueCapacity) (n : BitVec 32) (timeout : Option (BitVec 32)) :
    WaitsAs s.eq (s.view.wait n.toNat timeout) (s.eq.wait n timeout) := by
  unfold KernelEqueueInternal.wait EqueueList.wait
  have hdel : s.view.isDeleted = s.eq.isDeleted := rfl
  rw [hdel]
  split
  · exact ⟨h, rfl, rfl, rfl, rfl⟩
  · split
    · exact collect_view h n
    · exact recheck_view h n

theorem resume_view (h : s.eq.WF equeueCapacity) (w : EqWait) (timedOut : Bool) :
    WaitsAs s.eq (s.view.resume w timedOut) (s.eq.resume w timedOut) := by
  unfold KernelEqueueInternal.resume EqueueList.resume
  split
  · exact finish_view h w.numEvents
  · exact recheck_view h w.numEvents

/-! ### the steps -/

theorem posted_view (hin : s.eq.inUse = true) {c : PostCall} {l : List OrbisKernelEvent}
    {r : BitVec 32 × KernelEqueueInternal} (h : KernelEqueueInternal.Posts s.eq l r) :
    (s.posted c r).view = s.view.posted l ∧ (s.posted c r).eq.WF equeueCapacity := by
  refine ⟨?_, h.wf⟩
  unfold EqueueList.posted
  have hview : (!s.view.inUse || s.view.isDeleted) = s.eq.isDeleted := by
    show (!s.eq.inUse || s.eq.isDeleted) = _
    rw [hin]
    rfl
  obtain ⟨-, hcode, hpending, hin', hdel'⟩ := h
  rw [hview]
  cases hdel : s.eq.isDeleted with
  | true =>
      rw [hdel, if_pos rfl] at hcode hpending
      rw [if_pos rfl]
      apply EqueueList.ext
      · exact hpending
      · exact hin'
      · exact hdel'
      · show (if r.1 = 0 then s.calls ++ [c] else s.calls).length = s.calls.length
        rw [hcode, if_neg (by decide)]
      · show some ({ code := r.1 } : EqRet) = some { code := negEinval }
        rw [hcode]
      · rfl
  | false =>
      rw [hdel, if_neg Bool.false_ne_true] at hcode hpending
      rw [if_neg Bool.false_ne_true]
      apply EqueueList.ext
      · exact hpending
      · exact hin'
      · exact hdel'
      · show (if r.1 = 0 then s.calls ++ [c] else s.calls).length = s.calls.length + 1
        rw [if_pos hcode, List.length_append, List.length_singleton]
      · show some ({ code := r.1 } : EqRet) = some { code := 0 }
        rw [hcode]
      · rfl

theorem dropped_view (h : s.eq.WF equeueCapacity) (drop : OrbisKernelEvent → Bool) :
    (s.dropped drop).view = s.view.dropped drop ∧ (s.dropped drop).eq.WF equeueCapacity := by
  obtain ⟨hwf, hpending⟩ := KernelEqueueInternal.remove_spec h drop
  refine ⟨?_, hwf⟩
  apply EqueueList.ext
  · exact hpending
  all_goals rfl

variable [DecidableEq T]

theorem waited_view {t : T} {w : EqWait} {l : Option EqRet × List OrbisKernelEvent}
    {r : Option EqRet × KernelEqueueInternal} (h : WaitsAs s.eq l r) :
    (s.waited t r w).view = s.view.waited t l w ∧ (s.waited t r w).eq.WF equeueCapacity := by
  obtain ⟨hwf, hret, hpending, hin, hdel⟩ := h
  refine ⟨?_, hwf⟩
  apply EqueueList.ext
  · exact hpending
  · exact hin
  · exact hdel
  · rfl
  · exact hret
  · show Function.update s.asleep t (if r.1.isSome then none else some w) =
      Function.update s.asleep t (if l.1.isSome then none else some w)
    rw [hret]

/-- A result of a step that is in step with one on lists. -/
def Matches (r : Option (EqState T)) (q : Option (EqueueList T)) : Prop :=
  r.map view = q ∧ ∀ s', r = some s' → s'.eq.WF equeueCapacity

omit [DecidableEq T] in
theorem matches_some {q : EqueueList T} (h : s.view = q ∧ s.eq.WF equeueCapacity) :
    Matches (some s) (some q) := by
  refine ⟨congrArg some h.1, fun s' hs => ?_⟩
  cases hs
  exact h.2

omit [DecidableEq T] in
theorem matches_unused {code : BitVec 32} {r : EqState T} {q : EqueueList T}
    (h : s.eq.WF equeueCapacity)
    (hused : s.eq.inUse = true → r.view = q ∧ r.eq.WF equeueCapacity) :
    Matches (if (!s.eq.inUse) = true then some (s.answer code) else some r)
      (some (if (!s.eq.inUse) = true then s.view.answer code else q)) := by
  cases hin : s.eq.inUse with
  | false => exact matches_some ⟨rfl, h⟩
  | true => exact matches_some (hused hin)

theorem matches_posted (h : s.eq.WF equeueCapacity) {c : PostCall} {l : List OrbisKernelEvent}
    {r : BitVec 32 × KernelEqueueInternal} (hr : KernelEqueueInternal.Posts s.eq l r) :
    Matches (if (!s.eq.inUse) = true then some (s.answer negEinval) else some (s.posted c r))
      (some (s.view.posted l)) := by
  cases hin : s.eq.inUse with
  | false =>
      refine matches_some ⟨?_, h⟩
      have hview : (!s.view.inUse || s.view.isDeleted) = true := by
        show (!s.eq.inUse || s.eq.isDeleted) = true
        rw [hin]
        rfl
      unfold EqueueList.posted
      rw [hview]
      rfl
  | true => exact matches_some (posted_view hin hr)

theorem call_view (h : s.eq.WF equeueCapacity) (t : T) (hawake : s.asleep t = none) (op : EqOp) :
    Matches (exec s (.call t op)) (some (listCall s.view t op)) := by
  have hnone : ¬s.asleep t ≠ none := fun hne => hne hawake
  simp only [exec]
  rw [if_neg hnone]
  cases op with
  | postEvent c => exact matches_posted h (KernelEqueueInternal.post_view h _ c)
  | triggerEvent c => exact matches_posted h (KernelEqueueInternal.trigger_view h _ c)
  | triggerUserEvent ident udata =>
      exact matches_posted h (KernelEqueueInternal.post_view h _ (userCall ident udata))
  | addUserEvent ident => exact matches_unused h fun _ => ⟨rfl, h⟩
  | addUserEventEdge ident => exact matches_unused h fun _ => ⟨rfl, h⟩
  | removeEvents ident filter => exact matches_unused h fun _ => dropped_view h _
  | deleteUserEvent ident => exact matches_unused h fun _ => dropped_view h _
  | wait numEvents hasOut timeout =>
      unfold listCall
      dsimp only
      split
      · exact matches_some ⟨rfl, h⟩
      · split
        · exact matches_some ⟨rfl, h⟩
        · exact matches_unused h fun _ => waited_view (wait_view h numEvents timeout)

/-- **Step.**  A step of the ring is the step of its list, and keeps the numbers of the ring. -/
theorem queueExec_view (h : s.eq.WF equeueCapacity) (a : QueueAct T) :
    Matches (queueExec s a) (listExec s.view a) := by
  cases a with
  | act a =>
      cases a with
      | call t op =>
          by_cases hawake : s.asleep t = none
          · have hlist : listExec s.view (.act (.call t op)) = some (listCall s.view t op) :=
              if_neg fun hne => hne hawake
            rw [hlist]
            exact call_view h t hawake op
          · have hring : queueExec s (.act (.call t op)) = none := if_pos hawake
            have hlist : listExec s.view (.act (.call t op)) = none := if_pos hawake
            rw [hring, hlist]
            exact ⟨rfl, fun s' hs => by cases hs⟩
      | resume t timedOut =>
          have hlist : listExec s.view (.act (.resume t timedOut)) =
              (s.asleep t).map fun w => s.view.waited t (s.view.resume w timedOut) w := rfl
          rw [hlist]
          show Matches (exec s (.resume t timedOut)) _
          simp only [exec]
          cases hw : s.asleep t with
          | none => exact ⟨rfl, fun s' hs => by cases hs⟩
          | some w => exact matches_some (waited_view (resume_view h w timedOut))
  | delete =>
      have hlist : listExec s.view .delete = some (if (!s.eq.inUse) = true then s.view.answer negEinval
          else { s.view with isDeleted := true, inUse := false, ret := some { code := 0 } }) :=
        (apply_ite some _ _ _).symm
      rw [hlist]
      exact matches_unused h fun _ => ⟨rfl, ⟨h.head, h.count, h.tail⟩⟩
  | create id =>
      show Matches (if s.eq.inUse = true then none else some _) (if s.eq.inUse = true then none else some _)
      cases s.eq.inUse with
      | true => exact ⟨rfl, fun s' hs => by cases hs⟩
      | false => exact matches_some ⟨rfl, ⟨Nat.succ_pos 63, Nat.zero_le _, rfl⟩⟩

/-- **Runs.** -/
theorem execAll_view (as : List (QueueAct T)) (h : s.eq.WF equeueCapacity) :
    Matches (execAll queueExec s as) (execAll listExec s.view as) := by
  induction as generalizing s with
  | nil => exact matches_some ⟨rfl, h⟩
  | cons a as ih =>
      obtain ⟨hview, hwf⟩ := queueExec_view h a
      rw [execAll, execAll, ← hview]
      cases hs : queueExec s a with
      | none => exact ⟨rfl, fun s' hs' => by cases hs'⟩
      | some s₁ => exact ih (hwf s₁ hs)

end EqState

variable [DecidableEq T]

theorem wf_reachable (h : Reachable (queueSystem T) s) : s.eq.WF equeueCapacity := by
  refine Reachable.invariant (P := fun s => s.eq.WF equeueCapacity) (fun s hs => ?_)
    (fun s a s' _ hwf (hs : queueExec s a = some s') => (EqState.queueExec_view hwf a).2 s' hs) h
  obtain ⟨slot, id, rfl⟩ : ∃ slot id, s = .start slot id := hs
  exact ⟨Nat.succ_pos 63, Nat.zero_le _, rfl⟩

end Refines

/-- 62 events come and go, and three that are pending cross the end of the array. -/
def wrapRun : List (QueueAct Unit) :=
  List.replicate 62 (.act (.call () (.postEvent ⟨1, -11, 0, 0⟩))) ++
    [.act (.call () (.wait 62 true (some 0)))] ++
    [.act (.call () (.postEvent ⟨1, -11, 0, 0⟩)), .act (.call () (.postEvent ⟨2, -11, 0, 0⟩)),
      .act (.call () (.triggerEvent ⟨3, -11, 0, 0⟩))]

end PS4Recomp.Runtime.Equeue
