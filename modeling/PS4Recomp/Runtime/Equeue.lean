import PS4Recomp.Library.RingBuffer
import PS4Recomp.Library.Transition

/-!
# Event queues

`ps4_equeue.c`: a queue is a ring of 64 events under a mutex.  A post appends an event, a trigger first
looks for a pending event of its identity and filter, a delete removes events from the middle, and a
wait takes events from the front.

* `OrbisKernelEvent` — an event; `call` and `coalesced` number the calls that posted it, and no code
  reads them;
* `KernelEqueueInternal` — the queue; `post`, `trigger`, `removeEvents`, `deleteUserEvent`, `wait`,
  `resume` — the sections under its mutex;
* `EqState`, `EqOp`, `EqAct`, `exec`, `eqSystem` — one queue and any threads;
* `EqOk` — the ring has room for the event of a call;
* `EqInv`, `inv_exec` — the invariant and its step lemma;
* **`equeue_delivers`** — in runs of such steps every accepted call is accounted for once, in order.

A queue that is deleted is not part of these runs.  Names are left out.
-/

namespace PS4Recomp.Runtime.Equeue

open Library Library.Transition

/-- `EQUEUE_CAPACITY`. -/
def equeueCapacity : ℕ := 64

/-- `-EINVAL`. -/
def negEinval : BitVec 32 := -22
def ebadf : BitVec 32 := 0x80020009
def einval : BitVec 32 := 0x80020016
def etimedout : BitVec 32 := 0x8002003c
def efault : BitVec 32 := 0x8002000e

/-- `ORBIS_KERNEL_EVFILT_USER`. -/
def evfiltUser : BitVec 16 := -11

/-- An event, the number of the call that queued it, and the calls that were coalesced into it. -/
structure OrbisKernelEvent where
  ident : BitVec 64
  filter : BitVec 16
  flags : BitVec 16
  fflags : BitVec 32
  data : BitVec 64
  udata : BitVec 64
  call : ℕ
  coalesced : List ℕ := []
  deriving DecidableEq

/-- The calls an event stands for. -/
def OrbisKernelEvent.calls (e : OrbisKernelEvent) : List ℕ := e.call :: e.coalesced

/-- A queue. -/
structure KernelEqueueInternal extends RingBuffer OrbisKernelEvent where
  id : BitVec 32
  inUse : Bool
  isDeleted : Bool

/-- What a call returns, and the events it writes; `outCount` is their number. -/
structure EqRet where
  code : BitVec 32
  events : List OrbisKernelEvent := []
  deriving DecidableEq

/-- A sleeping thread. -/
structure EqWait where
  numEvents : BitVec 32
  hasTimeout : Bool
  deriving DecidableEq

/-! ### the sections -/

namespace KernelEqueueInternal

/-- The pending events. -/
def pending (eq : KernelEqueueInternal) : List OrbisKernelEvent := eq.contents equeueCapacity

/-- The queue `sceKernelCreateEqueue` leaves in a slot. -/
def create (eq : KernelEqueueInternal) (id : BitVec 32) : KernelEqueueInternal :=
  { eq with id, inUse := true, isDeleted := false, head := 0, tail := 0, count := 0 }

/-- An event at the end, where there is room. -/
def append (eq : KernelEqueueInternal) (e : OrbisKernelEvent) : KernelEqueueInternal :=
  if eq.count < equeueCapacity then { eq with toRingBuffer := eq.push equeueCapacity e } else eq

/-- `ps4_equeue_post_event` under the mutex. -/
def post (eq : KernelEqueueInternal) (call : ℕ) (ident : BitVec 64) (filter : BitVec 16)
    (data udata : BitVec 64) : BitVec 32 × KernelEqueueInternal :=
  if eq.isDeleted then (negEinval, eq)
  else (0, eq.append { ident, filter, flags := 0, fflags := 0, data, udata, call })

/-- A pending event that was triggered again. -/
def retrigger (e : OrbisKernelEvent) (call : ℕ) (data udata : BitVec 64) : OrbisKernelEvent :=
  { e with data, udata, fflags := e.fflags + 1, coalesced := e.coalesced ++ [call] }

/-- `ps4_equeue_trigger_event` under the mutex. -/
def trigger (eq : KernelEqueueInternal) (call : ℕ) (ident : BitVec 64) (filter : BitVec 16)
    (data udata : BitVec 64) : BitVec 32 × KernelEqueueInternal :=
  if eq.isDeleted then (negEinval, eq)
  else
    match eq.firstMatch equeueCapacity fun e => e.ident == ident && e.filter == filter with
    | some i =>
        let e := eq.buf ((eq.head + i) % equeueCapacity)
        (0, { eq with toRingBuffer := eq.set equeueCapacity i (retrigger e call data udata) })
    | none => (0, eq.append { ident, filter, flags := 0, fflags := 1, data, udata, call })

/-- Without the events that meet `drop`. -/
def remove (eq : KernelEqueueInternal) (drop : OrbisKernelEvent → Bool) : KernelEqueueInternal :=
  { eq with toRingBuffer := eq.compact equeueCapacity drop }

/-- The events `remove_events_locked` drops. -/
def dropsEvents (ident : BitVec 64) (filter : BitVec 16) (e : OrbisKernelEvent) : Bool :=
  e.filter == filter && e.ident == ident

/-- The events `sceKernelDeleteUserEvent` drops: it compares 32 bits. -/
def dropsUser (ident : BitVec 32) (e : OrbisKernelEvent) : Bool :=
  e.filter == evfiltUser && e.ident.truncate 32 == ident

/-- The end of `sceKernelWaitEqueue`: the events that are there. -/
def collect (eq : KernelEqueueInternal) (numEvents : BitVec 32) : EqRet × KernelEqueueInternal :=
  let (events, ring) := eq.drain equeueCapacity numEvents.toNat
  ({ code := if events.length = 0 then etimedout else 0, events }, { eq with toRingBuffer := ring })

/-- `sceKernelWaitEqueue` after its loop. -/
def finish (eq : KernelEqueueInternal) (numEvents : BitVec 32) : EqRet × KernelEqueueInternal :=
  if eq.isDeleted then ({ code := ebadf }, eq) else eq.collect numEvents

/-- The call returns. -/
def returned (r : EqRet × KernelEqueueInternal) : Option EqRet × KernelEqueueInternal :=
  (some r.1, r.2)

/-- The test of its loop: asleep, or the end of the call. -/
def recheck (eq : KernelEqueueInternal) (numEvents : BitVec 32) :
    Option EqRet × KernelEqueueInternal :=
  if eq.count = 0 ∧ ¬ eq.isDeleted then (none, eq) else returned (eq.finish numEvents)

/-- `sceKernelWaitEqueue` under the mutex, up to its first sleep. -/
def wait (eq : KernelEqueueInternal) (numEvents : BitVec 32) (timeout : Option (BitVec 32)) :
    Option EqRet × KernelEqueueInternal :=
  if eq.isDeleted then (some { code := ebadf }, eq)
  else if timeout = some 0 then returned (eq.collect numEvents)
  else eq.recheck numEvents

/-- A sleeper has the mutex again. -/
def resume (eq : KernelEqueueInternal) (w : EqWait) (timedOut : Bool) :
    Option EqRet × KernelEqueueInternal :=
  if w.hasTimeout && timedOut then returned (eq.finish w.numEvents) else eq.recheck w.numEvents

end KernelEqueueInternal

/-! ### the machine -/

/-- A post or trigger that returned 0. -/
structure PostCall where
  ident : BitVec 64
  filter : BitVec 16
  data : BitVec 64
  udata : BitVec 64
  deriving DecidableEq

/-- The calls on a queue. -/
inductive EqOp where
  | postEvent (c : PostCall) | triggerEvent (c : PostCall)
  | triggerUserEvent (ident : BitVec 32) (udata : BitVec 64)
  | addUserEvent (ident : BitVec 32) | addUserEventEdge (ident : BitVec 32)
  | removeEvents (ident : BitVec 64) (filter : BitVec 16) | deleteUserEvent (ident : BitVec 32)
  | wait (numEvents : BitVec 32) (hasOut : Bool) (timeout : Option (BitVec 32))
  deriving DecidableEq

/-- What `sceKernelTriggerUserEvent` posts. -/
def userCall (ident : BitVec 32) (udata : BitVec 64) : PostCall :=
  { ident := ident.signExtend 64, filter := evfiltUser, data := 0, udata }

/-- The queue, the calls that returned 0 by number, the events removed and the events delivered so far,
what the last step returned, and who sleeps. -/
structure EqState (T : Type*) where
  eq : KernelEqueueInternal
  calls : List PostCall := []
  removed : List OrbisKernelEvent := []
  delivered : List (T × OrbisKernelEvent) := []
  ret : Option EqRet := none
  asleep : T → Option EqWait := fun _ => none

/-- The steps.  A sleeper may resume at any time. -/
inductive EqAct (T : Type*) where
  | call (t : T) (op : EqOp)
  | resume (t : T) (timedOut : Bool)

section Machine

variable {T : Type*}

/-- A call returned a code. -/
def EqState.answer (s : EqState T) (code : BitVec 32) : EqState T := { s with ret := some { code } }

/-- A post or trigger returned. -/
def EqState.posted (s : EqState T) (c : PostCall) (r : BitVec 32 × KernelEqueueInternal) :
    EqState T :=
  { s with
    eq := r.2, ret := some { code := r.1 }, calls := if r.1 = 0 then s.calls ++ [c] else s.calls }

/-- A delete returned. -/
def EqState.dropped (s : EqState T) (drop : OrbisKernelEvent → Bool) : EqState T :=
  { s with
    eq := s.eq.remove drop, ret := some { code := 0 }, removed := s.removed ++ s.eq.pending.filter drop }

variable [DecidableEq T]

/-- A wait returned, or went to sleep. -/
def EqState.waited (s : EqState T) (t : T) (r : Option EqRet × KernelEqueueInternal)
    (w : EqWait) : EqState T :=
  { s with
    eq := r.2, ret := r.1
    delivered := s.delivered ++ (r.1.elim [] (·.events)).map fun e => (t, e)
    asleep := Function.update s.asleep t (if r.1.isSome then none else some w) }

/-- A step; `none` where it is not possible. -/
def exec (s : EqState T) : EqAct T → Option (EqState T)
  | .call t op =>
      if s.asleep t ≠ none then none
      else match op with
      | .postEvent c =>
          if !s.eq.inUse then some (s.answer negEinval)
          else some (s.posted c (s.eq.post s.calls.length c.ident c.filter c.data c.udata))
      | .triggerEvent c =>
          if !s.eq.inUse then some (s.answer negEinval)
          else some (s.posted c (s.eq.trigger s.calls.length c.ident c.filter c.data c.udata))
      | .triggerUserEvent ident udata =>
          let c := userCall ident udata
          if !s.eq.inUse then some (s.answer negEinval)
          else some (s.posted c (s.eq.post s.calls.length c.ident c.filter c.data c.udata))
      | .addUserEvent _ | .addUserEventEdge _ =>
          if !s.eq.inUse then some (s.answer ebadf) else some (s.answer 0)
      | .removeEvents ident filter =>
          if !s.eq.inUse then some (s.answer negEinval)
          else some (s.dropped (KernelEqueueInternal.dropsEvents ident filter))
      | .deleteUserEvent ident =>
          if !s.eq.inUse then some (s.answer ebadf)
          else some (s.dropped (KernelEqueueInternal.dropsUser ident))
      | .wait numEvents hasOut timeout =>
          if numEvents.sle 0 then some (s.answer einval)
          else if !hasOut then some (s.answer efault)
          else if !s.eq.inUse then some (s.answer ebadf)
          else some (s.waited t (s.eq.wait numEvents timeout) ⟨numEvents, timeout.isSome⟩)
  | .resume t timedOut =>
      match s.asleep t with
      | none => none
      | some w => some (s.waited t (s.eq.resume w timedOut) w)

/-- A new queue in a slot whose bytes are whatever they were. -/
def EqState.start (slot : KernelEqueueInternal) (id : BitVec 32) : EqState T where
  eq := slot.create id

/-- All interleavings of calls on one queue. -/
def eqSystem (T : Type*) [DecidableEq T] : System (EqState T) (EqAct T) where
  init s := ∃ slot id, s = .start slot id
  step s a s' := exec s a = some s'

/-- The ring has room for what the call appends. -/
def EqOk (s : EqState T) : EqAct T → Prop
  | .call _ (.postEvent _) | .call _ (.triggerUserEvent _ _) => s.eq.count < equeueCapacity
  | .call _ (.triggerEvent c) => s.eq.count < equeueCapacity ∨
      (s.eq.firstMatch equeueCapacity fun e => e.ident == c.ident && e.filter == c.filter).isSome
  | _ => True

instance (s : EqState T) : ∀ a, Decidable (EqOk s a)
  | .call _ (.postEvent _) | .call _ (.triggerUserEvent _ _) =>
      inferInstanceAs (Decidable (s.eq.count < equeueCapacity))
  | .call _ (.triggerEvent c) => inferInstanceAs (Decidable (s.eq.count < equeueCapacity ∨
      (s.eq.firstMatch equeueCapacity fun e => e.ident == c.ident && e.filter == c.filter).isSome))
  | .call _ (.addUserEvent _) | .call _ (.addUserEventEdge _) | .call _ (.removeEvents _ _)
  | .call _ (.deleteUserEvent _) | .call _ (.wait _ _ _) | .resume _ _ =>
      inferInstanceAs (Decidable True)

end Machine

/-! ### the account of the calls -/

/-- The last call an event stands for. -/
def OrbisKernelEvent.last (e : OrbisKernelEvent) : ℕ := e.coalesced.getLastD e.call

/-- The calls of an event have its identity and filter, and it carries the data of the last one. -/
structure Records (calls : List PostCall) (e : OrbisKernelEvent) : Prop where
  same : ∀ k ∈ e.calls, ∃ c, calls[k]? = some c ∧ c.ident = e.ident ∧ c.filter = e.filter
  latest : ∃ c, calls[e.last]? = some c ∧ c.data = e.data ∧ c.udata = e.udata

/-- The events that were queued, in order, and the removed ones account for the calls. -/
structure Accounted (queued removed : List OrbisKernelEvent) (calls : List PostCall) : Prop where
  /-- Every call belongs to one event, once. -/
  once : ((queued ++ removed).flatMap OrbisKernelEvent.calls).Perm (List.range calls.length)
  /-- The events stand in the order of the calls that queued them. -/
  order : queued.Pairwise fun e f => e.call < f.call
  records : ∀ e ∈ queued, Records calls e

section Account

variable {queued removed : List OrbisKernelEvent} {calls : List PostCall}

theorem Records.snoc {e : OrbisKernelEvent} (h : Records calls e) (c : PostCall) :
    Records (calls ++ [c]) e := by
  have hget : ∀ {k : ℕ} {c' : PostCall}, calls[k]? = some c' → (calls ++ [c])[k]? = some c' := by
    intro k c' hk
    rw [List.getElem?_append_left (List.getElem?_eq_some_iff.1 hk).1]
    exact hk
  refine ⟨fun k hk => ?_, ?_⟩
  · obtain ⟨c', hc, hsame⟩ := h.same k hk
    exact ⟨c', hget hc, hsame⟩
  · obtain ⟨c', hc, hdata⟩ := h.latest
    exact ⟨c', hget hc, hdata⟩

/-- The calls accounted for are earlier than the next one. -/
theorem Accounted.call_lt (h : Accounted queued removed calls) {e : OrbisKernelEvent}
    (he : e ∈ queued) {k : ℕ} (hk : k ∈ e.calls) : k < calls.length := by
  have hmem : k ∈ (queued ++ removed).flatMap OrbisKernelEvent.calls :=
    List.mem_flatMap.2 ⟨e, List.mem_append_left _ he, hk⟩
  exact List.mem_range.1 (h.once.mem_iff.1 hmem)

theorem Accounted.nil : Accounted [] [] [] :=
  ⟨List.Perm.refl _, List.Pairwise.nil, fun _ h => (nomatch h)⟩

theorem Accounted.push (h : Accounted queued removed calls) {c : PostCall} {e : OrbisKernelEvent}
    (hcall : e.call = calls.length) (hnew : e.coalesced = []) (hident : c.ident = e.ident)
    (hfilter : c.filter = e.filter) (hdata : c.data = e.data) (hudata : c.udata = e.udata) :
    Accounted (queued ++ [e]) removed (calls ++ [c]) := by
  have hcalls : e.calls = [calls.length] := by rw [OrbisKernelEvent.calls, hcall, hnew]
  have hget : (calls ++ [c])[calls.length]? = some c := by simp
  refine ⟨?_, ?_, fun f hf => ?_⟩
  · have hperm : (queued ++ [e] ++ removed).Perm (queued ++ removed ++ [e]) := by
      rw [List.append_assoc, List.append_assoc]
      exact List.Perm.append_left _ List.perm_append_comm
    refine (hperm.flatMap_right _).trans ?_
    rw [List.flatMap_append, List.flatMap_singleton, hcalls, List.length_append, List.length_singleton,
      List.range_succ]
    exact h.once.append_right _
  · rw [List.pairwise_append]
    refine ⟨h.order, List.pairwise_singleton _ _, fun f hf g hg => ?_⟩
    rw [List.mem_singleton.1 hg, hcall]
    exact h.call_lt hf List.mem_cons_self
  · rcases List.mem_append.1 hf with hf | hf
    · exact (h.records f hf).snoc c
    · rw [List.mem_singleton.1 hf]
      refine ⟨fun k hk => ?_, c, ?_, hdata, hudata⟩
      · rw [hcalls, List.mem_singleton] at hk
        rw [hk]
        exact ⟨c, hget, hident, hfilter⟩
      · rw [OrbisKernelEvent.last, hnew, hcall]
        exact hget

theorem Accounted.coalesce {l₁ l₂ : List OrbisKernelEvent} {e e' : OrbisKernelEvent}
    (h : Accounted (l₁ ++ e :: l₂) removed calls) {c : PostCall} (hcall : e'.call = e.call)
    (hmore : e'.coalesced = e.coalesced ++ [calls.length]) (hident : e'.ident = e.ident)
    (hfilter : e'.filter = e.filter) (hci : c.ident = e.ident) (hcf : c.filter = e.filter)
    (hdata : c.data = e'.data) (hudata : c.udata = e'.udata) :
    Accounted (l₁ ++ e' :: l₂) removed (calls ++ [c]) := by
  have hcalls : e'.calls = e.calls ++ [calls.length] := by
    rw [OrbisKernelEvent.calls, hcall, hmore]
    rfl
  have hget : (calls ++ [c])[calls.length]? = some c := by simp
  have hfront : ∀ f : OrbisKernelEvent, (l₁ ++ f :: l₂ ++ removed).Perm (f :: (l₁ ++ l₂ ++ removed)) :=
    fun f => List.perm_middle.append_right removed
  refine ⟨?_, ?_, fun f hf => ?_⟩
  · have hold := ((hfront e).flatMap_right OrbisKernelEvent.calls).symm.trans h.once
    refine ((hfront e').flatMap_right _).trans ?_
    rw [List.flatMap_cons] at hold ⊢
    rw [hcalls, List.length_append, List.length_singleton, List.range_succ]
    refine List.Perm.trans ?_ (hold.append_right _)
    simp only [List.append_assoc]
    exact List.Perm.append_left _ List.perm_append_comm
  · obtain ⟨h₁, h₂, h₁₂⟩ := List.pairwise_append.1 h.order
    obtain ⟨hafter, h₂⟩ := List.pairwise_cons.1 h₂
    refine List.pairwise_append.2 ⟨h₁, List.pairwise_cons.2 ⟨fun g hg => ?_, h₂⟩, fun f hf g hg => ?_⟩
    · rw [hcall]
      exact hafter g hg
    · rcases List.mem_cons.1 hg with hg | hg
      · rw [hg, hcall]
        exact h₁₂ f hf e List.mem_cons_self
      · exact h₁₂ f hf g (List.mem_cons_of_mem _ hg)
  · rcases List.mem_append.1 hf with hf | hf
    · exact (h.records f (List.mem_append_left _ hf)).snoc c
    · rcases List.mem_cons.1 hf with hf | hf
      · rw [hf]
        have hrec := (h.records e (List.mem_append_right _ List.mem_cons_self)).snoc c
        refine ⟨fun k hk => ?_, c, ?_, hdata, hudata⟩
        · rw [hident, hfilter]
          rw [hcalls, List.mem_append, List.mem_singleton] at hk
          rcases hk with hk | hk
          · exact hrec.same k hk
          · rw [hk]
            exact ⟨c, hget, hci, hcf⟩
        · rw [OrbisKernelEvent.last, hmore, List.getLastD_concat]
          exact hget
      · exact (h.records f (List.mem_append_right _ (List.mem_cons_of_mem _ hf))).snoc c

theorem Accounted.drop {l₁ l₂ : List OrbisKernelEvent} (h : Accounted (l₁ ++ l₂) removed calls)
    (drop : OrbisKernelEvent → Bool) :
    Accounted (l₁ ++ l₂.filter fun e => !drop e) (removed ++ l₂.filter drop) calls := by
  have hsub : (l₁ ++ l₂.filter fun e => !drop e).Sublist (l₁ ++ l₂) :=
    List.Sublist.append_left List.filter_sublist l₁
  refine ⟨?_, h.order.sublist hsub, fun e he => h.records e (hsub.mem he)⟩
  have hperm : ((l₁ ++ l₂.filter fun e => !drop e) ++ (removed ++ l₂.filter drop)).Perm
      (l₁ ++ l₂ ++ removed) := by
    have hparts := List.filter_append_perm drop l₂
    calc (l₁ ++ l₂.filter fun e => !drop e) ++ (removed ++ l₂.filter drop)
        = l₁ ++ (l₂.filter (fun e => !drop e) ++ (removed ++ l₂.filter drop)) := List.append_assoc ..
      List.Perm _ (l₁ ++ ((removed ++ l₂.filter drop) ++ l₂.filter fun e => !drop e)) :=
          List.Perm.append_left _ List.perm_append_comm
      _ = l₁ ++ (removed ++ (l₂.filter drop ++ l₂.filter fun e => !drop e)) := by
          rw [List.append_assoc]
      List.Perm _ (l₁ ++ (removed ++ l₂)) := List.Perm.append_left _ (List.Perm.append_left _ hparts)
      List.Perm _ (l₁ ++ (l₂ ++ removed)) := List.Perm.append_left _ List.perm_append_comm
      _ = l₁ ++ l₂ ++ removed := (List.append_assoc ..).symm
  exact (hperm.flatMap_right _).trans h.once

end Account

/-! ### the sections and the pending events -/

/-- A section of a wait: it takes events from the front, and at least one where there is one. -/
structure Collects (eq : KernelEqueueInternal) (numEvents : BitVec 32)
    (r : Option EqRet × KernelEqueueInternal) : Prop where
  wf : r.2.WF equeueCapacity
  inUse : r.2.inUse = eq.inUse
  isDeleted : r.2.isDeleted = eq.isDeleted
  pending : eq.pending = r.1.elim [] (·.events) ++ r.2.pending
  progress : eq.isDeleted = false → 0 < numEvents.toNat → eq.pending ≠ [] → r.1.elim [] (·.events) ≠ []

namespace KernelEqueueInternal

variable {eq : KernelEqueueInternal}

theorem append_spec (h : eq.WF equeueCapacity) (hroom : eq.count < equeueCapacity)
    (e : OrbisKernelEvent) :
    (eq.append e).WF equeueCapacity ∧ (eq.append e).pending = eq.pending ++ [e] ∧
      (eq.append e).inUse = eq.inUse ∧ (eq.append e).isDeleted = eq.isDeleted := by
  unfold append
  rw [if_pos hroom]
  exact ⟨h.push hroom e, RingBuffer.contents_push h hroom e, rfl, rfl⟩

theorem remove_spec (h : eq.WF equeueCapacity) (drop : OrbisKernelEvent → Bool) :
    (eq.remove drop).WF equeueCapacity ∧
      (eq.remove drop).pending = eq.pending.filter fun e => !drop e :=
  RingBuffer.compact_spec h drop

theorem collect_collects (h : eq.WF equeueCapacity) (numEvents : BitVec 32) :
    Collects eq numEvents (returned (eq.collect numEvents)) := by
  obtain ⟨hwf, hcont, hlen⟩ := RingBuffer.drain_spec numEvents.toNat h
  refine ⟨hwf, rfl, rfl, hcont, fun _ hn hne hnil => ?_⟩
  have hcount : 0 < eq.count := by
    rw [← RingBuffer.length_contents (N := equeueCapacity) (r := eq.toRingBuffer)]
    exact List.length_pos_of_ne_nil hne
  have hnil' : (eq.drain equeueCapacity numEvents.toNat).1 = [] := hnil
  rw [hnil', List.length_nil] at hlen
  omega

theorem finish_collects (h : eq.WF equeueCapacity) (numEvents : BitVec 32) :
    Collects eq numEvents (returned (eq.finish numEvents)) := by
  unfold finish
  split
  · rename_i hdel
    exact ⟨h, rfl, rfl, rfl, fun hlive => by rw [hdel] at hlive; cases hlive⟩
  · exact collect_collects h numEvents

theorem recheck_collects (h : eq.WF equeueCapacity) (numEvents : BitVec 32) :
    Collects eq numEvents (eq.recheck numEvents) := by
  unfold recheck
  split
  · rename_i hempty
    refine ⟨h, rfl, rfl, rfl, fun _ _ hne => ?_⟩
    have hnil : eq.pending = [] := by
      rw [← List.length_eq_zero_iff]
      exact RingBuffer.length_contents.trans hempty.1
    exact absurd hnil hne
  · exact finish_collects h numEvents

theorem wait_collects (h : eq.WF equeueCapacity) (numEvents : BitVec 32)
    (timeout : Option (BitVec 32)) : Collects eq numEvents (eq.wait numEvents timeout) := by
  unfold wait
  split
  · rename_i hdel
    exact ⟨h, rfl, rfl, rfl, fun hlive => by rw [hdel] at hlive; cases hlive⟩
  · split
    · exact collect_collects h numEvents
    · exact recheck_collects h numEvents

theorem resume_collects (h : eq.WF equeueCapacity) (w : EqWait) (timedOut : Bool) :
    Collects eq w.numEvents (eq.resume w timedOut) := by
  unfold resume
  split
  · exact finish_collects h w.numEvents
  · exact recheck_collects h w.numEvents

end KernelEqueueInternal

/-! ### the invariant -/

section Invariant

variable {T : Type*} {s s' : EqState T} {t : T}

/-- The events queued so far and not removed, in the order of the queue. -/
def EqState.queued (s : EqState T) : List OrbisKernelEvent := s.delivered.map (·.2) ++ s.eq.pending

/-- The ring is one, the queue lives, sleepers asked for events, and the calls are accounted for. -/
structure EqInv (s : EqState T) : Prop where
  wf : s.eq.WF equeueCapacity
  inUse : s.eq.inUse = true
  live : s.eq.isDeleted = false
  need : ∀ t w, s.asleep t = some w → ¬ w.numEvents.sle 0
  account : Accounted s.queued s.removed s.calls

theorem EqInv.answer (h : EqInv s) (code : BitVec 32) : EqInv (s.answer code) :=
  ⟨h.wf, h.inUse, h.live, h.need, h.account⟩

theorem EqInv.append (h : EqInv s) (hroom : s.eq.count < equeueCapacity) {c : PostCall}
    {e : OrbisKernelEvent} (hcall : e.call = s.calls.length) (hnew : e.coalesced = [])
    (hident : c.ident = e.ident) (hfilter : c.filter = e.filter) (hdata : c.data = e.data)
    (hudata : c.udata = e.udata) : EqInv (s.posted c (0, s.eq.append e)) := by
  obtain ⟨hwf, hpending, hin, hdel⟩ := KernelEqueueInternal.append_spec h.wf hroom e
  refine ⟨hwf, hin.trans h.inUse, hdel.trans h.live, h.need, ?_⟩
  have hqueued : (s.posted c (0, s.eq.append e)).queued = s.queued ++ [e] := by
    show s.delivered.map (·.2) ++ (s.eq.append e).pending = _
    rw [hpending, ← List.append_assoc]
    rfl
  rw [hqueued]
  exact h.account.push hcall hnew hident hfilter hdata hudata

theorem EqInv.post (h : EqInv s) (hroom : s.eq.count < equeueCapacity) (c : PostCall) :
    EqInv (s.posted c (s.eq.post s.calls.length c.ident c.filter c.data c.udata)) := by
  unfold KernelEqueueInternal.post
  rw [h.live, if_neg (by simp)]
  exact h.append hroom rfl rfl rfl rfl rfl rfl

theorem EqInv.trigger (h : EqInv s) (c : PostCall)
    (hok : s.eq.count < equeueCapacity ∨ (s.eq.firstMatch equeueCapacity fun e =>
      e.ident == c.ident && e.filter == c.filter).isSome) :
    EqInv (s.posted c (s.eq.trigger s.calls.length c.ident c.filter c.data c.udata)) := by
  unfold KernelEqueueInternal.trigger
  rw [h.live, if_neg (by simp)]
  split
  · rename_i i hi
    obtain ⟨l₁, l₂, hcont, hp, hset⟩ := RingBuffer.firstMatch_some h.wf hi
    rw [Bool.and_eq_true, beq_iff_eq, beq_iff_eq] at hp
    refine ⟨h.wf.set i _, h.inUse, rfl, h.need, ?_⟩
    have haccount : Accounted (s.delivered.map (·.2) ++ l₁ ++
        s.eq.buf ((s.eq.head + i) % equeueCapacity) :: l₂) s.removed s.calls := by
      rw [List.append_assoc, ← hcont]
      exact h.account
    show Accounted (s.delivered.map (·.2) ++ (s.eq.set equeueCapacity i
      (KernelEqueueInternal.retrigger _ _ _ _)).contents equeueCapacity) s.removed (s.calls ++ [c])
    rw [hset, ← List.append_assoc]
    exact haccount.coalesce rfl rfl rfl rfl hp.1.symm hp.2.symm rfl rfl
  · rename_i hnone
    rw [hnone] at hok
    exact h.append (hok.resolve_right (by simp)) rfl rfl rfl rfl rfl rfl

theorem EqInv.dropped (h : EqInv s) (drop : OrbisKernelEvent → Bool) : EqInv (s.dropped drop) := by
  obtain ⟨hwf, hpending⟩ := KernelEqueueInternal.remove_spec h.wf drop
  refine ⟨hwf, h.inUse, h.live, h.need, ?_⟩
  show Accounted (s.delivered.map (·.2) ++ (s.eq.remove drop).pending) _ _
  rw [hpending]
  exact h.account.drop drop

variable [DecidableEq T]

theorem EqInv.waited (h : EqInv s) {r : Option EqRet × KernelEqueueInternal} {w : EqWait}
    (hr : Collects s.eq w.numEvents r) (hw : ¬ w.numEvents.sle 0) : EqInv (s.waited t r w) := by
  refine ⟨hr.wf, hr.inUse.trans h.inUse, hr.isDeleted.trans h.live, fun u w' hu => ?_, ?_⟩
  · have hu' : Function.update s.asleep t (if r.1.isSome then none else some w) u = some w' := hu
    by_cases hut : u = t
    · rw [hut, Function.update_self] at hu'
      split at hu'
      · cases hu'
      · cases hu'
        exact hw
    · rw [Function.update_of_ne hut] at hu'
      exact h.need u w' hu'
  · have hqueued : (s.waited t r w).queued = s.queued := by
      show (s.delivered ++ (r.1.elim [] (·.events)).map fun e => (t, e)).map (·.2) ++ r.2.pending = _
      rw [List.map_append, List.map_map, List.append_assoc]
      show s.delivered.map (·.2) ++ ((r.1.elim [] (·.events)).map id ++ r.2.pending) = _
      rw [List.map_id, ← hr.pending]
      rfl
    rw [hqueued]
    exact h.account

/-- **Step.**  A step with room in the ring keeps the invariant. -/
theorem inv_exec {a : EqAct T} (h : EqInv s) (hok : EqOk s a) (hs : exec s a = some s') : EqInv s' := by
  have hin : ¬ (!s.eq.inUse) = true := by rw [h.inUse]; simp
  cases a with
  | call t op =>
      simp only [exec] at hs
      split at hs
      · cases hs
      · cases op with
        | postEvent c =>
            cases hs
            exact h.post hok c
        | triggerEvent c =>
            cases hs
            exact h.trigger c hok
        | triggerUserEvent ident udata =>
            cases hs
            exact h.post hok (userCall ident udata)
        | addUserEvent ident =>
            cases hs
            exact h.answer 0
        | addUserEventEdge ident =>
            cases hs
            exact h.answer 0
        | removeEvents ident filter =>
            cases hs
            exact h.dropped _
        | deleteUserEvent ident =>
            cases hs
            exact h.dropped _
        | wait numEvents hasOut timeout =>
            dsimp only at hs
            split at hs
            · cases hs
              exact h.answer _
            · rename_i hpos
              split at hs
              · cases hs
                exact h.answer _
              · cases hs
                exact h.waited (KernelEqueueInternal.wait_collects h.wf numEvents timeout) hpos
  | resume t timedOut =>
      simp only [exec] at hs
      split at hs
      · cases hs
      · rename_i w hw
        cases hs
        exact h.waited (KernelEqueueInternal.resume_collects h.wf w timedOut) (h.need t w hw)

omit [DecidableEq T] in
theorem inv_start (slot : KernelEqueueInternal) (id : BitVec 32) :
    EqInv (EqState.start slot id : EqState T) :=
  ⟨⟨Nat.succ_pos 63, Nat.zero_le _, rfl⟩, rfl, rfl, fun _ _ h => (nomatch h), Accounted.nil⟩

/-- **Runs.** -/
theorem inv_reachable (h : Reachable ((eqSystem T).restrict EqOk) s) : EqInv s := by
  refine Reachable.invariant (P := EqInv) (fun s hs => ?_)
    (fun s a s' _ hi (hs : EqOk s a ∧ exec s a = some s') => inv_exec hi hs.1 hs.2) h
  obtain ⟨slot, id, hstart⟩ : ∃ slot id, s = .start slot id := hs
  rw [hstart]
  exact inv_start slot id

/-- A wait in progress, or one whose arguments are accepted. -/
def Waits (t : T) : EqAct T → Prop
  | .call u (.wait numEvents hasOut _) => u = t ∧ ¬ numEvents.sle 0 ∧ hasOut = true
  | .resume u _ => u = t
  | _ => False

/-- A wait takes events from the front, and it does not leave the queue as it is while one is
pending. -/
theorem EqInv.wait_takes {a : EqAct T} (h : EqInv s) (ha : Waits t a) (hs : exec s a = some s') :
    ∃ out, s'.delivered = s.delivered ++ out.map (fun e => (t, e)) ∧
      s.eq.pending = out ++ s'.eq.pending ∧ (s.eq.pending ≠ [] → out ≠ []) := by
  have hnat : ∀ n : BitVec 32, ¬ n.sle 0 → 0 < n.toNat := by
    intro n hn
    refine Nat.pos_of_ne_zero fun hzero => hn ?_
    have hn0 : n = 0 := BitVec.eq_of_toNat_eq hzero
    rw [hn0]
    decide
  cases a with
  | call u op =>
      cases op with
      | wait numEvents hasOut timeout =>
          obtain ⟨rfl, hpos, rfl⟩ := ha
          simp only [exec] at hs
          split at hs
          · cases hs
          · rw [if_neg (by simp), if_neg (by rw [h.inUse]; simp)] at hs
            cases hs
            have hr := KernelEqueueInternal.wait_collects h.wf numEvents timeout
            exact ⟨_, rfl, hr.pending, hr.progress h.live (hnat _ hpos)⟩
      | postEvent c => exact ha.elim
      | triggerEvent c => exact ha.elim
      | triggerUserEvent ident udata => exact ha.elim
      | addUserEvent ident => exact ha.elim
      | addUserEventEdge ident => exact ha.elim
      | removeEvents ident filter => exact ha.elim
      | deleteUserEvent ident => exact ha.elim
  | resume u timedOut =>
      obtain rfl : u = t := ha
      simp only [exec] at hs
      split at hs
      · cases hs
      · rename_i w hw
        cases hs
        have hr := KernelEqueueInternal.resume_collects h.wf w timedOut
        exact ⟨_, rfl, hr.pending, hr.progress h.live (hnat _ (h.need u w hw))⟩

/-- **Delivery.**  In every run in which the ring has room for what is posted, each call that returned
0 belongs to exactly one event, which is delivered, pending or removed by a delete; the delivered
events and then the pending ones stand in the order in which they were posted; the calls of an event
have its identity and filter.  A wait delivers from the front, and at least one event where one is
pending. -/
theorem equeue_delivers (h : Reachable ((eqSystem T).restrict EqOk) s) :
    Accounted (s.delivered.map (·.2) ++ s.eq.pending) s.removed s.calls ∧
      ∀ t a s', Waits t a → exec s a = some s' →
        ∃ out, s'.delivered = s.delivered ++ out.map (fun e => (t, e)) ∧
          s.eq.pending = out ++ s'.eq.pending ∧ (s.eq.pending ≠ [] → out ≠ []) := by
  have hinv := inv_reachable h
  exact ⟨hinv.account, fun _ _ _ ha hs => hinv.wait_takes ha hs⟩

end Invariant

/-! ### runs -/

/-- The slot of the first queue. -/
def firstSlot : KernelEqueueInternal where
  buf _ := { ident := 0, filter := 0, flags := 0, fflags := 0, data := 0, udata := 0, call := 0 }
  head := 0
  tail := 0
  count := 0
  id := 0
  inUse := false
  isDeleted := false

/-- A thread sleeps; two events are triggered, the first one twice; the sleeper takes one event. -/
def triggerRun : List (EqAct Bool) :=
  [.call false (.wait 1 true none), .call true (.triggerEvent ⟨6, -14, 1, 0⟩),
    .call true (.triggerEvent ⟨7, -14, 2, 0⟩), .call true (.triggerEvent ⟨6, -14, 3, 0⟩),
    .resume false false]

theorem equeue_delivers_triggerRun :
    ∃ s : EqState Bool, execAll (guarded EqOk exec) (.start firstSlot 1) triggerRun = some s ∧
      s.delivered.map (·.2.calls) = [[0, 2]] ∧
      Accounted (s.delivered.map (·.2) ++ s.eq.pending) s.removed s.calls := by
  obtain ⟨s, hs⟩ : ∃ s : EqState Bool,
      execAll (guarded EqOk exec) (.start firstSlot 1) triggerRun = some s :=
    Option.isSome_iff_exists.1 (by decide)
  have hreach : Reachable ((eqSystem Bool).restrict EqOk) s :=
    Reachable.guarded (fun _ _ _ hstep => hstep) triggerRun (.init ⟨firstSlot, 1, rfl⟩) hs
  have hcalls : (execAll (guarded EqOk exec) (.start firstSlot 1 : EqState Bool) triggerRun).map
      (·.delivered.map (·.2.calls)) = some [[0, 2]] := by decide
  rw [hs] at hcalls
  exact ⟨s, hs, Option.some.inj hcalls, (equeue_delivers hreach).1⟩

/-- One event more than the ring holds. -/
def fullRun : List (EqAct Unit) :=
  List.replicate (equeueCapacity + 1) (.call () (.triggerUserEvent 1 0))

/-- The last call returns 0, and no event stands for it. -/
theorem equeue_full_discards :
    ¬ ∀ s : EqState Unit, Reachable (eqSystem Unit) s →
      Accounted (s.delivered.map (·.2) ++ s.eq.pending) s.removed s.calls := by
  intro hall
  obtain ⟨s, hs⟩ : ∃ s : EqState Unit, execAll exec (.start firstSlot 1) fullRun = some s :=
    Option.isSome_iff_exists.1 (by decide +kernel)
  have hreach : Reachable (eqSystem Unit) s :=
    Reachable.execAll (fun _ _ _ hstep => hstep) fullRun (.init ⟨firstSlot, 1, rfl⟩) hs
  have hlost : (execAll exec (.start firstSlot 1 : EqState Unit) fullRun).map (fun s =>
      (s.calls.length, (s.delivered.map (·.2) ++ s.eq.pending ++ s.removed).flatMap (·.calls))) =
      some (65, List.range 64) := by decide +kernel
  rw [hs] at hlost
  obtain ⟨hlen, hcalls⟩ := Prod.mk.inj (Option.some.inj hlost)
  have hlength := (hall s hreach).once.length_eq
  rw [hlen] at hlength
  rw [show (s.delivered.map (·.2) ++ s.eq.pending ++ s.removed).flatMap OrbisKernelEvent.calls =
    List.range 64 from hcalls, List.length_range, List.length_range] at hlength
  omega

end PS4Recomp.Runtime.Equeue
