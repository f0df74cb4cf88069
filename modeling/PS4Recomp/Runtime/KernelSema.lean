import PS4Recomp.Library.Transition

/-!
# Kernel semaphores

`ps4_semaphore.c`: a counter between 0 and a maximum, 32-bit signed, under the mutex of its slot.
A call checks its arguments, then the slot, then runs one section under the mutex; a waiter that
sleeps runs another section each time it wakes.

* `RecompKernelSema` — the slot; `signal`, `wait`, `resume`, `poll`, `cancel` — the sections, with the
  code the call returns, or none where the thread goes to sleep;
* `SemaState`, `SemaAct`, `exec`, `semaSystem` — one semaphore and any threads; `history` lists the
  calls that changed the counter, and no code reads it;
* `SemaOk` — no signal runs past `2 ^ 31`, no cancel sets a count above the maximum;
* `SemaBounded`, `bounded_exec` — the invariant and its step lemma;
* **`kernelSema_bounded`** — in runs of such steps the counter stays in its bounds and is the balance
  of the history.

Additions wrap.  The name of a semaphore is left out.
-/

namespace PS4Recomp.Runtime.KernelSema

open Library Library.Transition

def einval : BitVec 32 := 0x80020016
def enfile : BitVec 32 := 0x80020018
def esrch : BitVec 32 := 0x80020003
def ebusy : BitVec 32 := 0x80020010
def etimedout : BitVec 32 := 0x8002003c

/-- `KSEM_MAGIC`. -/
def ksemMagic : BitVec 32 := 0x4b53454d

/-- A slot of `g_ksem_table`. -/
structure RecompKernelSema where
  magic : BitVec 32 := 0
  inUse : Bool := false
  currentCount : BitVec 32 := 0
  initCount : BitVec 32 := 0
  maxCount : BitVec 32 := 0
  attr : BitVec 32 := 0
  numWaiters : BitVec 32 := 0
  deriving DecidableEq

/-- What a call returns: its code, and what it writes to `pNumWaitThreads` and `pTimeout`. -/
structure SemaRet where
  code : BitVec 32
  numWaitThreads : Option (BitVec 32) := none
  timeout : Option (BitVec 32) := none
  deriving DecidableEq

/-- The calls on a semaphore.  A timeout is the value behind `pTimeout`. -/
inductive SemaOp where
  | signal (signalCount : BitVec 32)
  | wait (needCount : BitVec 32) (timeout : Option (BitVec 32))
  | poll (needCount : BitVec 32)
  | cancel (setCount : BitVec 32)
  deriving DecidableEq

/-- A sleeping thread. -/
structure SemaWait where
  needCount : BitVec 32
  hasTimeout : Bool
  deriving DecidableEq

/-! ### the sections -/

namespace RecompKernelSema

/-- The check of `get_ksem`. -/
def live (s : RecompKernelSema) : Bool := s.inUse && s.magic == ksemMagic

/-- The fields `sceKernelCreateSema` writes. -/
def create (s : RecompKernelSema) (attr initCount maxCount : BitVec 32) : RecompKernelSema :=
  { s with
    magic := ksemMagic, initCount, maxCount, currentCount := initCount, attr, numWaiters := 0 }

/-- `sceKernelSignalSema` under the mutex. -/
def signal (s : RecompKernelSema) (signalCount : BitVec 32) : SemaRet × RecompKernelSema :=
  if s.maxCount.slt (s.currentCount + signalCount) then ({ code := einval }, s)
  else ({ code := 0 }, { s with currentCount := s.currentCount + signalCount })

/-- `sceKernelPollSema` under the mutex. -/
def poll (s : RecompKernelSema) (needCount : BitVec 32) : SemaRet × RecompKernelSema :=
  if needCount.sle s.currentCount then
    ({ code := 0 }, { s with currentCount := s.currentCount - needCount })
  else ({ code := ebusy }, s)

/-- `sceKernelCancelSema` under the mutex. -/
def cancel (s : RecompKernelSema) (setCount : BitVec 32) : SemaRet × RecompKernelSema :=
  ({ code := 0, numWaitThreads := some s.numWaiters },
    { s with currentCount := if setCount.slt 0 then s.initCount else setCount })

/-- The loop of `sceKernelWaitSema` from its test on: asleep again, or the end of the call. -/
def recheck (s : RecompKernelSema) (needCount : BitVec 32) : Option SemaRet × RecompKernelSema :=
  if s.magic = ksemMagic ∧ s.currentCount.slt needCount then (none, s)
  else if s.magic ≠ ksemMagic then
    (some { code := esrch }, { s with numWaiters := s.numWaiters - 1 })
  else
    (some { code := 0 },
      { s with numWaiters := s.numWaiters - 1, currentCount := s.currentCount - needCount })

/-- `sceKernelWaitSema` under the mutex, up to its first sleep. -/
def wait (s : RecompKernelSema) (needCount : BitVec 32) (timeout : Option (BitVec 32)) :
    Option SemaRet × RecompKernelSema :=
  if needCount.sle s.currentCount then
    (some { code := 0 }, { s with currentCount := s.currentCount - needCount })
  else if timeout = some 0 then (some { code := etimedout }, s)
  else { s with numWaiters := s.numWaiters + 1 }.recheck needCount

/-- A sleeper of `sceKernelWaitSema` has the mutex again. -/
def resume (s : RecompKernelSema) (w : SemaWait) (timedOut : Bool) :
    Option SemaRet × RecompKernelSema :=
  if w.hasTimeout && timedOut then
    (some { code := etimedout, timeout := some 0 }, { s with numWaiters := s.numWaiters - 1 })
  else s.recheck w.needCount

/-- The section of a call. -/
def enter (s : RecompKernelSema) : SemaOp → Option SemaRet × RecompKernelSema
  | .signal n => (s.signal n).map some id
  | .wait n timeout => s.wait n timeout
  | .poll n => (s.poll n).map some id
  | .cancel n => (s.cancel n).map some id

end RecompKernelSema

/-- The arguments `sceKernelCreateSema` refuses. -/
def createInvalid (hasSem hasName : Bool) (attr initCount maxCount : BitVec 32) : Bool :=
  !hasSem || !hasName || (2 : BitVec 32).ult attr || initCount.slt 0 || maxCount.sle 0 ||
    maxCount.slt initCount

/-- The arguments the other calls refuse. -/
def SemaOp.invalid : SemaOp → Bool
  | .signal n | .wait n _ | .poll n => n.sle 0
  | .cancel _ => false

/-- Where the thread sleeps when the call does not return. -/
def SemaOp.sleeper : SemaOp → Option SemaWait
  | .wait n timeout => some ⟨n, timeout.isSome⟩
  | _ => none

/-! ### the machine -/

/-- A call that changed the counter. -/
inductive SemaEvent where
  | set (value : ℤ) | signalled (n : ℤ) | waited (n : ℤ)
  deriving DecidableEq

/-- The value set last, plus what was signalled, minus what was waited for; the latest event comes
first. -/
def balance : List SemaEvent → ℤ
  | [] => 0
  | .set v :: _ => v
  | .signalled n :: es => balance es + n
  | .waited n :: es => balance es - n

/-- The event of a call that returns 0. -/
def SemaOp.event (s : RecompKernelSema) : SemaOp → SemaEvent
  | .signal n => .signalled n.toInt
  | .wait n _ | .poll n => .waited n.toInt
  | .cancel n => .set (if n.slt 0 then s.initCount.toInt else n.toInt)

/-- The slot, the calls that changed the counter, what the last step returned, and who sleeps. -/
structure SemaState (T : Type*) where
  sema : RecompKernelSema := {}
  history : List SemaEvent := []
  ret : Option SemaRet := none
  asleep : T → Option SemaWait := fun _ => none

/-- The steps.  `create` brings whether the table has a slot left; a sleeper may resume at any
time. -/
inductive SemaAct (T : Type*) where
  | create (t : T) (hasSem hasName hasSlot : Bool) (attr initCount maxCount : BitVec 32)
  | call (t : T) (op : SemaOp)
  | resume (t : T) (timedOut : Bool)

/-- A call's answer is a success. -/
def succeeds (r : Option SemaRet) : Bool := r.any fun r => r.code == 0

section Machine

variable {T : Type*} [DecidableEq T]

/-- A section ended: its answer, the slot it leaves, the event of its success, the thread's sleep. -/
def SemaState.after (s : SemaState T) (t : T) (r : Option SemaRet × RecompKernelSema) (e : SemaEvent)
    (w : Option SemaWait) : SemaState T where
  sema := r.2
  history := if succeeds r.1 then e :: s.history else s.history
  ret := r.1
  asleep := Function.update s.asleep t (if r.1.isSome then none else w)

/-- A call returned a code at once. -/
def SemaState.refuse (s : SemaState T) (code : BitVec 32) : SemaState T :=
  { s with ret := some { code } }

/-- A step; `none` where it is not possible. -/
def exec (s : SemaState T) : SemaAct T → Option (SemaState T)
  | .create t hasSem hasName hasSlot attr initCount maxCount =>
      if s.asleep t ≠ none ∨ s.sema.inUse then none
      else if createInvalid hasSem hasName attr initCount maxCount then some (s.refuse einval)
      else if !hasSlot then some (s.refuse enfile)
      else some { s with
        sema := { s.sema with inUse := true }.create attr initCount maxCount
        history := .set initCount.toInt :: s.history
        ret := some { code := 0 } }
  | .call t op =>
      if s.asleep t ≠ none then none
      else if op.invalid then some (s.refuse einval)
      else if !s.sema.live then some (s.refuse esrch)
      else some (s.after t (s.sema.enter op) (op.event s.sema) op.sleeper)
  | .resume t timedOut =>
      match s.asleep t with
      | none => none
      | some w => some (s.after t (s.sema.resume w timedOut) (.waited w.needCount.toInt) (some w))

/-- All interleavings of calls on one semaphore. -/
def semaSystem (T : Type*) [DecidableEq T] : System (SemaState T) (SemaAct T) where
  init s := s = {}
  step s a s' := exec s a = some s'

/-- The step stays clear of the two unchecked sums: a signal fits in 31 bits, a cancel sets at most the
maximum. -/
def SemaOk (s : SemaState T) : SemaAct T → Prop
  | .call _ (.signal n) => s.sema.currentCount.toInt + n.toInt < 2 ^ 31
  | .call _ (.cancel n) => n.toInt ≤ s.sema.maxCount.toInt
  | _ => True

instance (s : SemaState T) : ∀ a, Decidable (SemaOk s a)
  | .call _ (.signal n) => inferInstanceAs (Decidable (s.sema.currentCount.toInt + n.toInt < 2 ^ 31))
  | .call _ (.cancel n) => inferInstanceAs (Decidable (n.toInt ≤ s.sema.maxCount.toInt))
  | .call _ (.wait _ _) | .call _ (.poll _) | .create .. | .resume .. =>
      inferInstanceAs (Decidable True)

/-! ### the sections and the counter -/

/-- A section that takes `n` from the counter, or leaves it. -/
structure Takes (k : RecompKernelSema) (n : BitVec 32) (r : Option SemaRet × RecompKernelSema) :
    Prop where
  maxCount : r.2.maxCount = k.maxCount
  initCount : r.2.initCount = k.initCount
  taken : succeeds r.1 = true → n.toInt ≤ k.currentCount.toInt ∧
    r.2.currentCount = k.currentCount - n
  failed : succeeds r.1 = false → r.2.currentCount = k.currentCount

namespace RecompKernelSema

variable (k : RecompKernelSema) (n : BitVec 32)

theorem poll_takes : Takes k n ((k.poll n).map some id) := by
  unfold poll
  split
  · rename_i hle
    exact ⟨rfl, rfl, fun _ => ⟨BitVec.sle_iff_toInt_le.1 hle, rfl⟩, fun h => (nomatch h)⟩
  · exact ⟨rfl, rfl, fun h => (nomatch h), fun _ => rfl⟩

theorem recheck_takes : Takes k n (k.recheck n) := by
  unfold recheck
  split
  · exact ⟨rfl, rfl, fun h => (nomatch h), fun _ => rfl⟩
  · rename_i hready
    split
    · exact ⟨rfl, rfl, fun h => (nomatch h), fun _ => rfl⟩
    · rename_i hmagic
      refine ⟨rfl, rfl, fun _ => ⟨?_, rfl⟩, fun h => (nomatch h)⟩
      rw [not_and] at hready
      have hle := hready (not_not.1 hmagic)
      rw [BitVec.slt_iff_toInt_lt] at hle
      omega

theorem wait_takes (timeout : Option (BitVec 32)) : Takes k n (k.wait n timeout) := by
  unfold wait
  split
  · rename_i hle
    exact ⟨rfl, rfl, fun _ => ⟨BitVec.sle_iff_toInt_le.1 hle, rfl⟩, fun h => (nomatch h)⟩
  · split
    · exact ⟨rfl, rfl, fun h => (nomatch h), fun _ => rfl⟩
    · exact ⟨(recheck_takes _ n).maxCount, (recheck_takes _ n).initCount, (recheck_takes _ n).taken,
        (recheck_takes _ n).failed⟩

theorem resume_takes (w : SemaWait) (timedOut : Bool) : Takes k w.needCount (k.resume w timedOut) := by
  unfold resume
  split
  · exact ⟨rfl, rfl, fun h => (nomatch h), fun _ => rfl⟩
  · exact recheck_takes k w.needCount

theorem enter_signal :
    k.enter (.signal n) = (some { code := einval }, k) ∧
        k.maxCount.toInt < (k.currentCount + n).toInt ∨
      k.enter (.signal n) = (some { code := 0 }, { k with currentCount := k.currentCount + n }) ∧
        (k.currentCount + n).toInt ≤ k.maxCount.toInt := by
  have hdef : k.enter (.signal n) = (k.signal n).map some id := rfl
  rw [hdef, signal]
  split
  · rename_i hlt
    exact .inl ⟨rfl, BitVec.slt_iff_toInt_lt.1 hlt⟩
  · rename_i hle
    rw [BitVec.slt_iff_toInt_lt] at hle
    exact .inr ⟨rfl, by omega⟩

/-- A section that does not succeed leaves the counter alone. -/
theorem enter_failed (op : SemaOp) (h : succeeds (k.enter op).1 = false) :
    (k.enter op).2.currentCount = k.currentCount := by
  cases op with
  | signal n =>
      rcases k.enter_signal n with ⟨heq, -⟩ | ⟨heq, -⟩
      · rw [heq]
      · rw [heq] at h
        cases h
  | wait n timeout => exact (k.wait_takes n timeout).failed h
  | poll n => exact (k.poll_takes n).failed h
  | cancel n => cases h

end RecompKernelSema

theorem toInt_sub_of_le {x y : BitVec 32} (hy : 0 < y.toInt) (h : y.toInt ≤ x.toInt) :
    (x - y).toInt = x.toInt - y.toInt := by
  have hx := x.toInt_lt
  rw [BitVec.toInt_sub]
  exact Int.bmod_eq_of_le (by omega) (by omega)

theorem toInt_add_of_lt {x y : BitVec 32} (hx : 0 ≤ x.toInt) (hy : 0 < y.toInt)
    (h : x.toInt + y.toInt < 2 ^ 31) : (x + y).toInt = x.toInt + y.toInt := by
  rw [BitVec.toInt_add]
  exact Int.bmod_eq_of_le (by omega) (by omega)

/-! ### the invariant -/

/-- The counter is in its bounds, and it is the balance of the calls that changed it. -/
structure SemaBounded (s : SemaState T) : Prop where
  count : 0 ≤ s.sema.currentCount.toInt ∧ s.sema.currentCount.toInt ≤ s.sema.maxCount.toInt
  init : 0 ≤ s.sema.initCount.toInt ∧ s.sema.initCount.toInt ≤ s.sema.maxCount.toInt
  need : ∀ t w, s.asleep t = some w → 0 < w.needCount.toInt
  counted : s.sema.currentCount.toInt = balance s.history

variable {s s' : SemaState T} {t : T}

omit [DecidableEq T] in
/-- A call that returns at once changes neither the counter nor the history. -/
theorem SemaBounded.refuse (h : SemaBounded s) (code : BitVec 32) : SemaBounded (s.refuse code) :=
  ⟨h.count, h.init, h.need, h.counted⟩

theorem SemaBounded.need_after (h : SemaBounded s) {r : Option SemaRet × RecompKernelSema}
    {e : SemaEvent} {w : Option SemaWait} (hw : ∀ w', w = some w' → 0 < w'.needCount.toInt) (u : T)
    (w' : SemaWait) (hu : (s.after t r e w).asleep u = some w') : 0 < w'.needCount.toInt := by
  have hu' : Function.update s.asleep t (if r.1.isSome then none else w) u = some w' := hu
  by_cases hut : u = t
  · rw [hut, Function.update_self] at hu'
    split at hu'
    · cases hu'
    · exact hw w' hu'
  · rw [Function.update_of_ne hut] at hu'
    exact h.need u w' hu'

/-- A section that takes `n > 0` or nothing keeps the invariant. -/
theorem SemaBounded.take (h : SemaBounded s) {r : Option SemaRet × RecompKernelSema} {n : BitVec 32}
    {w : Option SemaWait} (hn : 0 < n.toInt) (hr : Takes s.sema n r)
    (hw : ∀ w', w = some w' → 0 < w'.needCount.toInt) :
    SemaBounded (s.after t r (.waited n.toInt) w) := by
  have hinit : 0 ≤ r.2.initCount.toInt ∧ r.2.initCount.toInt ≤ r.2.maxCount.toInt := by
    rw [hr.initCount, hr.maxCount]
    exact h.init
  have hneed := fun u w' hu => h.need_after (t := t) (r := r) (e := .waited n.toInt) hw u w' hu
  have hmax := hr.maxCount
  have hcount := h.count
  cases hs : succeeds r.1 with
  | true =>
      obtain ⟨hle, hcur⟩ := hr.taken hs
      have hval : r.2.currentCount.toInt = s.sema.currentCount.toInt - n.toInt := by
        rw [hcur, toInt_sub_of_le hn hle]
      refine ⟨?_, hinit, hneed, ?_⟩
      · show 0 ≤ r.2.currentCount.toInt ∧ r.2.currentCount.toInt ≤ r.2.maxCount.toInt
        rw [hval, hmax]
        omega
      · show r.2.currentCount.toInt = balance (if succeeds r.1 then _ else _)
        rw [hval, hs, if_pos rfl, h.counted]
        rfl
  | false =>
      have hcur := hr.failed hs
      refine ⟨?_, hinit, hneed, ?_⟩
      · show 0 ≤ r.2.currentCount.toInt ∧ r.2.currentCount.toInt ≤ r.2.maxCount.toInt
        rw [hcur, hmax]
        exact hcount
      · show r.2.currentCount.toInt = balance (if succeeds r.1 then _ else _)
        rw [hcur, hs, if_neg (by simp)]
        exact h.counted

theorem SemaBounded.signal (h : SemaBounded s) {n : BitVec 32} (hn : 0 < n.toInt)
    (hok : s.sema.currentCount.toInt + n.toInt < 2 ^ 31) :
    SemaBounded (s.after t (s.sema.enter (.signal n)) (.signalled n.toInt) none) := by
  have hneed := fun u w' hu => h.need_after (t := t) (r := s.sema.enter (.signal n))
    (e := .signalled n.toInt) (w := none) (fun _ e => (nomatch e)) u w' hu
  rcases s.sema.enter_signal n with ⟨heq, -⟩ | ⟨heq, hle⟩
  · rw [heq] at hneed ⊢
    exact ⟨h.count, h.init, hneed, h.counted⟩
  · rw [heq] at hneed ⊢
    have hval := toInt_add_of_lt h.count.1 hn hok
    have hpos := h.count.1
    refine ⟨⟨?_, hle⟩, h.init, hneed, ?_⟩
    · show 0 ≤ (s.sema.currentCount + n).toInt
      omega
    · show (s.sema.currentCount + n).toInt = balance s.history + n.toInt
      rw [hval, h.counted]

/-- A cancel to at most the maximum keeps the invariant. -/
theorem SemaBounded.cancel (h : SemaBounded s) {n : BitVec 32}
    (hok : n.toInt ≤ s.sema.maxCount.toInt) :
    SemaBounded (s.after t (s.sema.enter (.cancel n)) (SemaOp.event s.sema (.cancel n)) none) := by
  have hneed := fun u w' hu => h.need_after (t := t) (r := s.sema.enter (.cancel n))
    (e := SemaOp.event s.sema (.cancel n)) (w := none) (fun _ e => (nomatch e)) u w' hu
  have hset : (if n.slt 0 then s.sema.initCount else n).toInt =
      if n.slt 0 then s.sema.initCount.toInt else n.toInt := by
    split
    · rfl
    · rfl
  refine ⟨?_, h.init, hneed, hset⟩
  show 0 ≤ (if n.slt 0 then s.sema.initCount else n).toInt ∧
    (if n.slt 0 then s.sema.initCount else n).toInt ≤ s.sema.maxCount.toInt
  rw [hset]
  split
  · exact h.init
  · rename_i hpos
    rw [BitVec.slt_iff_toInt_lt] at hpos
    have hzero : (0 : BitVec 32).toInt = 0 := rfl
    omega

/-- **Step.**  A step that meets `SemaOk` keeps the invariant. -/
theorem bounded_exec {a : SemaAct T} (h : SemaBounded s) (hok : SemaOk s a)
    (hs : exec s a = some s') : SemaBounded s' := by
  have hzero : (0 : BitVec 32).toInt = 0 := rfl
  cases a with
  | create t hasSem hasName hasSlot attr initCount maxCount =>
      simp only [exec] at hs
      split at hs
      · cases hs
      · split at hs
        · cases hs
          exact h.refuse _
        · rename_i hvalid
          split at hs
          · cases hs
            exact h.refuse _
          · cases hs
            simp only [createInvalid, Bool.or_eq_true, not_or, BitVec.slt_iff_toInt_lt] at hvalid
            obtain ⟨⟨⟨-, hpos⟩, -⟩, hle⟩ := hvalid
            have hbounds : 0 ≤ initCount.toInt ∧ initCount.toInt ≤ maxCount.toInt := by omega
            exact ⟨hbounds, hbounds, h.need, rfl⟩
  | call t op =>
      simp only [exec] at hs
      split at hs
      · cases hs
      · split at hs
        · cases hs
          exact h.refuse _
        · rename_i hvalid
          split at hs
          · cases hs
            exact h.refuse _
          · cases hs
            have hpos : ∀ n : BitVec 32, ¬ n.sle 0 = true → 0 < n.toInt := by
              intro n hn
              rw [BitVec.sle_iff_toInt_le] at hn
              omega
            cases op with
            | signal n => exact h.signal (hpos n hvalid) hok
            | wait n timeout =>
                refine h.take (hpos n hvalid) (s.sema.wait_takes n timeout) fun w' hw => ?_
                cases hw
                exact hpos n hvalid
            | poll n =>
                exact h.take (hpos n hvalid) (s.sema.poll_takes n) fun w' hw => (nomatch hw)
            | cancel n => exact h.cancel hok
  | resume t timedOut =>
      simp only [exec] at hs
      split at hs
      · cases hs
      · rename_i w hw
        cases hs
        refine h.take (h.need t w hw) (s.sema.resume_takes w timedOut) fun w' hw' => ?_
        cases hw'
        exact h.need t w hw

omit [DecidableEq T] in
theorem bounded_start : SemaBounded ({} : SemaState T) where
  count := ⟨Int.le_refl 0, Int.le_refl 0⟩
  init := ⟨Int.le_refl 0, Int.le_refl 0⟩
  need _ _ h := (nomatch h)
  counted := rfl

/-- **Runs.** -/
theorem bounded_reachable (h : Reachable ((semaSystem T).restrict SemaOk) s) : SemaBounded s := by
  refine Reachable.invariant (P := SemaBounded) (fun _ hs => ?_)
    (fun s a s' _ hi (hs : SemaOk s a ∧ exec s a = some s') => bounded_exec hi hs.1 hs.2) h
  rw [show _ = _ from hs]
  exact bounded_start

/-- A call that returns an error, or does not return yet, leaves the counter alone. -/
theorem exec_failed {a : SemaAct T} (hs : exec s a = some s') (hret : succeeds s'.ret = false) :
    s'.sema.currentCount = s.sema.currentCount := by
  cases a with
  | create t hasSem hasName hasSlot attr initCount maxCount =>
      simp only [exec] at hs
      split at hs
      · cases hs
      · split at hs
        · cases hs
          rfl
        · split at hs
          · cases hs
            rfl
          · cases hs
            cases hret
  | call t op =>
      simp only [exec] at hs
      split at hs
      · cases hs
      · split at hs
        · cases hs
          rfl
        · split at hs
          · cases hs
            rfl
          · cases hs
            exact s.sema.enter_failed op hret
  | resume t timedOut =>
      simp only [exec] at hs
      split at hs
      · cases hs
      · rename_i w hw
        cases hs
        exact (s.sema.resume_takes w timedOut).failed hret

/-- **The counter.**  In every run whose signals fit in 31 bits and whose cancels set at most the
maximum, the counter is in its bounds and is the balance of the calls that changed it; and only a call
that returns 0 changes it. -/
theorem kernelSema_bounded (h : Reachable ((semaSystem T).restrict SemaOk) s) :
    (0 ≤ s.sema.currentCount.toInt ∧ s.sema.currentCount.toInt ≤ s.sema.maxCount.toInt) ∧
      s.sema.currentCount.toInt = balance s.history ∧
      ∀ a s', exec s a = some s' → succeeds s'.ret = false →
        s'.sema.currentCount = s.sema.currentCount := by
  have hinv := bounded_reachable h
  exact ⟨hinv.count, hinv.counted, fun _ _ hs hret => exec_failed hs hret⟩

end Machine

/-! ### runs -/

/-- A thread sleeps, is signalled, and takes the count; then the semaphore is cancelled to 1. -/
def signalRun : List (SemaAct Bool) :=
  [.create true true true true 1 0 5, .call false (.wait 2 none), .call true (.signal 3),
    .resume false false, .call true (.cancel 1)]

theorem kernelSema_bounded_signalRun :
    ∃ s : SemaState Bool, execAll (guarded SemaOk exec) {} signalRun = some s ∧
      s.history.length = 4 ∧ s.sema.currentCount.toInt = balance s.history := by
  obtain ⟨s, hs⟩ : ∃ s : SemaState Bool, execAll (guarded SemaOk exec) {} signalRun = some s :=
    Option.isSome_iff_exists.1 (by decide)
  have hreach : Reachable ((semaSystem Bool).restrict SemaOk) s :=
    Reachable.guarded (fun _ _ _ hstep => hstep) signalRun (.init rfl) hs
  have hlen : (execAll (guarded SemaOk exec) ({} : SemaState Bool) signalRun).map
      (·.history.length) = some 4 := by decide
  rw [hs] at hlen
  exact ⟨s, hs, Option.some.inj hlen, (kernelSema_bounded hreach).2.1⟩

/-- A cancel above the maximum: the semaphore was created with the maximum 1. -/
def cancelRun : List (SemaAct Unit) :=
  [.create () true true true 1 0 1, .call () (.cancel 5)]

/-- Create and signal refuse such a count, cancel sets it. -/
theorem kernelSema_cancel_unbounded :
    ¬ ∀ s : SemaState Unit, Reachable (semaSystem Unit) s →
      s.sema.currentCount.toInt ≤ s.sema.maxCount.toInt := by
  intro hall
  obtain ⟨s, hs⟩ : ∃ s : SemaState Unit, execAll exec {} cancelRun = some s :=
    Option.isSome_iff_exists.1 (by decide)
  have hreach : Reachable (semaSystem Unit) s :=
    Reachable.execAll (fun _ _ _ hstep => hstep) cancelRun (.init rfl) hs
  have hbad : (execAll exec ({} : SemaState Unit) cancelRun).map
      (fun s => decide (s.sema.currentCount.toInt ≤ s.sema.maxCount.toInt)) = some false := by decide
  rw [hs] at hbad
  exact of_decide_eq_false (Option.some.inj hbad) (hall s hreach)

end PS4Recomp.Runtime.KernelSema
