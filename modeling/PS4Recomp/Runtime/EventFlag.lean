import PS4Recomp.Library.SlotTable

/-!
# Event flags

`ps4_event_flag.c`: a 64-bit pattern under the mutex of its slot; a wait tests bits of it and may clear
them.

* `RecompInternalEventFlag` — the slot; `set`, `clear`, `poll`, `wait`, `resume`, `cancel` — the sections
  under its mutex;
* `evfKind` — event flags as objects of a table;
* `resume_dead` — a wait that finds the magic gone fails and clears nothing.

Names are left out.
-/

namespace PS4Recomp.Runtime.EventFlag

open Library

def einval : BitVec 32 := 0x80020016
def enfile : BitVec 32 := 0x80020018
def ebusy : BitVec 32 := 0x80020010
def etimedout : BitVec 32 := 0x8002003c

/-- `EVF_MAGIC`. -/
def evfMagic : BitVec 32 := 0x45564631

/-- The flags of a wait mode. -/
def waitmodeOr : BitVec 32 := 0x02
def waitmodeClearAll : BitVec 32 := 0x10
def waitmodeClearPat : BitVec 32 := 0x20

/-- A slot of `g_evf_table`. -/
structure RecompInternalEventFlag where
  magic : BitVec 32 := 0
  inUse : Bool := false
  attr : BitVec 32 := 0
  pattern : BitVec 64 := 0
  deriving DecidableEq

/-- What a call returns: its code, and what it writes to `resultPattern`, `timeout` and
`pNumWaitThreads`. -/
structure EvfRet where
  code : BitVec 32
  resultPattern : Option (BitVec 64) := none
  timeout : Option (BitVec 32) := none
  numWaitThreads : Option (BitVec 32) := none
  deriving DecidableEq

/-- The arguments of `sceKernelCreateEventFlag`. -/
structure EvfArgs where
  hasOut : Bool
  attr : BitVec 32
  initPattern : BitVec 64
  deriving DecidableEq

/-- The calls on an event flag. -/
inductive EvfOp where
  | set (bits : BitVec 64) | clear (bits : BitVec 64)
  | poll (bits : BitVec 64) (mode : BitVec 32)
  | wait (bits : BitVec 64) (mode : BitVec 32) (timeout : Option (BitVec 32))
  | cancel (pattern : BitVec 64)
  deriving DecidableEq

/-- A blocked thread. -/
structure EvfWait where
  bits : BitVec 64
  mode : BitVec 32
  hasTimeout : Bool
  deriving DecidableEq

/-- `check_evf_condition`. -/
def checkEvfCondition (pattern bits : BitVec 64) (mode : BitVec 32) : Bool :=
  if mode &&& waitmodeOr ≠ 0 then pattern &&& bits != 0 else pattern &&& bits == bits

namespace RecompInternalEventFlag

/-- The fields `sceKernelCreateEventFlag` writes. -/
def create (f : RecompInternalEventFlag) (args : EvfArgs) : RecompInternalEventFlag :=
  { f with magic := evfMagic, attr := args.attr, pattern := args.initPattern }

/-- A wait that is met: the pattern is reported, then cleared as the mode says. -/
def take (f : RecompInternalEventFlag) (bits : BitVec 64) (mode : BitVec 32) :
    EvfRet × RecompInternalEventFlag :=
  ({ code := 0, resultPattern := some f.pattern },
    { f with
      pattern :=
        if mode &&& waitmodeClearAll ≠ 0 then 0
        else if mode &&& waitmodeClearPat ≠ 0 then f.pattern &&& ~~~bits
        else f.pattern })

/-- The loop of `sceKernelWaitEventFlag` from its test on. -/
def recheck (f : RecompInternalEventFlag) (bits : BitVec 64) (mode : BitVec 32) :
    Option EvfRet × RecompInternalEventFlag :=
  if f.magic = evfMagic ∧ ¬ checkEvfCondition f.pattern bits mode then (none, f)
  else if f.magic ≠ evfMagic then (some { code := einval }, f)
  else (some (f.take bits mode).1, (f.take bits mode).2)

/-- `sceKernelWaitEventFlag` under the mutex, up to its first sleep. -/
def wait (f : RecompInternalEventFlag) (bits : BitVec 64) (mode : BitVec 32)
    (timeout : Option (BitVec 32)) : Option EvfRet × RecompInternalEventFlag :=
  if timeout = some 0 then
    if checkEvfCondition f.pattern bits mode then (some (f.take bits mode).1, (f.take bits mode).2)
    else (some { code := etimedout, resultPattern := some f.pattern }, f)
  else f.recheck bits mode

/-- A blocked thread has the mutex again. -/
def resume (f : RecompInternalEventFlag) (w : EvfWait) (timedOut : Bool) :
    Option EvfRet × RecompInternalEventFlag :=
  if w.hasTimeout && timedOut then
    (some { code := etimedout, resultPattern := some f.pattern, timeout := some 0 }, f)
  else f.recheck w.bits w.mode

/-- `sceKernelPollEventFlag` under the mutex. -/
def poll (f : RecompInternalEventFlag) (bits : BitVec 64) (mode : BitVec 32) :
    EvfRet × RecompInternalEventFlag :=
  if checkEvfCondition f.pattern bits mode then f.take bits mode else ({ code := ebusy }, f)

/-- The section of a call. -/
def enter (f : RecompInternalEventFlag) : EvfOp → Option EvfRet × RecompInternalEventFlag
  | .set bits => (some { code := 0 }, { f with pattern := f.pattern ||| bits })
  | .clear bits => (some { code := 0 }, { f with pattern := f.pattern &&& bits })
  | .poll bits mode => (some (f.poll bits mode).1, (f.poll bits mode).2)
  | .wait bits mode timeout => f.wait bits mode timeout
  | .cancel pattern => (some { code := 0, numWaitThreads := some 0 }, { f with pattern })

variable (f : RecompInternalEventFlag)

theorem recheck_magic (bits : BitVec 64) (mode : BitVec 32) :
    (f.recheck bits mode).2.magic = f.magic ∧
      ((f.recheck bits mode).1 = none → f.magic = evfMagic) := by
  unfold recheck
  split
  · rename_i h
    exact ⟨rfl, fun _ => h.1⟩
  · split
    · exact ⟨rfl, fun h => (nomatch h)⟩
    · exact ⟨rfl, fun h => (nomatch h)⟩

theorem enter_magic (op : EvfOp) :
    (f.enter op).2.magic = f.magic ∧ ((f.enter op).1 = none → f.magic = evfMagic) := by
  cases op with
  | set bits => exact ⟨rfl, fun h => (nomatch h)⟩
  | clear bits => exact ⟨rfl, fun h => (nomatch h)⟩
  | cancel pattern => exact ⟨rfl, fun h => (nomatch h)⟩
  | poll bits mode =>
      refine ⟨?_, fun h => (nomatch h)⟩
      show (f.poll bits mode).2.magic = f.magic
      unfold poll
      split
      · rfl
      · rfl
  | wait bits mode timeout =>
      show (f.wait bits mode timeout).2.magic = f.magic ∧
        ((f.wait bits mode timeout).1 = none → f.magic = evfMagic)
      unfold wait
      split
      · split
        · exact ⟨rfl, fun h => (nomatch h)⟩
        · exact ⟨rfl, fun h => (nomatch h)⟩
      · exact f.recheck_magic bits mode

theorem resume_magic (w : EvfWait) (timedOut : Bool) :
    (f.resume w timedOut).2.magic = f.magic ∧
      ((f.resume w timedOut).1 = none → f.magic = evfMagic) := by
  unfold resume
  split
  · exact ⟨rfl, fun h => (nomatch h)⟩
  · exact f.recheck_magic w.bits w.mode

/-- A blocked thread that finds the magic gone fails, and the pattern stays. -/
theorem resume_dead (w : EvfWait) (timedOut : Bool) (h : f.magic ≠ evfMagic) :
    ∃ r f', f.resume w timedOut = (some r, f') ∧ r.code ≠ 0 ∧ f'.pattern = f.pattern := by
  have htimed : etimedout ≠ 0 := by decide
  have hinval : einval ≠ 0 := by decide
  unfold resume
  split
  · exact ⟨_, _, rfl, htimed, rfl⟩
  · unfold recheck
    rw [if_neg (fun e => h e.1), if_pos h]
    exact ⟨_, _, rfl, hinval, rfl⟩

end RecompInternalEventFlag

/-- Event flags in `g_evf_table`. -/
def evfKind : TableKind RecompInternalEventFlag EvfArgs EvfOp EvfWait EvfRet where
  size := 1024
  empty := {}
  used f := f.inUse
  alive f := f.magic == evfMagic
  claim f := { f with inUse := true }
  init f args := f.create args
  kill f := { f with magic := 0 }
  release f := { f with inUse := false }
  enter := RecompInternalEventFlag.enter
  resume := RecompInternalEventFlag.resume
  sleeper
    | .wait bits mode timeout => some ⟨bits, mode, timeout.isSome⟩
    | _ => none
  timed w := w.hasTimeout
  createRefused args := if args.hasOut then none else some { code := einval }
  opRefused _ := none
  full := { code := enfile }
  missing := { code := einval }
  done := { code := 0 }
  alive_claim _ := rfl
  alive_kill _ := rfl
  alive_release _ := rfl
  alive_enter f op := by rw [(f.enter_magic op).1]
  alive_resume f w timedOut := by rw [(f.resume_magic w timedOut).1]
  enter_sleeps f op h := beq_iff_eq.2 ((f.enter_magic op).2 h)
  resume_sleeps f w timedOut h := beq_iff_eq.2 ((f.resume_magic w timedOut).2 h)

end PS4Recomp.Runtime.EventFlag
