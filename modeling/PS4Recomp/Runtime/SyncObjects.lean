import PS4Recomp.Library.SlotPool
import PS4Recomp.Library.Transition
import PS4Recomp.Library.Lock
import PS4Recomp.Runtime.VmOrdered

/-!
# The arena of synchronization objects

`ps4_sync_objects.c`: mutexes, condition variables and read-write locks of the guest are slots of an
arena, taken and given back under one lock.  Every access is a step of its own, and any thread may
call with any address.

* `SyncArena` — the mapping `recomp_vm_alloc_named` returns;
* `syncObjIndex`, `syncObjSlot` — the slot of an address;
* `SyncPlace`, `SyncState`, `SyncAct`, `exec`, `syncSystem` — the machine; `history` is the order in
  which slots were handed out and given back, and no code reads it;
* `SyncInv`, `inv_exec` — the invariant and its step lemma;
* **`syncObjects_safe`** — every slot has one status, and no slot is handed out twice.

The clearing of a slot's bytes is left out, no result depends on it.
-/

namespace PS4Recomp.Runtime.SyncObjects

open Library Library.Transition

/-- `SYNC_OBJ_STRIDE`. -/
def syncObjStride : ℕ := 0x80

/-- `SYNC_OBJ_SLOTS`. -/
def syncObjSlots : ℕ := 2 ^ 20

/-- The guest memory of the arena: not at 0, and inside the address space. -/
structure SyncArena where
  base : BitVec 64
  base_ne : base ≠ 0
  fits : base.toNat + syncObjStride * syncObjSlots ≤ 2 ^ 64

/-! ### slots and addresses -/

/-- `sync_obj_index`: the slot of an address of the arena, live or not. -/
def syncObjIndex (base v : BitVec 64) : Option ℕ :=
  if base = 0 ∨ v < base then none
  else
    let off := (v - base).toNat
    if syncObjStride * syncObjSlots ≤ off ∨ off % syncObjStride ≠ 0 then none
    else some (off / syncObjStride)

/-- `sync_obj_slot`: the slot of an address of a live object. -/
def syncObjSlot (base : BitVec 64) (p : Pool) (v : BitVec 64) : Option ℕ :=
  (syncObjIndex base v).filter fun slot => p.live slot

/-- The address of a slot. -/
def slotAddr (base : BitVec 64) (slot : ℕ) : BitVec 64 := base + BitVec.ofNat 64 (slot * syncObjStride)

theorem syncObjIndex_slotAddr (a : SyncArena) {slot : ℕ} (h : slot < syncObjSlots) :
    syncObjIndex a.base (slotAddr a.base slot) = some slot := by
  have hfits := a.fits
  have hoff : (BitVec.ofNat 64 (slot * syncObjStride)).toNat = slot * syncObjStride := by
    rw [BitVec.toNat_ofNat]
    unfold syncObjStride syncObjSlots at *
    omega
  have hsum : (slotAddr a.base slot).toNat = a.base.toNat + slot * syncObjStride := by
    rw [slotAddr, BitVec.toNat_add_of_lt, hoff]
    rw [hoff]
    unfold syncObjStride syncObjSlots at *
    omega
  have hlt : ¬ (a.base = 0 ∨ slotAddr a.base slot < a.base) := by
    rw [not_or]
    refine ⟨a.base_ne, ?_⟩
    rw [BitVec.lt_def, hsum]
    omega
  have hdiff : (slotAddr a.base slot - a.base).toNat = slot * syncObjStride := by
    rw [BitVec.toNat_sub_of_le (by rw [BitVec.le_def, hsum]; omega), hsum]
    omega
  unfold syncObjIndex
  rw [if_neg hlt, hdiff]
  dsimp only
  rw [if_neg (by unfold syncObjStride syncObjSlots at *; omega)]
  congr 1
  exact Nat.mul_div_cancel _ (by decide)

/-! ### the machine -/

/-- Where a thread is: `want` before the lock, `in` inside it, `has` with a slot in its hands. -/
inductive SyncPlace where
  | out
  | allocWant | allocIn | allocReady | allocHas (slot : ℕ)
  | freeWant (v : BitVec 64) | freeIn (v : BitVec 64) | freeHas (slot : ℕ)
  deriving DecidableEq

/-- The thread holds the lock. -/
def SyncPlace.holds : SyncPlace → Bool
  | .allocIn | .allocReady | .allocHas _ | .freeIn _ | .freeHas _ => true
  | _ => false

/-- The slot in the thread's hands. -/
def SyncPlace.slot : SyncPlace → Option ℕ
  | .allocHas slot | .freeHas slot => some slot
  | _ => none

/-- A slot handed out, or given back. -/
structure SyncEvent where
  slot : ℕ
  handed : Bool
  deriving DecidableEq

/-- The last event of a slot handed it out; the latest event comes first. -/
def handedOut : List SyncEvent → ℕ → Bool
  | [], _ => false
  | e :: es, slot => if e.slot = slot then e.handed else handedOut es slot

/-- Slots are handed out only when they are not, and given back only when they are. -/
def Alternates : List SyncEvent → Prop
  | [] => True
  | e :: es => handedOut es e.slot = !e.handed ∧ Alternates es

/-- The globals, the lock's owner, the history, and where each thread is. -/
structure SyncState (T : Type*) where
  base : BitVec 64 := 0
  pool : Pool := {}
  lock : Option T := none
  history : List SyncEvent := []
  place : T → SyncPlace := fun _ => .out

/-- The steps.  `create` brings what the allocators return; `index` and `slot` read without the
lock. -/
inductive SyncAct (T : Type*) where
  | callAlloc (t : T) | callFree (t : T) (v : BitVec 64) | enter (t : T)
  | create (t : T) (arena : Option SyncArena) (malloc : Bool)
  | take (t : T) | publish (t : T) | check (t : T) | push (t : T)
  | index (t : T) (v : BitVec 64) | slot (t : T) (v : BitVec 64)

section Machine

variable {T : Type*}

/-- The slot in the hands of the thread that holds the lock. -/
def SyncState.held (s : SyncState T) : Option ℕ := s.lock.bind fun t => (s.place t).slot

theorem held_eq {s : SyncState T} {t : T} {p : SyncPlace} (h : s.lock = some t) (hp : s.place t = p) :
    s.held = p.slot := by
  rw [SyncState.held, h, ← hp]
  rfl

variable [DecidableEq T]

/-- A thread moved. -/
def SyncState.goto (s : SyncState T) (t : T) (p : SyncPlace) : SyncState T :=
  { s with place := Function.update s.place t p }

/-- A thread leaves the lock and the call. -/
def SyncState.leave (s : SyncState T) (t : T) : SyncState T :=
  { s.goto t .out with lock := none }

/-- A step; `none` where it is not possible. -/
def exec (s : SyncState T) : SyncAct T → Option (SyncState T)
  | .callAlloc t => if s.place t = .out then some (s.goto t .allocWant) else none
  | .callFree t v => if s.place t = .out then some (s.goto t (.freeWant v)) else none
  | .enter t =>
      match s.lock, s.place t with
      | none, .allocWant => some { s.goto t .allocIn with lock := some t }
      | none, .freeWant v => some { s.goto t (.freeIn v) with lock := some t }
      | _, _ => none
  | .create t arena malloc =>
      if s.place t = .allocIn then
        if s.base ≠ 0 then some (s.goto t .allocReady)
        else match arena, malloc with
          | some a, true =>
              some { s.goto t .allocReady with
                base := a.base, pool := { s.pool with live := fun _ => false } }
          | _, _ => some (s.leave t)
      else none
  | .take t =>
      if s.place t = .allocReady then
        match s.pool.pop syncObjSlots with
        | some (slot, pool) => some { s.goto t (.allocHas slot) with pool }
        | none => some (s.leave t)
      else none
  | .publish t =>
      match s.place t with
      | .allocHas slot =>
          some { s.leave t with
            pool := s.pool.publish slot, history := ⟨slot, true⟩ :: s.history }
      | _ => none
  | .check t =>
      match s.place t with
      | .freeIn v =>
          match syncObjSlot s.base s.pool v with
          | some slot =>
              some { s.goto t (.freeHas slot) with
                pool := s.pool.clear slot, history := ⟨slot, false⟩ :: s.history }
          | none => some (s.leave t)
      | _ => none
  | .push t =>
      match s.place t with
      | .freeHas slot => some { s.leave t with pool := s.pool.push slot }
      | _ => none
  | .index t _ => if s.place t = .out then some s else none
  | .slot t _ => if s.place t = .out then some s else none

/-- All interleavings. -/
def syncSystem (T : Type*) [DecidableEq T] : System (SyncState T) (SyncAct T) where
  init s := s = {}
  step s a s' := exec s a = some s'

/-! ### the invariant -/

/-- The invariant. -/
structure SyncInv (s : SyncState T) : Prop where
  lock : HeldBy s.lock s.place SyncPlace.holds
  pool : Pool.Inv syncObjSlots s.held s.pool
  fresh : s.base = 0 → s.pool = {} ∧ s.held = none
  arena : s.base = 0 ∨ s.base.toNat + syncObjStride * syncObjSlots ≤ 2 ^ 64
  ready : ∀ t, s.place t = .allocReady → s.base ≠ 0
  handed : ∀ slot, handedOut s.history slot = s.pool.live slot
  alternates : Alternates s.history

variable {s s' : SyncState T} {t : T}

theorem held_goto {p : SyncPlace} (h : s.lock = some t) : (s.goto t p).held = p.slot :=
  held_eq h (Function.update_self ..)

theorem SyncInv.move {p : SyncPlace} (h : SyncInv s) (ht : (s.place t).holds = false)
    (hp : p.holds = false) (hready : p ≠ .allocReady) : SyncInv (s.goto t p) := by
  have hheld : (s.goto t p).held = s.held := by
    unfold SyncState.held
    cases hlock : s.lock with
    | none =>
        show (s.lock.bind _) = _
        rw [hlock]
        rfl
    | some u =>
        have hu : u ≠ t := by
          intro e
          rw [e] at hlock
          rw [(h.lock t).1 hlock] at ht
          cases ht
        show (s.lock.bind _) = _
        rw [hlock]
        show (Function.update s.place t p u).slot = (s.place u).slot
        rw [Function.update_of_ne hu]
  refine ⟨h.lock.keep (hp.trans ht.symm), ?_, ?_, h.arena, fun u hu => ?_, h.handed, h.alternates⟩
  · rw [hheld]
    exact h.pool
  · rw [hheld]
    exact h.fresh
  · by_cases hut : u = t
    · rw [hut] at hu
      exact absurd ((Function.update_self ..).symm.trans hu) hready
    · exact h.ready u ((Function.update_of_ne hut ..).symm.trans hu)

/-- The thread that holds the lock leaves it, with the globals it has written. -/
theorem SyncInv.release {pool : Pool} {history : List SyncEvent} (h : SyncInv s)
    (ht : (s.place t).holds = true) (hpool : Pool.Inv syncObjSlots none pool)
    (hfresh : s.base = 0 → pool = {}) (hhanded : ∀ slot, handedOut history slot = pool.live slot)
    (halt : Alternates history) : SyncInv { s.leave t with pool, history } where
  lock := h.lock.drop ht rfl
  pool := hpool
  fresh hbase := ⟨hfresh hbase, rfl⟩
  arena := h.arena
  ready u hu := by
    by_cases hut : u = t
    · rw [hut] at hu
      exact absurd ((Function.update_self ..).symm.trans hu) (by simp)
    · exact h.ready u ((Function.update_of_ne hut ..).symm.trans hu)
  handed := hhanded
  alternates := halt

/-- The thread that holds the lock keeps it, with the globals it has written. -/
theorem SyncInv.stay {p : SyncPlace} {base : BitVec 64} {pool : Pool} {history : List SyncEvent}
    (h : SyncInv s) (ht : (s.place t).holds = true) (hp : p.holds = true)
    (hpool : Pool.Inv syncObjSlots p.slot pool) (hfresh : base = 0 → pool = {} ∧ p.slot = none)
    (harena : base = 0 ∨ base.toNat + syncObjStride * syncObjSlots ≤ 2 ^ 64)
    (hready : p = .allocReady → base ≠ 0) (hhanded : ∀ slot, handedOut history slot = pool.live slot)
    (halt : Alternates history) : SyncInv { s.goto t p with base, pool, history } := by
  have hlock : s.lock = some t := (h.lock t).2 ht
  have hheld : SyncState.held { s.goto t p with base, pool, history } = p.slot := held_goto hlock
  refine ⟨h.lock.keep (hp.trans ht.symm), ?_, ?_, harena, fun u hu => ?_, hhanded, halt⟩
  · rw [hheld]
    exact hpool
  · rw [hheld]
    exact hfresh
  · by_cases hut : u = t
    · rw [hut] at hu
      exact hready ((Function.update_self ..).symm.trans hu)
    · have hu' : s.place u = .allocReady := (Function.update_of_ne hut ..).symm.trans hu
      have huh : (s.place u).holds = true := by rw [hu']; rfl
      exact absurd (h.lock.unique huh ht) hut

theorem handedOut_cons {history : List SyncEvent} {live : ℕ → Bool} {slot : ℕ} {b : Bool}
    (h : ∀ slot, handedOut history slot = live slot) (slot' : ℕ) :
    handedOut (⟨slot, b⟩ :: history) slot' = Function.update live slot b slot' := by
  unfold handedOut
  by_cases hs : slot' = slot
  · rw [hs, if_pos rfl, Function.update_self]
  · rw [if_neg (fun e => hs e.symm), Function.update_of_ne hs, h]

theorem syncObjSlot_live {base v : BitVec 64} {p : Pool} {slot : ℕ}
    (h : syncObjSlot base p v = some slot) : p.live slot = true ∧ base ≠ 0 := by
  obtain ⟨hidx, hlive⟩ := Option.filter_eq_some_iff.1 h
  refine ⟨by simpa using hlive, fun hzero => ?_⟩
  rw [syncObjIndex, if_pos (.inl hzero)] at hidx
  cases hidx

/-- **Step.**  Every step keeps the invariant. -/
theorem inv_exec {a : SyncAct T} (h : SyncInv s) (hs : exec s a = some s') : SyncInv s' := by
  cases a with
  | callAlloc t =>
      simp only [exec] at hs
      split at hs
      · rename_i hout
        cases hs
        exact h.move (by rw [hout]; rfl) rfl (by simp)
      · cases hs
  | callFree t v =>
      simp only [exec] at hs
      split at hs
      · rename_i hout
        cases hs
        exact h.move (by rw [hout]; rfl) rfl (by simp)
      · cases hs
  | enter t =>
      have htake : ∀ p : SyncPlace, p.holds = true → p.slot = none → p ≠ .allocReady →
          s.lock = none → SyncInv { s.goto t p with lock := some t } := by
        intro p hp hslot hready hfree
        have hnone : s.held = none := by rw [SyncState.held, hfree]; rfl
        have hheld : SyncState.held { s.goto t p with lock := some t } = none :=
          (held_eq rfl (Function.update_self ..)).trans hslot
        have hlock := h.lock
        rw [hfree] at hlock
        refine ⟨hlock.take hp, ?_, ?_, h.arena, fun u hu => ?_, h.handed, h.alternates⟩
        · rw [hheld, ← hnone]
          exact h.pool
        · rw [hheld]
          exact fun e => ⟨(h.fresh e).1, rfl⟩
        · by_cases hut : u = t
          · rw [hut] at hu
            exact absurd ((Function.update_self ..).symm.trans hu) hready
          · exact h.ready u ((Function.update_of_ne hut ..).symm.trans hu)
      simp only [exec] at hs
      split at hs
      · rename_i hfree _
        cases hs
        exact htake _ rfl rfl (by simp) hfree
      · rename_i hfree _
        cases hs
        exact htake _ rfl rfl (by simp) hfree
      · cases hs
  | create t arena malloc =>
      simp only [exec] at hs
      split at hs
      · rename_i hin
        have hholds : (s.place t).holds = true := by rw [hin]; rfl
        have hheld : s.held = none := held_eq ((h.lock t).2 hholds) hin
        have hpool := h.pool
        rw [hheld] at hpool
        split at hs
        · rename_i hbase
          cases hs
          exact h.stay hholds rfl hpool (fun e => absurd e hbase) h.arena (fun _ => hbase) h.handed
            h.alternates
        · rename_i hbase
          have hempty := (h.fresh (not_not.1 hbase)).1
          split at hs
          · rename_i a
            cases hs
            rw [hempty] at hpool
            have hhanded := h.handed
            rw [hempty] at hhanded
            rw [hempty]
            exact h.stay hholds rfl hpool (fun e => absurd e a.base_ne) (.inr a.fits)
              (fun _ => a.base_ne) hhanded h.alternates
          · cases hs
            exact h.release hholds hpool (fun _ => hempty) h.handed h.alternates
      · cases hs
  | take t =>
      simp only [exec] at hs
      split at hs
      · rename_i hready
        have hholds : (s.place t).holds = true := by rw [hready]; rfl
        have hheld : s.held = none := held_eq ((h.lock t).2 hholds) hready
        have hbase := h.ready t hready
        have hpool := h.pool
        rw [hheld] at hpool
        split at hs
        · rename_i slot pool hpop
          cases hs
          obtain ⟨hinv, -, hlive⟩ := Pool.inv_pop hpool hpop
          exact h.stay hholds rfl hinv (fun e => absurd e hbase) h.arena (fun e => (nomatch e))
            (fun slot => by rw [hlive]; exact h.handed slot) h.alternates
        · cases hs
          exact h.release hholds hpool (fun e => absurd e hbase) h.handed h.alternates
      · cases hs
  | publish t =>
      simp only [exec] at hs
      split at hs
      · rename_i slot hhas
        cases hs
        have hholds : (s.place t).holds = true := by rw [hhas]; rfl
        have hheld : s.held = some slot := held_eq ((h.lock t).2 hholds) hhas
        have hpool := h.pool
        rw [hheld] at hpool
        refine h.release hholds (Pool.inv_publish hpool) (fun e => ?_) (handedOut_cons h.handed) ?_
        · have hno := (h.fresh e).2
          rw [hheld] at hno
          cases hno
        · refine ⟨?_, h.alternates⟩
          rw [h.handed]
          exact hpool.held slot rfl
      · cases hs
  | check t =>
      simp only [exec] at hs
      split at hs
      · rename_i v hin
        have hholds : (s.place t).holds = true := by rw [hin]; rfl
        have hheld : s.held = none := held_eq ((h.lock t).2 hholds) hin
        have hpool := h.pool
        rw [hheld] at hpool
        split at hs
        · rename_i slot hslot
          cases hs
          obtain ⟨hlive, hbase⟩ := syncObjSlot_live hslot
          refine h.stay hholds rfl (Pool.inv_clear hpool hlive) (fun e => absurd e hbase) h.arena
            (fun e => (nomatch e)) (handedOut_cons h.handed) ⟨?_, h.alternates⟩
          rw [h.handed]
          exact hlive
        · cases hs
          exact h.release hholds hpool (fun e => (h.fresh e).1) h.handed h.alternates
      · cases hs
  | push t =>
      simp only [exec] at hs
      split at hs
      · rename_i slot hhas
        cases hs
        have hholds : (s.place t).holds = true := by rw [hhas]; rfl
        have hheld : s.held = some slot := held_eq ((h.lock t).2 hholds) hhas
        have hpool := h.pool
        rw [hheld] at hpool
        refine h.release hholds (Pool.inv_push hpool) (fun e => ?_) h.handed h.alternates
        have hno := (h.fresh e).2
        rw [hheld] at hno
        cases hno
      · cases hs
  | index t v =>
      simp only [exec] at hs
      split at hs
      · cases hs
        exact h
      · cases hs
  | slot t v =>
      simp only [exec] at hs
      split at hs
      · cases hs
        exact h
      · cases hs

omit [DecidableEq T] in
theorem inv_start : SyncInv ({} : SyncState T) where
  lock _ := ⟨fun h => (nomatch h), fun h => (nomatch h)⟩
  pool := Pool.inv_empty _
  fresh _ := ⟨rfl, rfl⟩
  arena := .inl rfl
  ready _ h := (nomatch h)
  handed _ := rfl
  alternates := trivial

/-- **Runs.** -/
theorem inv_reachable (h : Reachable (syncSystem T) s) : SyncInv s := by
  refine Reachable.invariant (P := SyncInv) (fun _ hs => ?_) (fun _ _ _ _ hi hs => inv_exec hi hs) h
  rw [show _ = _ from hs]
  exact inv_start

/-- Between two times a slot was handed out it was given back. -/
theorem Alternates.between {slot : ℕ} {post : List SyncEvent} :
    ∀ (pre mid : List SyncEvent), Alternates (pre ++ ⟨slot, true⟩ :: (mid ++ ⟨slot, true⟩ :: post)) →
      ⟨slot, false⟩ ∈ mid := by
  have hlast : ∀ mid : List SyncEvent, ⟨slot, false⟩ ∉ mid →
      handedOut (mid ++ ⟨slot, true⟩ :: post) slot = true := by
    intro mid
    induction mid with
    | nil => exact fun _ => if_pos rfl
    | cons e mid ih =>
        intro hno
        rw [List.mem_cons, not_or] at hno
        show (if e.slot = slot then e.handed else handedOut (mid ++ ⟨slot, true⟩ :: post) slot) = true
        split
        · rename_i hslot
          by_contra hb
          rw [Bool.not_eq_true] at hb
          exact hno.1 (by rw [← hslot, ← hb])
        · exact ih hno.2
  intro pre
  induction pre with
  | nil =>
      intro mid h
      by_contra hno
      have hfirst := h.1
      rw [hlast mid hno] at hfirst
      cases hfirst
  | cons e pre ih => exact fun mid h => ih mid h.2

/-! ### safety -/

/-- What holds at every moment. -/
structure ArenaSafe (s : SyncState T) : Prop where
  /-- Each slot has one status, but the one a call inside the lock is moving. -/
  status : ∀ slot, if s.held = some slot then ∀ k, ¬ s.pool.Has slot k else ∃! k, s.pool.Has slot k
  /-- No slot is moving while the lock is free. -/
  quiet : s.lock = none → s.held = none
  /-- The stack holds a slot once. -/
  once : s.pool.free.Nodup
  /-- The stack stays in its array, also at the next push. -/
  capacity : s.pool.free.length ≤ syncObjSlots
  room : ∀ t slot, s.place t = .freeHas slot → s.pool.free.length < syncObjSlots
  /-- Live slots are slots of the arena, and live objects have different addresses. -/
  bound : ∀ slot, s.pool.live slot = true → slot < syncObjSlots
  apart : ∀ i j, s.pool.live i = true → s.pool.live j = true →
    slotAddr s.base i = slotAddr s.base j → i = j
  /-- A slot is live when it was handed out last, and it was given back before it is handed out
  again. -/
  handed : ∀ slot, handedOut s.history slot = s.pool.live slot
  between : ∀ slot pre mid post, s.history = pre ++ ⟨slot, true⟩ :: (mid ++ ⟨slot, true⟩ :: post) →
    ⟨slot, false⟩ ∈ mid

omit [DecidableEq T] in
theorem SyncInv.safe (h : SyncInv s) : ArenaSafe s := by
  have hbound : ∀ slot, s.pool.live slot = true → slot < syncObjSlots := fun slot hlive =>
    Nat.lt_of_lt_of_le (h.pool.used slot (.inr (.inl hlive))) h.pool.bound
  refine ⟨h.pool.unique, fun hfree => ?_, h.pool.nodup, Nat.le_trans h.pool.length_free h.pool.bound,
    fun t slot hhas => ?_, hbound, fun i j hi hj heq => ?_, h.handed, fun slot pre mid post hh => ?_⟩
  · rw [SyncState.held, hfree]
    rfl
  · have hholds : (s.place t).holds = true := by rw [hhas]; rfl
    have hpool := h.pool
    rw [held_eq ((h.lock t).2 hholds) hhas] at hpool
    exact Pool.Inv.room hpool
  · have hbase : s.base ≠ 0 := by
      intro e
      rw [(h.fresh e).1] at hi
      cases hi
    let a : SyncArena := ⟨s.base, hbase, h.arena.resolve_left hbase⟩
    have hii := syncObjIndex_slotAddr a (hbound i hi)
    have hjj := syncObjIndex_slotAddr a (hbound j hj)
    rw [show slotAddr a.base i = slotAddr a.base j from heq, hjj] at hii
    exact (Option.some.inj hii).symm
  · exact Alternates.between pre mid (by rw [← hh]; exact h.alternates)

/-- **The arena.**  In every reachable state each slot has one status and live objects have addresses
of their own; a slot is handed out again only after it was given back; a free of any other address
changes nothing, and what a call hands out is the address of a slot that was not live. -/
theorem syncObjects_safe (h : Reachable (syncSystem T) s) :
    ArenaSafe s ∧
      (∀ t v s', s.place t = .freeIn v → syncObjSlot s.base s.pool v = none →
        exec s (.check t) = some s' → s'.base = s.base ∧ s'.pool = s.pool ∧ s'.history = s.history) ∧
      ∀ t slot s', s.place t = .allocHas slot → exec s (.publish t) = some s' →
        s.pool.live slot = false ∧ syncObjSlot s'.base s'.pool (slotAddr s'.base slot) = some slot := by
  have hinv := inv_reachable h
  refine ⟨hinv.safe, fun t v s' hin hnone hs => ?_, fun t slot s' hhas hs => ?_⟩
  · simp only [exec, hin, hnone] at hs
    cases hs
    exact ⟨rfl, rfl, rfl⟩
  · have hholds : (s.place t).holds = true := by rw [hhas]; rfl
    have hheld : s.held = some slot := held_eq ((hinv.lock t).2 hholds) hhas
    have hpool := hinv.pool
    rw [hheld] at hpool
    have hbase : s.base ≠ 0 := by
      intro e
      have hno := (hinv.fresh e).2
      rw [hheld] at hno
      cases hno
    have hlt : slot < syncObjSlots := Nat.lt_of_lt_of_le (hpool.used slot (.inr (.inr rfl))) hpool.bound
    let a : SyncArena := ⟨s.base, hbase, hinv.arena.resolve_left hbase⟩
    have hidx := syncObjIndex_slotAddr a hlt
    simp only [exec, hhas] at hs
    cases hs
    refine ⟨hpool.held slot rfl, ?_⟩
    show (syncObjIndex s.base (slotAddr s.base slot)).filter _ = some slot
    rw [show syncObjIndex s.base (slotAddr s.base slot) = some slot from hidx]
    exact Option.filter_eq_some_iff.2 ⟨rfl, Function.update_self ..⟩

end Machine

/-! ### a run -/

/-- An arena at `0x100000`. -/
def someArena : SyncArena := ⟨0x100000, by decide, by decide⟩

/-- An object is allocated and freed twice; the second free finds no object. -/
def doubleFree : List (SyncAct Unit) :=
  [.callAlloc (), .enter (), .create () (some someArena) true, .take (), .publish (),
    .callFree () 0x100000, .enter (), .check (), .push (), .callFree () 0x100000, .enter (), .check ()]

theorem syncObjects_safe_doubleFree :
    ∃ s : SyncState Unit, execAll exec {} doubleFree = some s ∧ s.pool.free = [0] ∧ ArenaSafe s := by
  obtain ⟨s, hs⟩ : ∃ s : SyncState Unit, execAll exec {} doubleFree = some s :=
    Option.isSome_iff_exists.1 (by decide)
  have hreach : Reachable (syncSystem Unit) s :=
    Reachable.execAll (fun _ _ _ hstep => hstep) doubleFree (.init rfl) hs
  refine ⟨s, hs, ?_, (syncObjects_safe hreach).1⟩
  have hfree : (execAll exec ({} : SyncState Unit) doubleFree).map (·.pool.free) = some [0] := by decide
  rw [hs] at hfree
  exact Option.some.inj hfree

end PS4Recomp.Runtime.SyncObjects
