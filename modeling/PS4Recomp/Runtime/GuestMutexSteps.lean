import PS4Recomp.Runtime.GuestMutex

/-!
# Guest mutexes: what one step changes

Read off `exec` once, for every kind of access:

* `Code.All`, `exec_pc_self`, `exec_pc_other` — where threads go: the thread that steps follows
  its code, another one stays or is woken from its sleep;
* `exec_lk`, `exec_owner`, `exec_count`, `exec_waiters`, `exec_condMutex` — the shared words.
-/

namespace PS4Recomp.Runtime

open Library.Transition

variable {Tid : Type*} [DecidableEq Tid] {cfg : Config} {T : Tid} {s s' : State Tid} {c : Code}

/-- Every place an access can lead to has property `P`. -/
def Code.All (cfg : Config) (P : Pc → Prop) : Code → Prop
  | .call => ∀ k b, P (entry cfg k b)
  | .ret _ _ => P .idle
  | .choose a b => P a ∧ P b
  | .readOwner free mine other => P free ∧ P mine ∧ P other
  | .casOwner won lost => P won ∧ P lost
  | .readCount next => ∀ d, P (next d)
  | .decCount zero more | .readWaiters zero more => P zero ∧ P more
  | .asleep _ _ next => ∀ out, P (next out)
  | .readM unset set => P unset ∧ P set
  | .setOwner n | .clearOwner n | .setCount _ n | .incCount n | .incWaiters n | .decWaiters n
  | .lockLk n | .unlockLk n | .wait n | .signal _ _ n | .setM n => P n

@[simp] theorem goto_pc (s : State Tid) (T : Tid) (p : Pc) :
    (s.goto T p).pc = Function.update s.pc T p := rfl

@[simp] theorem goto_owner (s : State Tid) (T : Tid) (p : Pc) : (s.goto T p).owner = s.owner := rfl

@[simp] theorem goto_count (s : State Tid) (T : Tid) (p : Pc) : (s.goto T p).count = s.count := rfl

@[simp] theorem goto_waiters (s : State Tid) (T : Tid) (p : Pc) :
    (s.goto T p).waiters = s.waiters := rfl

@[simp] theorem goto_lk (s : State Tid) (T : Tid) (p : Pc) : (s.goto T p).lk = s.lk := rfl

@[simp] theorem goto_condMutex (s : State Tid) (T : Tid) (p : Pc) :
    (s.goto T p).condMutex = s.condMutex := rfl

@[simp] theorem goto_locks (s : State Tid) (T : Tid) (p : Pc) : (s.goto T p).locks = s.locks := rfl

@[simp] theorem goto_unlocks (s : State Tid) (T : Tid) (p : Pc) :
    (s.goto T p).unlocks = s.unlocks := rfl

/-- A counted return changes `locks` and `unlocks` only. -/
theorem countReturn_frame (s : State Tid) (T : Tid) (k : Call) (r : Errno) :
    (countReturn s T k r).pc = s.pc ∧ (countReturn s T k r).owner = s.owner ∧
      (countReturn s T k r).count = s.count ∧ (countReturn s T k r).waiters = s.waiters ∧
      (countReturn s T k r).lk = s.lk ∧ (countReturn s T k r).condMutex = s.condMutex := by
  unfold countReturn
  split
  · exact ⟨rfl, rfl, rfl, rfl, rfl, rfl⟩
  · cases k <;> exact ⟨rfl, rfl, rfl, rfl, rfl, rfl⟩

/-! ### where the threads go -/

theorem exec_pc_self {P : Pc → Prop} (h : exec cfg T s s' c) (hP : c.All cfg P) :
    P (s'.pc T) := by
  cases c with
  | call =>
      obtain ⟨k, b, rfl⟩ := h
      simpa using hP k b
  | choose a b =>
      rcases h with rfl | rfl
      · simpa using hP.1
      · simpa using hP.2
  | readOwner free mine other =>
      subst h
      simp only [goto_pc, Function.update_self]
      split
      · exact hP.1
      · split
        · exact hP.2.1
        · exact hP.2.2
  | casOwner won lost =>
      subst h
      split
      · simpa using hP.1
      · simpa using hP.2
  | readCount next =>
      subst h
      simpa using hP s.count
  | decCount zero more | readWaiters zero more | readM zero more =>
      subst h
      simp only [goto_pc, Function.update_self]
      split
      · first | exact hP.1 | exact hP.2
      · first | exact hP.2 | exact hP.1
  | asleep v timed next =>
      rcases h with rfl | ⟨-, rfl⟩
      · simpa using hP false
      · simpa using hP true
  | lockLk next =>
      obtain ⟨-, rfl⟩ := h
      simpa [Code.All] using hP
  | signal v all next =>
      obtain ⟨W, -, -, -, rfl⟩ := h
      simpa [Code.All] using hP
  | ret | setOwner | clearOwner | setCount | incCount | incWaiters | decWaiters | unlockLk
  | wait | setM =>
      subst h
      simpa [Code.All] using hP

/-- Another thread stays where it is, unless it is woken. -/
theorem exec_pc_other (h : exec cfg T s s' c) {V : Tid} (hV : V ≠ T) :
    s'.pc V = s.pc V ∨ ∃ v all next, c = .signal v all next ∧
      sleepsOn cfg v (s.pc V) = true ∧ s'.pc V = wake cfg (s.pc V) := by
  cases c with
  | call =>
      obtain ⟨k, b, rfl⟩ := h
      exact .inl (by simp [hV])
  | choose a b =>
      rcases h with rfl | rfl
      · exact .inl (by simp [hV])
      · exact .inl (by simp [hV])
  | casOwner won lost =>
      subst h
      left
      split
      · simp [hV]
      · simp [hV]
  | asleep v timed next =>
      rcases h with rfl | ⟨-, rfl⟩
      · exact .inl (by simp [hV])
      · exact .inl (by simp [hV])
  | lockLk next =>
      obtain ⟨-, rfl⟩ := h
      exact .inl (by simp [hV])
  | signal v all next =>
      obtain ⟨W, hW, -, -, rfl⟩ := h
      by_cases hm : V ∈ W
      · exact .inr ⟨v, all, next, rfl, hW V hm, by simp [State.wakeAll, hV, hm]⟩
      · exact .inl (by simp [State.wakeAll, hV, hm])
  | ret k r =>
      subst h
      exact .inl (by simp [hV, (countReturn_frame s T k r).1])
  | readOwner | readCount | decCount | readWaiters | readM | setOwner | clearOwner | setCount
  | incCount | incWaiters | decWaiters | unlockLk | wait | setM =>
      subst h
      exact .inl (by simp [hV])

/-- **Attributes of places.**  What a wake-up keeps of a place, other threads' steps keep. -/
theorem exec_attr_other {β : Type*} {f : Pc → β} (hf : ∀ p, f (wake cfg p) = f p)
    (h : exec cfg T s s' c) {V : Tid} (hV : V ≠ T) : f (s'.pc V) = f (s.pc V) := by
  rcases exec_pc_other h hV with he | ⟨_, _, _, -, -, he⟩
  · rw [he]
  · rw [he, hf]

/-! ### the shared words -/

/-- The host lock after a step. -/
def Code.lkAfter (T : Tid) (lk : Option Tid) : Code → Option Tid
  | .lockLk _ => some T
  | .unlockLk _ | .wait _ => none
  | _ => lk

/-- The owner word after a step. -/
def Code.ownerAfter (T : Tid) (owner : Option Tid) : Code → Option Tid
  | .casOwner _ _ => if owner = none then some T else owner
  | .setOwner _ => some T
  | .clearOwner _ => none
  | _ => owner

/-- The recursion count after a step. -/
def Code.countAfter (count : BitVec 32) : Code → BitVec 32
  | .setCount d _ => d
  | .incCount _ => count + 1
  | .decCount _ _ => count - 1
  | _ => count

/-- The announced waiters after a step. -/
def Code.waitersAfter (waiters : BitVec 32) : Code → BitVec 32
  | .incWaiters _ => waiters + 1
  | .decWaiters _ => waiters - 1
  | _ => waiters

/-- `cn->m` is set once and for all. -/
def Code.condMutexAfter (condMutex : Bool) : Code → Bool
  | .setM _ => true
  | _ => condMutex

/-- **The shared words.**  What each access writes. -/
theorem exec_words (h : exec cfg T s s' c) :
    s'.lk = c.lkAfter T s.lk ∧ s'.owner = c.ownerAfter T s.owner ∧
      s'.count = c.countAfter s.count ∧ s'.waiters = c.waitersAfter s.waiters ∧
      s'.condMutex = c.condMutexAfter s.condMutex := by
  cases c with
  | call =>
      obtain ⟨k, b, rfl⟩ := h
      exact ⟨rfl, rfl, rfl, rfl, rfl⟩
  | choose a b =>
      rcases h with rfl | rfl
      · exact ⟨rfl, rfl, rfl, rfl, rfl⟩
      · exact ⟨rfl, rfl, rfl, rfl, rfl⟩
  | casOwner won lost =>
      subst h
      by_cases ho : s.owner = none
      · simp [ho, Code.lkAfter, Code.ownerAfter, Code.countAfter, Code.waitersAfter,
          Code.condMutexAfter]
      · simp [ho, Code.lkAfter, Code.ownerAfter, Code.countAfter, Code.waitersAfter,
          Code.condMutexAfter]
  | asleep v timed next =>
      rcases h with rfl | ⟨-, rfl⟩
      · exact ⟨rfl, rfl, rfl, rfl, rfl⟩
      · exact ⟨rfl, rfl, rfl, rfl, rfl⟩
  | lockLk next =>
      obtain ⟨-, rfl⟩ := h
      exact ⟨rfl, rfl, rfl, rfl, rfl⟩
  | signal v all next =>
      obtain ⟨W, -, -, -, rfl⟩ := h
      exact ⟨rfl, rfl, rfl, rfl, rfl⟩
  | ret k r =>
      subst h
      obtain ⟨-, ho, hc, hw, hl, hm⟩ := countReturn_frame s T k r
      exact ⟨hl, ho, hc, hw, hm⟩
  | readOwner | readCount | decCount | readWaiters | readM | setOwner | clearOwner | setCount
  | incCount | incWaiters | decWaiters | unlockLk | wait | setM =>
      subst h
      exact ⟨rfl, rfl, rfl, rfl, rfl⟩

theorem exec_lk (h : exec cfg T s s' c) : s'.lk = c.lkAfter T s.lk := (exec_words h).1

theorem exec_owner (h : exec cfg T s s' c) : s'.owner = c.ownerAfter T s.owner :=
  (exec_words h).2.1

theorem exec_count (h : exec cfg T s s' c) : s'.count = c.countAfter s.count :=
  (exec_words h).2.2.1

theorem exec_waiters (h : exec cfg T s s' c) : s'.waiters = c.waitersAfter s.waiters :=
  (exec_words h).2.2.2.1

theorem exec_condMutex (h : exec cfg T s s' c) : s'.condMutex = c.condMutexAfter s.condMutex :=
  (exec_words h).2.2.2.2

/-- The completed calls change at a return only, and for the thread that returns. -/
theorem exec_calls (h : exec cfg T s s' c) :
    (∃ k r, c = .ret k r ∧ s'.locks = (countReturn s T k r).locks ∧
      s'.unlocks = (countReturn s T k r).unlocks) ∨
    (∀ k r, c ≠ .ret k r) ∧ s'.locks = s.locks ∧ s'.unlocks = s.unlocks := by
  cases c with
  | call => obtain ⟨k, b, rfl⟩ := h; exact .inr ⟨by simp, rfl, rfl⟩
  | choose a b => rcases h with rfl | rfl <;> exact .inr ⟨by simp, rfl, rfl⟩
  | casOwner won lost => subst h; right; split <;> exact ⟨by simp, rfl, rfl⟩
  | asleep v timed next => rcases h with rfl | ⟨-, rfl⟩ <;> exact .inr ⟨by simp, rfl, rfl⟩
  | lockLk next => obtain ⟨-, rfl⟩ := h; exact .inr ⟨by simp, rfl, rfl⟩
  | signal v all next => obtain ⟨W, -, -, -, rfl⟩ := h; exact .inr ⟨by simp, rfl, rfl⟩
  | ret k r => subst h; exact .inl ⟨k, r, rfl, rfl, rfl⟩
  | readOwner | readCount | decCount | readWaiters | readM | setOwner | clearOwner | setCount
  | incCount | incWaiters | decWaiters | unlockLk | wait | setM =>
      subst h; exact .inr ⟨by simp, rfl, rfl⟩

theorem exec_calls_other (h : exec cfg T s s' c) {V : Tid} (hV : V ≠ T) :
    s'.locks V = s.locks V ∧ s'.unlocks V = s.unlocks V := by
  rcases exec_calls h with ⟨k, r, -, hl, hu⟩ | ⟨-, hl, hu⟩
  · rw [hl, hu]
    unfold countReturn
    split
    · exact ⟨rfl, rfl⟩
    · cases k <;> simp [hV]
  · rw [hl, hu]
    exact ⟨rfl, rfl⟩

end PS4Recomp.Runtime
