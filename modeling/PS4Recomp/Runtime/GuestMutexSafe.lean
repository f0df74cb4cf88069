import PS4Recomp.Runtime.GuestMutexInv

/-!
# Guest mutexes: safety

The recursion count and `waiters` are 32-bit words, and nothing checks that they do not wrap.

* `NoWrap` — the condition on a step: the relock does not start from the largest count, nor an
  announcement from the largest number of waiters;
* `Levels`, `WakeInv` — in runs whose steps meet it: the count is the number of
  completed locks not yet undone, `waiters` counts the announced threads, and a free mutex with a
  sleepy thread has a thread that will signal or one that was woken;
* **`mutex_safe`** — in such runs at most one thread holds the mutex, its count is its completed
  locks minus its completed unlocks, ownership ends exactly when that reaches zero, and no wake-up
  is lost;
* `mutex_unsafe` — a run of `2 ^ 32` nested locks of one thread leaves the count at 0.
-/

namespace PS4Recomp.Runtime

open Library.Transition

variable {Tid : Type*} [DecidableEq Tid] {cfg : Config} {T : Tid} {s s' : State Tid}

/-- Neither 32-bit counter wraps at this step. -/
def NoWrap (cfg : Config) (s : State Tid) (T : Tid) : Prop :=
  match code cfg (s.pc T) with
  | .incCount _ => s.count ≠ BitVec.allOnes 32
  | .incWaiters _ => s.waiters ≠ BitVec.allOnes 32
  | _ => True

/-! ### the recursion levels -/

/-- Completed locks minus completed unlocks. -/
def State.held (s : State Tid) (V : Tid) : ℤ := s.locks V - s.unlocks V

/-- The recursion count of `V` against its completed calls, by its phase. -/
def Levels (s : State Tid) (V : Tid) : Phase → Prop
  | .plain =>
      (s.owner = some V → (s.count.toNat : ℤ) = s.held V ∧ 0 < s.held V) ∧
        (s.owner ≠ some V → s.held V = 0)
  | .fresh => s.held V = 0
  | .granted => (s.count.toNat : ℤ) = s.held V + 1 ∧ 0 ≤ s.held V
  | .dropped => s.count = 0 ∧ s.held V = 1
  | .gone => s.held V = 1
  | .returned =>
      (s.owner = some V → (s.count.toNat : ℤ) + 1 = s.held V ∧ 0 < s.count.toNat) ∧
        (s.owner ≠ some V → s.held V = 1)
  | .saved d => s.count = d ∧ (d.toNat : ℤ) = s.held V ∧ 0 < s.held V
  | .parked d => (d.toNat : ℤ) = s.held V ∧ 0 < s.held V

section Step

variable (hi : Inv cfg s) (h : exec cfg T s s' (code cfg (s.pc T)))

include hi h

theorem levels_other {V : Tid} (hV : V ≠ T) (hl : Levels s V (s.at cfg V).phase) :
    Levels s' V (s'.at cfg V).phase := by
  obtain ⟨ho, hc⟩ := step_frame hi h hV
  obtain ⟨hlocks, hunlocks⟩ := exec_calls_other h hV
  have hheld : s'.held V = s.held V := by simp only [State.held, hlocks, hunlocks]
  have howns := owns_of_phase cfg (s.pc V)
  have hown := hi.owner V
  rw [(at_other h hV).2.2.2.2.1]
  unfold State.at at *
  generalize (place cfg (s.pc V)).phase = a at *
  cases a with
  | plain | returned =>
      refine ⟨fun hs => ?_, fun hs => ?_⟩
      · have hsV := ho.1 hs
        rw [hheld, hc hsV]
        exact hl.1 hsV
      · rw [hheld]
        exact hl.2 fun hsV => hs (ho.2 hsV)
  | fresh | gone | parked d =>
      simp only [Levels, hheld] at hl ⊢
      exact hl
  | granted | dropped | saved d =>
      have hsV := hown (howns (by simp))
      simp only [Levels, hheld, hc hsV] at hl ⊢
      exact hl

omit hi in
/-- A step that leaves the words and the calls alone, to a place of the same phase. -/
theorem levels_keep (hcode : ∀ k r, code cfg (s.pc T) ≠ .ret k r) (ho : s'.owner = s.owner)
    (hc : s'.count = s.count) {a : Phase} (hl : Levels s T a) : Levels s' T a := by
  have hheld : s'.held T = s.held T := by
    rcases exec_calls h with ⟨k, r, hk, -⟩ | ⟨-, hlocks, hunlocks⟩
    · exact absurd hk (hcode k r)
    · simp only [State.held, hlocks, hunlocks]
  cases a <;> simpa only [Levels, hheld, ho, hc] using hl

/-- The end of a wake-up: the unlock is about to return, and its thread is not the owner. -/
theorem levels_returned (hcode : ∀ k r, code cfg (s.pc T) ≠ .ret k r) (ho : s'.owner = s.owner)
    (hc : s'.count = s.count) (ha : (place cfg (s.pc T)).phase = .gone)
    (hl : Levels s T .gone) : Levels s' T .returned := by
  have hgone := levels_keep h hcode ho hc hl
  have hne : s'.owner ≠ some T := by
    rw [ho]
    exact hi.notOwner T (owns_of_gone _ ha)
  exact ⟨fun hs => absurd hs hne, fun _ => hgone⟩

omit hi in
theorem levels_return {k : Call} {r : Errno} (hcode : code cfg (s.pc T) = .ret k r)
    (hl : Levels s T (retPhase k r)) (hgranted : retPhase k r = .granted → s.owner = some T) :
    Levels s' T .plain := by
  rw [hcode] at h
  subst h
  have hret := countReturn_frame s T k r
  have hplain : ∀ {s₀ : State Tid}, Levels s₀ T .plain → Levels (s₀.goto T .idle) T .plain :=
    fun h => h
  apply hplain
  by_cases hr : r = .ok
  · subst hr
    cases k with
    | lock | trylock =>
        have hs := hgranted rfl
        obtain ⟨hcount, hpos⟩ := hl
        simp only [State.held] at hcount hpos
        refine ⟨fun _ => ?_, fun hne => absurd hs (by simpa [hret.2.1] using hne)⟩
        simp only [countReturn, ne_eq, not_true_eq_false, if_false, State.held,
          Function.update_self]
        push_cast
        omega
    | unlock =>
        refine ⟨fun hs => ?_, fun hne => ?_⟩
        · have := hl.1 (by simpa [hret.2.1] using hs)
          simp only [State.held] at this
          simp only [countReturn, ne_eq, not_true_eq_false, if_false, State.held,
            Function.update_self]
          push_cast
          omega
        · have := hl.2 (by simpa [hret.2.1] using hne)
          simp only [State.held] at this
          simp only [countReturn, ne_eq, not_true_eq_false, if_false, State.held,
            Function.update_self]
          push_cast
          omega
    | condWait | signal => exact hl
  · have hsame : countReturn s T k r = s := by simp [countReturn, hr]
    rw [hsame]
    cases k <;> simpa [retPhase, hr] using hl

theorem levels_owner {c : Code} (hcode : code cfg (s.pc T) = c)
    (hc : (∃ won lost, c = .casOwner won lost) ∨ (∃ n, c = .setOwner n) ∨ ∃ n, c = .clearOwner n)
    (hl : Levels s T (s.at cfg T).phase) : Levels s' T (s'.at cfg T).phase := by
  have hphase := phase_next cfg (s.pc T)
  have hown := owns_next cfg (s.pc T)
  have hne := hi.notOwner T
  unfold State.at at *
  rw [hcode] at h hphase hown
  rcases hc with ⟨won, lost, rfl⟩ | ⟨n, rfl⟩ | ⟨n, rfl⟩
  · subst h
    rcases hphase with ⟨ha, hwon, hlost⟩ | ⟨d, ha, hwon, hlost⟩
    · rw [ha] at hl
      split
      · simp only [goto_pc, Function.update_self, hwon]
        exact hl.2 (hne hown.1)
      · simp only [goto_pc, Function.update_self, hlost]
        exact hl
    · rw [ha] at hl
      split
      · simp only [goto_pc, Function.update_self, hwon]
        exact hl
      · simp only [goto_pc, Function.update_self, hlost]
        exact hl
  · subst h
    rcases hphase with ⟨ha, hn⟩ | ⟨d, ha, hn⟩
    · rw [ha] at hl
      simp only [goto_pc, Function.update_self, hn]
      exact hl.2 (hne hown.1)
    · rw [ha] at hl
      simp only [goto_pc, Function.update_self, hn]
      exact hl
  · subst h
    rcases hphase with ⟨ha, hn⟩ | ⟨d, ha, hn⟩
    · rw [ha] at hl
      simp only [goto_pc, Function.update_self, hn]
      exact hl.2
    · rw [ha] at hl
      simp only [goto_pc, Function.update_self, hn]
      exact hl

theorem levels_count (hw : NoWrap cfg s T) {c : Code} (hcode : code cfg (s.pc T) = c)
    (hc : (∃ n, c = .readCount n) ∨ (∃ d n, c = .setCount d n) ∨ (∃ n, c = .incCount n) ∨
      ∃ z m, c = .decCount z m)
    (hl : Levels s T (s.at cfg T).phase) : Levels s' T (s'.at cfg T).phase := by
  have hphase := phase_next cfg (s.pc T)
  have hown := owns_next cfg (s.pc T)
  have hT := hi.owner T
  unfold NoWrap at hw
  unfold State.at at *
  rw [hcode] at h hphase hown hw
  rcases hc with ⟨n, rfl⟩ | ⟨d, n, rfl⟩ | ⟨n, rfl⟩ | ⟨z, m, rfl⟩
  · subst h
    rw [hphase.1] at hl
    have hcount := hl.1 (hT hown.1)
    simp only [goto_pc, Function.update_self, hphase.2]
    exact ⟨rfl, hcount⟩
  · subst h
    rcases hphase with ⟨ha, rfl, hn⟩ | ⟨d', ha, hn⟩ | ⟨ha, hn⟩
    · rw [ha] at hl
      have hzero : s.held T = 0 := hl
      simp only [goto_pc, Function.update_self, hn, Levels, goto_count]
      change _ = s.held T + 1 ∧ 0 ≤ s.held T
      simp [hzero]
    · rw [ha] at hl
      simp only [goto_pc, Function.update_self, hn]
      exact hl.2
    · rw [ha] at hl
      have hs := hT hown.1
      simp only [goto_pc, Function.update_self, hn]
      exact ⟨fun _ => hl, fun hne => absurd hs hne⟩
  · subst h
    rw [hphase.1] at hl
    have hcount := hl.1 (hT hown.1)
    simp only [goto_pc, Function.update_self, hphase.2]
    change (((s.count + 1).toNat : ℕ) : ℤ) = s.held T + 1 ∧ 0 ≤ s.held T
    have hlt : s.count.toNat + 1 < 2 ^ 32 := by
      have hne : s.count.toNat ≠ 2 ^ 32 - 1 := fun e => hw (BitVec.eq_of_toNat_eq (by simpa using e))
      have := s.count.isLt
      omega
    have hadd : (s.count + 1).toNat = s.count.toNat + 1 := by
      rw [BitVec.toNat_add, show (1 : BitVec 32).toNat = 1 from rfl]
      omega
    rw [hadd]
    push_cast
    omega
  · subst h
    rw [hphase.1] at hl
    have hcount := hl.1 (hT hown.1)
    have hs := hT hown.1
    have hsub : (s.count - 1).toNat = s.count.toNat - 1 := by
      have := s.count.isLt
      rw [BitVec.toNat_sub, show (1 : BitVec 32).toNat = 1 from rfl]
      omega
    simp only [goto_pc, Function.update_self]
    split
    · rename_i hz
      rw [hphase.2.1]
      have hzero : s.count.toNat - 1 = 0 := by
        rw [← hsub, hz]
        rfl
      change s.count - 1 = 0 ∧ s.held T = 1
      exact ⟨hz, by omega⟩
    · rename_i hnz
      rw [hphase.2.2]
      have hpos : s.count.toNat - 1 ≠ 0 := fun e => hnz (BitVec.eq_of_toNat_eq (hsub.trans e))
      refine ⟨fun _ => ?_, fun hne => absurd hs hne⟩
      change ((s.count - 1).toNat : ℤ) + 1 = s.held T ∧ 0 < (s.count - 1).toNat
      rw [hsub]
      omega

theorem levels_self (hw : NoWrap cfg s T) (hl : Levels s T (s.at cfg T).phase) :
    Levels s' T (s'.at cfg T).phase := by
  have hphase := phase_next cfg (s.pc T)
  obtain ⟨-, ho, hc, -, -⟩ := exec_words h
  cases hcode : code cfg (s.pc T) with
  | ret k r =>
      rw [hcode] at hphase
      have hidle : s'.pc T = .idle := by
        rw [hcode] at h
        subst h
        simp
      have hl' : Levels s T (retPhase k r) := by
        rw [← hphase.1]
        exact hl
      have hgranted : retPhase k r = .granted → s.owner = some T := fun hg =>
        hi.owner T (owns_of_phase cfg _ (.inl (hphase.1.trans hg)))
      rw [State.at, hidle]
      exact levels_return h hcode hl' hgranted
  | casOwner | setOwner | clearOwner => exact levels_owner hi h hcode (by simp) hl
  | readCount | setCount | incCount | decCount => exact levels_count hi h hw hcode (by simp) hl
  | signal v all next | readWaiters zero more =>
      rw [hcode] at hphase ho hc
      have hnext : (place cfg (s'.pc T)).phase = (place cfg (s.pc T)).phase ∨
          (place cfg (s.pc T)).phase = .gone ∧ (place cfg (s'.pc T)).phase = .returned := by
        rw [hcode] at h
        exact exec_pc_self (P := fun n => (place cfg n).phase = (place cfg (s.pc T)).phase ∨
          (place cfg (s.pc T)).phase = .gone ∧ (place cfg n).phase = .returned) h
          (by first | exact hphase | exact ⟨hphase.1, .inl hphase.2⟩)
      rcases hnext with hsame | ⟨hgone, hret⟩
      · rw [State.at, hsame]
        exact levels_keep h (by simp [hcode]) ho hc hl
      · rw [State.at, hgone] at hl
        rw [State.at, hret]
        exact levels_returned hi h (by simp [hcode]) ho hc hgone hl
  | _ =>
      rw [hcode] at hphase ho hc
      have hsame : (place cfg (s'.pc T)).phase = (place cfg (s.pc T)).phase := by
        rw [hcode] at h
        exact exec_pc_self (P := fun n => (place cfg n).phase = (place cfg (s.pc T)).phase) h
          (by first | exact hphase | exact fun k b => (hphase.2 k b).trans hphase.1.symm)
      rw [State.at, hsame]
      exact levels_keep h (by simp [hcode]) ho hc hl

/-- **Step.**  One step that meets the condition keeps every thread's levels. -/
theorem levels_step (hw : NoWrap cfg s T) (hl : ∀ V, Levels s V (s.at cfg V).phase) (V : Tid) :
    Levels s' V (s'.at cfg V).phase := by
  by_cases hV : V = T
  · subst hV
    exact levels_self hi h hw (hl V)
  · exact levels_other hi h hV (hl V)

/-! ### the announced waiters -/

omit hi in
/-- **Step.**  `waiters` stays the number of the counted threads. -/
theorem waiters_step (hw : NoWrap cfg s T)
    (hwait : ∃ A : Finset Tid, (∀ V, V ∈ A ↔ (s.at cfg V).counted = true) ∧
      s.waiters.toNat = A.card) :
    ∃ A : Finset Tid, (∀ V, V ∈ A ↔ (s'.at cfg V).counted = true) ∧ s'.waiters.toNat = A.card := by
  obtain ⟨A, hA, hcard⟩ := hwait
  have hself := exec_pc_self h (counted_next (s.pc T))
  have hother : ∀ V, V ≠ T → (s'.at cfg V).counted = (s.at cfg V).counted :=
    fun V hV => (at_other h hV).2.2.1
  have hcode := counted_of_code cfg (s.pc T)
  have hwords := exec_waiters h
  have hT := hA T
  unfold NoWrap at hw
  unfold State.at at *
  generalize hc : code cfg (s.pc T) = c at *
  cases c with
  | incWaiters n =>
      have hnot := hcode.1 n rfl
      rw [hnot] at hT
      refine ⟨insert T A, fun V => ?_, ?_⟩
      · by_cases hV : V = T
        · subst hV
          simp [hself, Code.countedAfter]
        · rw [hother V hV, ← hA V]
          simp [hV]
      · rw [Finset.card_insert_of_notMem (by simp [hT]), hwords, ← hcard]
        have hne : s.waiters.toNat ≠ 2 ^ 32 - 1 :=
          fun e => hw (BitVec.eq_of_toNat_eq (by simpa using e))
        have hlt := s.waiters.isLt
        change (s.waiters + 1).toNat = _
        rw [BitVec.toNat_add, show (1 : BitVec 32).toNat = 1 from rfl]
        omega
  | decWaiters n =>
      have hmem := hT.2 (hcode.2 n rfl)
      refine ⟨A.erase T, fun V => ?_, ?_⟩
      · by_cases hV : V = T
        · subst hV
          simp [hself, Code.countedAfter]
        · rw [hother V hV, ← hA V]
          simp [hV]
      · rw [Finset.card_erase_of_mem hmem, hwords, ← hcard]
        have hpos : 0 < s.waiters.toNat := by
          rw [hcard]
          exact Finset.card_pos.2 ⟨T, hmem⟩
        have hlt := s.waiters.isLt
        change (s.waiters - 1).toNat = _
        rw [BitVec.toNat_sub, show (1 : BitVec 32).toNat = 1 from rfl]
        omega
  | _ =>
      refine ⟨A, fun V => ?_, by rw [hwords]; exact hcard⟩
      by_cases hV : V = T
      · subst hV
        rw [hself]
        exact hT
      · rw [hother V hV]
        exact hA V

/-! ### wake-ups -/

/-- A free mutex with a thread on its way to sleep, or asleep, has a thread that has yet to look
for sleepers or to signal, or a woken thread that has yet to try the mutex. -/
def WakeInv (cfg : Config) (s : State Tid) : Prop :=
  s.owner = none → (∃ V, (s.at cfg V).role = .sleepy) →
    ∃ V, (s.at cfg V).role = .releasing ∨ (s.at cfg V).role = .pending

omit hi in
/-- Another thread's role changes only when it is woken from `m->cv`. -/
theorem role_other {V : Tid} (hV : V ≠ T) :
    (s'.at cfg V).role = (s.at cfg V).role ∨
      (s.at cfg V).role = .sleepy ∧ (s'.at cfg V).role = .pending := by
  unfold State.at
  rcases exec_pc_other h hV with he | ⟨v, _, _, -, hs, he⟩
  · exact .inl (by rw [he])
  · rw [he]
    cases v with
    | cv => exact .inr (role_wake_cv _ hs)
    | host => exact .inl (role_wake_host _ hs)

omit hi in
/-- A thread that keeps its role keeps the invariant, when the mutex was free before. -/
theorem wake_keep (hw : WakeInv cfg s) (ho : s.owner = none)
    (hT : (s'.at cfg T).role = (s.at cfg T).role ∨
      (s.at cfg T).role = .none ∧ (s'.at cfg T).role ≠ .sleepy)
    (hs : ∃ V, (s'.at cfg V).role = .sleepy) :
    ∃ V, (s'.at cfg V).role = .releasing ∨ (s'.at cfg V).role = .pending := by
  have hback : ∀ V, (s'.at cfg V).role = .sleepy → (s.at cfg V).role = .sleepy := by
    intro V hV
    by_cases hVT : V = T
    · subst hVT
      rcases hT with he | ⟨-, hne⟩
      · rw [← he]
        exact hV
      · exact absurd hV hne
    · rcases role_other h hVT with he | ⟨hs, -⟩
      · rw [← he]
        exact hV
      · exact hs
  obtain ⟨V, hV⟩ := hs
  obtain ⟨U, hU⟩ := hw ho ⟨V, hback V hV⟩
  refine ⟨U, ?_⟩
  by_cases hUT : U = T
  · subst hUT
    rcases hT with he | ⟨hn, -⟩
    · rw [he]
      exact hU
    · rw [hn] at hU
      simp at hU
  · rcases role_other h hUT with he | ⟨-, hp⟩
    · rw [he]
      exact hU
    · exact .inr hp

/-- **Step.**  One step keeps the wake-up invariant. -/
theorem wake_step (hw : WakeInv cfg s)
    (hwait : ∃ A : Finset Tid, (∀ V, V ∈ A ↔ (s.at cfg V).counted = true) ∧
      s.waiters.toNat = A.card) : WakeInv cfg s' := by
  intro ho' hs'
  have hrole := role_next cfg (s.pc T)
  have ho := exec_owner h
  rw [ho'] at ho
  cases hcode : code cfg (s.pc T) with
  | casOwner won lost =>
      rw [hcode] at ho
      simp only [Code.ownerAfter] at ho
      split at ho
      · cases ho
      · rename_i hne
        exact absurd ho.symm hne
  | setOwner n =>
      rw [hcode] at ho
      cases ho
  | clearOwner n =>
      rw [hcode] at h hrole
      subst h
      have hnext : (place cfg n).role = .releasing := hrole
      refine ⟨T, .inl ?_⟩
      simp [State.at, hnext]
  | readOwner free mine other =>
      rw [hcode] at hrole ho
      have hnone : s.owner = none := ho.symm
      have hgo : s'.pc T = free := by
        rw [hcode] at h
        subst h
        simp [hnone]
      refine wake_keep h hw hnone ?_ hs'
      unfold State.at
      rw [hgo]
      rcases hrole with hn | ⟨hp, hf⟩
      · exact .inr hn
      · exact .inl (hf.trans hp.symm)
  | readWaiters zero more =>
      rw [hcode] at hrole ho
      have hnone : s.owner = none := ho.symm
      have hlegacy : cfg.legacy = false :=
        (scheme_of_code _ (hi.scheme T) false (by rw [hcode]; rfl)).symm
      by_cases hz : s.waiters = 0
      · -- nobody is counted, so nobody is sleepy
        exfalso
        obtain ⟨V, hV⟩ := hs'
        have hgo : s'.pc T = zero := by
          rw [hcode] at h
          subst h
          simp [hz]
        have hVT : V ≠ T := by
          rintro rfl
          unfold State.at at hV
          rw [hgo] at hV
          exact hrole.1 hV
        have hVs : (s.at cfg V).role = .sleepy := by
          rcases role_other h hVT with he | ⟨hs, -⟩
          · rw [← he]
            exact hV
          · exact hs
        obtain ⟨A, hA, hcard⟩ := hwait
        have hmem := (hA V).2 (counted_of_sleepy _ hVs (hi.scheme V) hlegacy)
        have hpos := Finset.card_pos.2 ⟨V, hmem⟩
        rw [← hcard, hz] at hpos
        simp at hpos
      · have hgo : s'.pc T = more := by
          rw [hcode] at h
          subst h
          rw [if_neg hz, goto_pc, Function.update_self]
        refine ⟨T, .inl ?_⟩
        unfold State.at
        rw [hgo]
        exact hrole.2
  | signal v all next =>
      rw [hcode] at hrole ho
      have hnone : s.owner = none := ho.symm
      cases v with
      | host =>
          refine wake_keep h hw hnone (.inl ?_) hs'
          rw [hcode] at h
          exact exec_pc_self (P := fun n => (place cfg n).role = (s.at cfg T).role) h hrole
      | cv =>
          -- the signaller holds `lk`, so every sleepy thread is asleep and one of them is woken
          obtain ⟨V, hV⟩ := hs'
          have hlkT := (hi.locked T).1 (locked_of_underLk cfg _ (by rw [hcode]; rfl))
          have hVT : V ≠ T := by
            rintro rfl
            rw [hcode] at h
            have hn := exec_pc_self (P := fun n => (place cfg n).role ≠ .sleepy) h hrole
            exact hn hV
          have hVs : (s.at cfg V).role = .sleepy := by
            rcases role_other h hVT with he | ⟨hs, -⟩
            · rw [← he]
              exact hV
            · exact hs
          have hVl : (s.at cfg V).locked = false := by
            by_contra hl
            have hlkV := (hi.locked V).1 (by simpa using hl)
            rw [hlkT] at hlkV
            exact hVT (Option.some.inj hlkV).symm
          have hasleep := sleepsOn_of_sleepy _ hVs hVl
          have hTawake : sleepsOn cfg .cv (s.pc T) = false := by simp [sleepsOn, hcode]
          rw [hcode] at h
          obtain ⟨W, hW, -, hne, rfl⟩ := h
          obtain ⟨U, hU⟩ := hne ⟨V, hasleep⟩
          have hUs := hW U hU
          have hUT : U ≠ T := by
            rintro rfl
            rw [hTawake] at hUs
            cases hUs
          refine ⟨U, .inr ?_⟩
          have hp := (role_wake_cv _ hUs).2
          simpa [State.at, State.wakeAll, hUT, hU] using hp
  | asleep v timed next =>
      rw [hcode] at hrole ho
      have hnone : s.owner = none := ho.symm
      cases v with
      | host =>
          refine wake_keep h hw hnone (.inl ?_) hs'
          rw [hcode] at h
          exact exec_pc_self (P := fun n => (place cfg n).role = (s.at cfg T).role) h hrole
      | cv =>
          rw [hcode] at h
          have hp := exec_pc_self (P := fun n => (place cfg n).role = .pending) h hrole
          exact ⟨T, .inr hp⟩
  | _ =>
      rw [hcode] at hrole ho
      have hnone : s.owner = none := ho.symm
      refine wake_keep h hw hnone (.inl ?_) hs'
      rw [hcode] at h
      exact exec_pc_self (P := fun n => (place cfg n).role = (s.at cfg T).role) h hrole

end Step

/-! ### runs of one thread -/

/-- The default scheme with a recursive mutex. -/
def recursiveConfig : Config := { legacy := false, spin := true, extra := false, type := 2 }

/-- The mutex after `n` locks by one thread and no unlock. -/
def lockedState (n : ℕ) : State Unit :=
  { initState with owner := some (), count := BitVec.ofNat 32 n, locks := fun _ => n }

/-- The runs of that thread in which no counter wraps. -/
def smallRuns : System (State Unit) Unit :=
  (syncSystem Unit recursiveConfig).restrict (NoWrap recursiveConfig)

theorem reachable_lockedState_one : Reachable smallRuns (lockedState 1) := by
  let s₁ : State Unit := initState.goto () (.lockRead false)
  let s₂ : State Unit := s₁.goto () (.lockCas false)
  let s₃ : State Unit := { s₂ with owner := some () }.goto () (.acquired false false)
  let s₄ : State Unit := { s₃ with count := 1 }.goto () (.ret .lock .ok)
  have h₀ : Reachable smallRuns initState := .init rfl
  have h₁ : Reachable smallRuns s₁ :=
    h₀.step (show _ ∧ exec _ () _ _ .call from ⟨trivial, .lock, false, rfl⟩)
  have h₂ : Reachable smallRuns s₂ := by
    refine h₁.step (a := ()) ⟨?_, ?_⟩
    · simp [NoWrap, s₁, code, recursiveConfig]
    · simp [syncSystem, exec, s₂, s₁, code, recursiveConfig, initState]
  have h₃ : Reachable smallRuns s₃ := by
    refine h₂.step (a := ()) ⟨?_, ?_⟩
    · simp [NoWrap, s₂, code]
    · simp [syncSystem, exec, s₃, s₂, s₁, code, initState]
  have h₄ : Reachable smallRuns s₄ := by
    refine h₃.step (a := ()) ⟨?_, ?_⟩
    · simp [NoWrap, s₃, code]
    · simp [syncSystem, exec, s₄, s₃, code, leave, lockCall]
  refine h₄.step (a := ()) ⟨?_, ?_⟩
  · simp [NoWrap, s₄, code]
  · have hpc : s₄.pc () = .ret .lock .ok := rfl
    simp only [syncSystem, hpc, code, exec]
    simp [lockedState, countReturn, s₄, s₃, s₂, s₁, initState, State.goto]
    rfl

theorem reachable_relock (n : ℕ)
    (h : Reachable (syncSystem Unit recursiveConfig) (lockedState n)) :
    Reachable (syncSystem Unit recursiveConfig) (lockedState (n + 1)) := by
  let s₁ : State Unit := (lockedState n).goto () (.lockRead false)
  let s₂ : State Unit := s₁.goto () (.relock false false false)
  let s₃ : State Unit := { s₂ with count := s₂.count + 1 }.goto () (.ret .lock .ok)
  have h₁ : Reachable (syncSystem Unit recursiveConfig) s₁ :=
    h.step (show exec _ () _ _ .call from ⟨.lock, false, rfl⟩)
  have h₂ : Reachable (syncSystem Unit recursiveConfig) s₂ := by
    refine h₁.step (a := ()) ?_
    simp [syncSystem, exec, s₂, s₁, code, recursiveConfig, lockedState]
  have h₃ : Reachable (syncSystem Unit recursiveConfig) s₃ := by
    refine h₂.step (a := ()) ?_
    simp [syncSystem, exec, s₃, s₂, code, recursiveConfig, leave, lockCall]
  refine h₃.step (a := ()) ?_
  have hpc : s₃.pc () = .ret .lock .ok := rfl
  simp only [syncSystem, hpc, code, exec]
  simp [lockedState, countReturn, s₃, s₂, s₁, State.goto, initState, BitVec.ofNat_add]
  rfl

theorem reachable_lockedState (n : ℕ) :
    Reachable (syncSystem Unit recursiveConfig) (lockedState (n + 1)) := by
  induction n with
  | zero => exact reachable_lockedState_one.of_restrict
  | succ n ih => exact reachable_relock _ ih

/-! ### safety -/

/-- Inside `gm_unlock` or `gm_cond_wait`, which may have given the mutex up already. -/
def Pc.giving : Pc → Bool
  | .ret k _ | .unlk k _ => k = .unlock ∨ k = .condWait
  | .unlockLk | .unlockRead | .unlockDec | .unlockStore | .unlockWaiters | .unlockSignalLk
  | .unlockSignal => true
  | .cwRead _ | .cwDepth _ | .cwLk _ _ | .cwSetM _ _ | .cwCount _ _ | .cwStore _ _
  | .cwWaiters _ _ | .cwSignal _ _ | .cwWait _ _ | .cwAsleep _ _ | .cwWoken _ _ | .cwAnnounce _ _
  | .cwCas _ _ _ | .cwCvWait _ _ | .cwCvAsleep _ _ | .cwCvWoken _ _ | .cwTake _ _ _
  | .cwLeave _ _ | .cwRestore _ _ => true
  | _ => false

/-- Thread `V` has locks it has not undone, and is not giving them up. -/
def Holds (s : State Tid) (V : Tid) : Prop := 0 < s.held V ∧ (s.pc V).giving = false

/-- The safety of the mutex in a state: at most one thread holds it; between its calls a thread is
the owner exactly when it has completed more locks than unlocks, and the count is their
difference; a step ends the ownership of a thread exactly when it is that thread's own release,
in `gm_unlock` with the count at zero and the last completed lock undone, or in `gm_cond_wait`;
and when the mutex is free, no thread has still to signal and none was woken, nobody sleeps. -/
structure Safe (cfg : Config) (s : State Tid) : Prop where
  exclusive : ∀ V W, Holds s V → Holds s W → V = W
  owner_iff : ∀ V, s.pc V = .idle → (s.owner = some V ↔ 0 < s.held V)
  count_eq : ∀ V, s.pc V = .idle → s.owner = some V → (s.count.toNat : ℤ) = s.held V
  release_iff : ∀ T s', (syncSystem Tid cfg).step s T s' → ∀ V, s.owner = some V →
    (s'.owner ≠ some V ↔ T = V ∧ (s.pc V = .unlockStore ∨ ∃ t d, s.pc V = .cwStore t d))
  release_zero : ∀ V, s.pc V = .unlockStore → s.count = 0 ∧ s.held V = 1
  wake : s.owner = none → (∀ V, (s.at cfg V).role ≠ .releasing) →
    (∀ V, (s.at cfg V).role ≠ .pending) → ∀ V, sleepsOn cfg .cv (s.pc V) = false

/-- A thread that is giving nothing up is outside the phases in which its levels and its ownership
differ. -/
theorem phase_of_not_giving (cfg : Config) (p : Pc) (h : p.giving = false) :
    (place cfg p).phase = .plain ∨ (place cfg p).phase = .fresh ∨
      (place cfg p).phase = .granted := by
  cases p with
  | ret k r | unlk k r => cases k <;> cases r <;> simp_all [Pc.giving, place, retPhase]
  | sleepLeave got | sleepUnlk got => cases got <;> simp [place]
  | _ => simp_all [Pc.giving, place]

theorem clearOwner_places (p n : Pc) (h : code cfg p = .clearOwner n) :
    p = .unlockStore ∨ ∃ t d, p = .cwStore t d := by
  cases p <;> simp only [code] at h <;> (try split_ifs at h) <;> simp_all

/-- The invariants of the runs in which no counter wraps. -/
structure FullInv (cfg : Config) (s : State Tid) : Prop extends Inv cfg s where
  levels : ∀ V, Levels s V (s.at cfg V).phase
  waiters : ∃ A : Finset Tid, (∀ V, V ∈ A ↔ (s.at cfg V).counted = true) ∧
    s.waiters.toNat = A.card
  wake : WakeInv cfg s

omit [DecidableEq Tid] in
theorem fullInv_init : FullInv cfg (initState : State Tid) where
  toInv := inv_init
  levels V := by simp [Levels, State.at, initState, place, State.held]
  waiters := ⟨∅, by simp [State.at, initState, place], rfl⟩
  wake _ := by simp [State.at, initState, place]

/-- **Runs.** -/
theorem reachable_fullInv (h : Reachable ((syncSystem Tid cfg).restrict (NoWrap cfg)) s) :
    FullInv cfg s := by
  refine h.invariant (fun s hs => ?_) fun s T s' _ hf hs => ?_
  · rw [show s = initState from hs]
    exact fullInv_init
  · obtain ⟨hw, hstep⟩ := hs
    have hexec : exec cfg T s s' (code cfg (s.pc T)) := hstep
    exact
      { toInv := inv_step hf.toInv hexec
        levels := levels_step hf.toInv hexec hw hf.levels
        waiters := waiters_step hexec hw hf.waiters
        wake := wake_step hf.toInv hexec hf.wake hf.waiters }

theorem owner_of_holds (hf : FullInv cfg s) {V : Tid} (hV : Holds s V) : s.owner = some V := by
  obtain ⟨hpos, hg⟩ := hV
  have hl := hf.levels V
  have hown := hf.owner V
  unfold State.at at hl hown
  rcases phase_of_not_giving cfg _ hg with hp | hp | hp
  · rw [hp] at hl
    by_contra hne
    have hzero := hl.2 hne
    omega
  · rw [hp] at hl
    have hzero : s.held V = 0 := hl
    omega
  · exact hown (owns_of_phase cfg _ (.inl hp))

theorem release_iff_of_inv (hi : Inv cfg s) (h : exec cfg T s s' (code cfg (s.pc T))) {V : Tid}
    (hV : s.owner = some V) :
    s'.owner ≠ some V ↔ T = V ∧ (s.pc V = .unlockStore ∨ ∃ t d, s.pc V = .cwStore t d) := by
  constructor
  · intro hne
    have hTV : V = T := by
      by_contra hVT
      exact hne ((step_frame hi h hVT).1.2 hV)
    subst hTV
    refine ⟨rfl, ?_⟩
    have ho := exec_owner h
    have hown := owns_next cfg (s.pc V)
    cases hcode : code cfg (s.pc V) with
    | clearOwner n => exact clearOwner_places _ n hcode
    | casOwner | setOwner =>
        rw [hcode] at hown
        exact absurd hV (hi.notOwner V hown.1)
    | _ =>
        rw [hcode] at ho
        exact absurd (ho.trans hV) hne
  · rintro ⟨rfl, hp⟩
    have ho := exec_owner h
    rcases hp with hp | ⟨t, d, hp⟩
    · rw [ho, hp]
      simp [code, Code.ownerAfter]
    · rw [ho, hp]
      simp [code, Code.ownerAfter]

/-- **Safety.**  In every run whose steps wrap neither 32-bit counter, every state is safe. -/
theorem mutex_safe (cfg : Config) (s : State Tid)
    (h : Reachable ((syncSystem Tid cfg).restrict (NoWrap cfg)) s) : Safe cfg s := by
  have hf := reachable_fullInv h
  refine ⟨fun V W hV hW => ?_, fun V hV => ?_, fun V hV ho => ?_, fun T s' hs V hV => ?_,
    fun V hV => ?_, fun ho hrel hpend V => ?_⟩
  · have hoV := owner_of_holds hf hV
    rw [owner_of_holds hf hW] at hoV
    exact (Option.some.inj hoV).symm
  · have hl := hf.levels V
    simp only [State.at, hV, place] at hl
    constructor
    · exact fun ho => (hl.1 ho).2
    · intro hpos
      by_contra hne
      have hzero := hl.2 hne
      omega
  · have hl := hf.levels V
    simp only [State.at, hV, place] at hl
    exact (hl.1 ho).1
  · exact release_iff_of_inv hf.toInv hs hV
  · have hl := hf.levels V
    simp only [State.at, hV, place] at hl
    exact hl
  · by_contra hs
    have hsleepy := (role_wake_cv _ (by simpa using hs)).1
    obtain ⟨U, hU | hU⟩ := hf.wake ho ⟨V, hsleepy⟩
    · exact hrel U hU
    · exact hpend U hU

/-- A mutex locked once is safe. -/
theorem mutex_safe_locked_once : Safe recursiveConfig (lockedState 1) :=
  mutex_safe recursiveConfig (lockedState 1) reachable_lockedState_one

/-- After `2 ^ 32` nested locks the recursion count of the owner is 0. -/
theorem mutex_unsafe :
    ¬ ∀ (cfg : Config) (s : State Unit), Reachable (syncSystem Unit cfg) s → Safe cfg s := by
  intro h
  have hsafe := h recursiveConfig _ (reachable_lockedState (2 ^ 32 - 1))
  have hcount := hsafe.count_eq () rfl rfl
  simp [lockedState, State.held, initState] at hcount

end PS4Recomp.Runtime
