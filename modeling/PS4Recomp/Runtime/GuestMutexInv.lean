import PS4Recomp.Runtime.GuestMutexPlaces

/-!
# Guest mutexes: the invariants

* `Inv` — of every run: each thread is at a place of its scheme, the holder of `lk` is the thread
  whose place says so, the owner word agrees with what the places claim, and a thread about to set
  the owner word under `lk` still finds it 0;
* `inv_step`, `reachable_inv` — one step keeps it, so every reachable state has it;
* `step_frame` — a step leaves what other threads know of their ownership and count.
-/

namespace PS4Recomp.Runtime

open Library.Transition

variable {Tid : Type*} [DecidableEq Tid] {cfg : Config} {T : Tid} {s s' : State Tid}

/-- What is known of thread `V` from its place. -/
def State.at (cfg : Config) (s : State Tid) (V : Tid) : Place := place cfg (s.pc V)

/-- The invariants of every run. -/
structure Inv (cfg : Config) (s : State Tid) : Prop where
  scheme : ∀ V, (s.at cfg V).InScheme cfg
  locked : ∀ V, (s.at cfg V).locked = true ↔ s.lk = some V
  owner : ∀ V, (s.at cfg V).owns = some true → s.owner = some V
  notOwner : ∀ V, (s.at cfg V).owns = some false → s.owner ≠ some V
  sawFree : ∀ V, (s.at cfg V).sawFree = true → s.owner = none

omit [DecidableEq Tid] in
theorem inv_init : Inv cfg (initState : State Tid) where
  scheme V := by simp [State.at, initState, place, Place.InScheme]
  locked V := by simp [State.at, initState, place]
  owner V := by simp [State.at, initState, place]
  notOwner V := by simp [State.at, initState, place]
  sawFree V := by simp [State.at, initState, place]

/-! ### one step -/

section Step

variable (hi : Inv cfg s) (h : exec cfg T s s' (code cfg (s.pc T)))

include h

theorem at_other {V : Tid} (hV : V ≠ T) :
    (s'.at cfg V).only = (s.at cfg V).only ∧ (s'.at cfg V).locked = (s.at cfg V).locked ∧
      (s'.at cfg V).counted = (s.at cfg V).counted ∧ (s'.at cfg V).owns = (s.at cfg V).owns ∧
      (s'.at cfg V).phase = (s.at cfg V).phase ∧
      (s'.at cfg V).sawFree = (s.at cfg V).sawFree := by
  unfold State.at
  rcases exec_pc_other h hV with he | ⟨_, _, _, -, -, he⟩
  · rw [he]
    exact ⟨rfl, rfl, rfl, rfl, rfl, rfl⟩
  · rw [he]
    exact place_wake _

include hi

theorem step_scheme (V : Tid) : (s'.at cfg V).InScheme cfg := by
  by_cases hV : V = T
  · subst hV
    exact exec_pc_self h (only_next _ (hi.scheme V))
  · intro l hl
    rw [(at_other h hV).1] at hl
    exact hi.scheme V l hl

theorem step_locked (V : Tid) : (s'.at cfg V).locked = true ↔ s'.lk = some V := by
  have hself := exec_pc_self h (locked_next _ (hi.scheme T))
  have hlk := exec_lk h
  have hT : (s.at cfg T).locked = true ↔ s.lk = some T := hi.locked T
  have hunder := locked_of_underLk cfg (s.pc T)
  by_cases hV : V = T
  · subst hV
    rw [State.at, hself, hlk]
    change (place cfg (s.pc V)).locked = true ↔ s.lk = some V at hT
    generalize code cfg (s.pc V) = c at *
    cases c <;> simp_all [Code.lockedAfter, Code.lkAfter]
  · rw [(at_other h hV).2.1, hi.locked V, hlk]
    change (place cfg (s.pc T)).locked = true ↔ s.lk = some T at hT
    generalize hc : code cfg (s.pc T) = c at *
    have hVT : ¬ T = V := fun e => hV e.symm
    cases c with
    | lockLk next =>
        obtain ⟨hn, -⟩ := h
        simp [Code.lkAfter, hn, hVT]
    | unlockLk next | wait next =>
        have hTl := hT.1 (hunder rfl)
        simp [Code.lkAfter, hTl, hVT]
    | _ => rfl

/-- **Frame.**  What another thread may rely on: whether it is the owner, and its count if it is. -/
theorem step_frame {V : Tid} (hV : V ≠ T) :
    (s'.owner = some V ↔ s.owner = some V) ∧ (s.owner = some V → s'.count = s.count) := by
  have hown := owns_next cfg (s.pc T)
  have ho := exec_owner h
  have hc := exec_count h
  have hT := hi.owner T
  have hfree := hi.sawFree T
  have hsaw := sawFree_next cfg (s.pc T)
  unfold State.at at hT hfree
  have hTV : ¬ T = V := fun e => hV e.symm
  rw [ho, hc]
  generalize code cfg (s.pc T) = c at *
  cases c with
  | casOwner won lost =>
      refine ⟨?_, fun _ => rfl⟩
      simp only [Code.ownerAfter]
      split
      · rename_i hn
        simp [hn, hTV]
      · rfl
  | setOwner next =>
      have hn := hfree hsaw.1
      refine ⟨?_, fun _ => rfl⟩
      simp [Code.ownerAfter, hn, hTV]
  | clearOwner next | setCount d next | incCount next | decCount zero more =>
      have hsome := hT hown.1
      simp [Code.ownerAfter, hsome, hTV]
  | _ => exact ⟨Iff.rfl, fun _ => rfl⟩

theorem step_owner (V : Tid) (hV : (s'.at cfg V).owns = some true) : s'.owner = some V := by
  by_cases hVT : V = T
  · subst hVT
    have hown := owns_next cfg (s.pc V)
    have ho := exec_owner h
    have hT := hi.owner V
    unfold State.at at hT hV
    rw [ho]
    generalize code cfg (s.pc V) = c at *
    cases c with
    | readOwner free mine other =>
        subst h
        simp only [goto_pc, Function.update_self] at hV
        simp only [Code.ownerAfter]
        split at hV
        · rcases hown with hn | hn
          · exact absurd hV hn.1
          · rw [hn.2.1] at hV
            cases hV
        · split at hV
          · assumption
          · rcases hown with hn | hn
            · exact absurd hV hn.2.2
            · rw [hn.2.2.2] at hV
              cases hV
    | casOwner won lost =>
        subst h
        simp only [Code.ownerAfter]
        split at hV
        · rename_i hn
          rw [if_pos hn]
        · simp only [goto_pc, Function.update_self] at hV
          exact absurd hV hown.2.2
    | setOwner next => rfl
    | clearOwner next =>
        subst h
        simp only [goto_pc, Function.update_self, hown.2] at hV
        cases hV
    | setCount d next | incCount next | decCount zero more | readCount next => exact hT hown.1
    | _ =>
        have hn := exec_pc_self (P := fun n => (place cfg n).owns = none ∨
          (place cfg n).owns = (place cfg (s.pc V)).owns) h hown
        simp only [hV, reduceCtorEq, false_or] at hn
        exact hT hn.symm
  · rw [(at_other h hVT).2.2.2.1] at hV
    exact (step_frame hi h hVT).1.2 (hi.owner V hV)

theorem step_notOwner (V : Tid) (hV : (s'.at cfg V).owns = some false) : s'.owner ≠ some V := by
  by_cases hVT : V = T
  · subst hVT
    have hown := owns_next cfg (s.pc V)
    have ho := exec_owner h
    have hT := hi.notOwner V
    unfold State.at at hT hV
    rw [ho]
    generalize code cfg (s.pc V) = c at *
    cases c with
    | readOwner free mine other =>
        subst h
        simp only [goto_pc, Function.update_self] at hV
        simp only [Code.ownerAfter]
        split at hV
        · simp [*]
        · split at hV
          · rcases hown with hn | hn
            · exact absurd hV hn.2.1
            · exact hT hn.1
          · assumption
    | casOwner won lost =>
        subst h
        simp only [Code.ownerAfter]
        split at hV
        · simp only [goto_pc, Function.update_self, hown.2.1] at hV
          cases hV
        · rename_i hne
          rw [if_neg hne]
          exact hT hown.1
    | setOwner next =>
        subst h
        simp only [goto_pc, Function.update_self, hown.2] at hV
        cases hV
    | clearOwner next => simp [Code.ownerAfter]
    | setCount d next | incCount next =>
        subst h
        exact absurd hV (by simpa using hown.2)
    | decCount zero more =>
        subst h
        simp only [goto_pc, Function.update_self] at hV
        split at hV
        · rw [hown.2.1] at hV
          cases hV
        · rw [hown.2.2] at hV
          cases hV
    | readCount next =>
        subst h
        simp only [goto_pc, Function.update_self, hown.2] at hV
        cases hV
    | _ =>
        have hn := exec_pc_self (P := fun n => (place cfg n).owns = none ∨
          (place cfg n).owns = (place cfg (s.pc V)).owns) h hown
        simp only [hV, reduceCtorEq, false_or] at hn
        exact hT hn.symm
  · rw [(at_other h hVT).2.2.2.1] at hV
    exact fun hs => hi.notOwner V hV ((step_frame hi h hVT).1.1 hs)

theorem step_sawFree (V : Tid) (hV : (s'.at cfg V).sawFree = true) : s'.owner = none := by
  have hsaw := sawFree_next cfg (s.pc T)
  have ho := exec_owner h
  by_cases hVT : V = T
  · subst hVT
    unfold State.at at hV
    rw [ho]
    generalize code cfg (s.pc V) = c at *
    cases c with
    | readOwner free mine other =>
        subst h
        simp only [goto_pc, Function.update_self] at hV
        simp only [Code.ownerAfter]
        split at hV
        · assumption
        · split at hV
          · rw [hsaw.1] at hV
            cases hV
          · rw [hsaw.2] at hV
            cases hV
    | setOwner next =>
        subst h
        simp only [goto_pc, Function.update_self, hsaw.2] at hV
        cases hV
    | _ =>
        have hn := exec_pc_self (P := fun n => (place cfg n).sawFree = false) h hsaw
        simp only [hV, reduceCtorEq] at hn
  · -- a thread that saw the word free holds `lk` in the legacy scheme, where nobody else writes it
    rw [(at_other h hVT).2.2.2.2.2] at hV
    have hnone := hi.sawFree V hV
    obtain ⟨hl, honly⟩ := of_sawFree _ hV
    have hlegacy := hi.scheme V true honly
    have hlkV := (hi.locked V).1 hl
    have hscheme := scheme_of_code _ (hi.scheme T)
    have hTlk := fun hu => (hi.locked T).1 (locked_of_underLk cfg (s.pc T) hu)
    rw [ho]
    generalize code cfg (s.pc T) = c at *
    cases c with
    | casOwner won lost =>
        have hf := hscheme false rfl
        rw [← hlegacy] at hf
        exact absurd hf (by decide)
    | setOwner next =>
        have hlkT := hTlk rfl
        rw [hlkV] at hlkT
        exact absurd (Option.some.inj hlkT) hVT
    | clearOwner next => rfl
    | _ => exact hnone

/-- **Step.**  One step keeps the invariants. -/
theorem inv_step : Inv cfg s' :=
  ⟨step_scheme hi h, step_locked hi h, step_owner hi h, step_notOwner hi h, step_sawFree hi h⟩

end Step

/-- **Runs.**  Every reachable state has the invariants. -/
theorem reachable_inv (h : Reachable (syncSystem Tid cfg) s) : Inv cfg s := by
  refine h.invariant (fun s hs => ?_) fun s T s' _ hi hs => ?_
  · rw [show s = initState from hs]
    exact inv_init
  · exact inv_step hi (show exec cfg T s s' (code cfg (s.pc T)) from hs)

end PS4Recomp.Runtime
