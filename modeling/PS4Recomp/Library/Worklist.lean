import Mathlib.Data.Finset.Card
import Mathlib.Logic.Function.Basic
import Mathlib.Logic.Relation

/-!
# Worklists

A queue with a set of the items ever queued, over any type.

* `unvisited` — the items of a finite universe that were never queued;
* `push`, `pushAll` — an item is queued once, `pushAll_spec` says which ones are;
* `run` — items are popped and their successors queued; the result lists them in order;
* `Inv` — the invariant of a run: what is popped or queued has no repetition, is what was ever
  queued, and is closed under successors but for the queue;
* `run_isSome`, `run_nodup`, `mem_run_iff` — a run in a finite universe ends, and what it popped is
  what can be reached from its roots, each once.
-/

namespace PS4Recomp.Library.Worklist

variable {α : Type} [DecidableEq α]

/-! ### what was never queued -/

/-- The items of a universe that were never queued. -/
def unvisited (U : Finset α) (visited : α → Bool) : Finset α := U.filter fun a => visited a = false

theorem unvisited_update (U : Finset α) (visited : α → Bool) (t : α) :
    unvisited U (Function.update visited t true) = (unvisited U visited).erase t := by
  ext a
  simp only [unvisited, Finset.mem_filter, Finset.mem_erase]
  by_cases h : a = t
  · subst h
    simp
  · simp [h]

/-- Queueing an item of the universe takes it out of those never queued. -/
theorem card_unvisited_update {U : Finset α} {visited : α → Bool} {t : α} (ht : t ∈ U)
    (hv : visited t = false) :
    (unvisited U (Function.update visited t true)).card + 1 = (unvisited U visited).card := by
  rw [unvisited_update]
  apply Finset.card_erase_add_one
  simp only [unvisited, Finset.mem_filter]
  exact ⟨ht, hv⟩

/-! ### queueing -/

/-- An item is queued if it never was. -/
def push (st : List α × (α → Bool)) (t : α) : List α × (α → Bool) :=
  if st.2 t then st else (st.1 ++ [t], Function.update st.2 t true)

/-- A list of items, in order. -/
def pushAll (ts : List α) (st : List α × (α → Bool)) : List α × (α → Bool) := ts.foldl push st

@[simp] theorem pushAll_nil (st : List α × (α → Bool)) : pushAll [] st = st := rfl

@[simp] theorem pushAll_cons (t : α) (ts : List α) (st : List α × (α → Bool)) :
    pushAll (t :: ts) st = pushAll ts (push st t) := rfl

/-- What is queued of a list: its items that never were, each once. -/
theorem pushAll_spec (ts : List α) : ∀ (queue : List α) (visited : α → Bool),
    ∃ new, (pushAll ts (queue, visited)).1 = queue ++ new ∧ new.Nodup ∧
      (∀ a, a ∈ new ↔ a ∈ ts ∧ visited a = false) ∧
      ∀ a, (pushAll ts (queue, visited)).2 a = true ↔ visited a = true ∨ a ∈ ts := by
  induction ts with
  | nil =>
      intro queue visited
      exact ⟨[], by simp, List.nodup_nil, by simp, by simp⟩
  | cons t ts ih =>
      intro queue visited
      rw [pushAll_cons]
      by_cases ht : visited t = true
      · obtain ⟨new, hq, hnodup, hnew, hvis⟩ := ih queue visited
        rw [push, if_pos ht]
        refine ⟨new, hq, hnodup, fun a => ?_, fun a => ?_⟩
        · rw [hnew, List.mem_cons]
          constructor
          · exact fun h => ⟨.inr h.1, h.2⟩
          · intro h
            refine ⟨h.1.resolve_left fun hat => ?_, h.2⟩
            rw [hat, ht] at h
            cases h.2
        · rw [hvis, List.mem_cons]
          constructor
          · exact Or.imp id .inr
          · intro h
            rcases h with h | rfl | h
            · exact .inl h
            · exact .inl ht
            · exact .inr h
      · obtain ⟨new, hq, hnodup, hnew, hvis⟩ :=
          ih (queue ++ [t]) (Function.update visited t true)
        have htnew : t ∉ new := by
          intro h
          have := (hnew t).1 h
          simp at this
        rw [push, if_neg ht]
        refine ⟨t :: new, by rw [hq]; simp, List.nodup_cons.2 ⟨htnew, hnodup⟩, fun a => ?_, fun a => ?_⟩
        · rw [List.mem_cons, List.mem_cons, hnew]
          by_cases hat : a = t
          · subst hat
            simpa using ht
          · simp [hat]
        · rw [hvis, List.mem_cons]
          by_cases hat : a = t
          · subst hat
            simp
          · simp [hat]

/-! ### a run -/

/-- Items are popped, and their successors queued; `none` if the fuel was not enough. -/
def run (next : α → List α) : ℕ → List α × (α → Bool) → Option (List α)
  | 0, _ => none
  | fuel + 1, (queue, visited) =>
      match queue with
      | [] => some []
      | a :: queue => (run next fuel (pushAll (next a) (queue, visited))).map (a :: ·)

/-- What the roots lead to. -/
def Reach (next : α → List α) (roots : List α) (a : α) : Prop :=
  ∃ r ∈ roots, Relation.ReflTransGen (fun a b => b ∈ next a) r a

variable {next : α → List α} {roots : List α}

omit [DecidableEq α] in
theorem Reach.step {a b : α} (h : Reach next roots a) (hb : b ∈ next a) : Reach next roots b := by
  obtain ⟨r, hr, hra⟩ := h
  exact ⟨r, hr, hra.tail hb⟩

/-- The invariant of a run, for what was popped so far. -/
structure Inv (next : α → List α) (roots popped : List α) (st : List α × (α → Bool)) : Prop where
  nodup : (popped ++ st.1).Nodup
  visited : ∀ a, st.2 a = true ↔ a ∈ popped ++ st.1
  reach : ∀ a ∈ popped ++ st.1, Reach next roots a
  closed : ∀ a ∈ popped, ∀ b ∈ next a, b ∈ popped ++ st.1
  roots : ∀ r ∈ roots, r ∈ popped ++ st.1

theorem inv_start (next : α → List α) (roots : List α) :
    Inv next roots [] (pushAll roots ([], fun _ => false)) := by
  obtain ⟨new, hq, hnodup, hnew, hvis⟩ := pushAll_spec roots [] fun _ => false
  rw [List.nil_append] at hq
  have hmem : ∀ a, a ∈ [] ++ (pushAll roots ([], fun _ => false)).1 ↔ a ∈ roots := by
    intro a
    rw [List.nil_append, hq, hnew]
    simp
  constructor
  · rw [List.nil_append, hq]
    exact hnodup
  · intro a
    rw [hmem, hvis]
    simp
  · exact fun a ha => ⟨a, (hmem a).1 ha, .refl⟩
  · exact fun a ha => absurd ha List.not_mem_nil
  · exact fun r hr => (hmem r).2 hr

/-- Popping an item and queueing its successors keeps the invariant. -/
theorem Inv.pop {popped queue : List α} {visited : α → Bool} {a : α}
    (h : Inv next roots popped (a :: queue, visited)) :
    Inv next roots (popped ++ [a]) (pushAll (next a) (queue, visited)) := by
  obtain ⟨new, hq, hnodup, hnew, hvis⟩ := pushAll_spec (next a) queue visited
  have hall : popped ++ [a] ++ (pushAll (next a) (queue, visited)).1 =
      popped ++ a :: queue ++ new := by
    rw [hq]
    simp
  have hvisited : ∀ b, visited b = true ↔ b ∈ popped ++ a :: queue := h.visited
  have ha : a ∈ popped ++ a :: queue := List.mem_append_right _ List.mem_cons_self
  have hin : ∀ b, b ∈ popped ++ a :: queue ++ new ↔ b ∈ popped ++ a :: queue ∨ b ∈ next a := by
    intro b
    rw [List.mem_append, hnew, ← hvisited]
    cases visited b <;> simp
  constructor
  · rw [hall]
    refine List.nodup_append.2 ⟨h.nodup, hnodup, fun b hb c hc hbc => ?_⟩
    subst hbc
    have := ((hnew b).1 hc).2
    rw [(hvisited b).2 hb] at this
    cases this
  · intro b
    rw [hall, hvis, hin, hvisited]
  · intro b hb
    rw [hall, hin] at hb
    rcases hb with hb | hb
    · exact h.reach b hb
    · exact (h.reach a ha).step hb
  · intro b hb c hc
    rw [hall, hin]
    rcases List.mem_append.1 hb with hb | hb
    · exact .inl (h.closed b hb c hc)
    · rw [List.mem_singleton.1 hb] at hc
      exact .inr hc
  · intro r hr
    rw [hall, hin]
    exact .inl (h.roots r hr)

/-- What a run returns completes what was popped before it. -/
theorem Inv.run : ∀ (fuel : ℕ) (popped l : List α) (st : List α × (α → Bool)),
    Inv next roots popped st → Worklist.run next fuel st = some l →
    Inv next roots (popped ++ l) ([], fun a => decide (a ∈ popped ++ l)) := by
  intro fuel
  induction fuel with
  | zero => intro popped l st _ hl; cases hl
  | succ fuel ih =>
      intro popped l st h hl
      obtain ⟨queue, visited⟩ := st
      cases queue with
      | nil =>
          cases hl
          simp only [List.append_nil]
          have hall : popped ++ ([] : List α) = popped := List.append_nil _
          exact ⟨h.nodup, by simp, h.reach, h.closed, h.roots⟩
      | cons a queue =>
          simp only [Worklist.run, Option.map_eq_some_iff] at hl
          obtain ⟨l', hl', rfl⟩ := hl
          have hrest := ih _ _ _ h.pop hl'
          simp only [List.append_assoc, List.singleton_append] at hrest
          exact hrest

theorem run_nodup {fuel : ℕ} {l : List α}
    (h : run next fuel (pushAll roots ([], fun _ => false)) = some l) : l.Nodup := by
  have hinv := Inv.run _ _ _ _ (inv_start next roots) h
  simpa using hinv.nodup

/-- **What a run popped** is what the roots lead to. -/
theorem mem_run_iff {fuel : ℕ} {l : List α}
    (h : run next fuel (pushAll roots ([], fun _ => false)) = some l) (a : α) :
    a ∈ l ↔ Reach next roots a := by
  have hinv := Inv.run _ _ _ _ (inv_start next roots) h
  simp only [List.nil_append] at hinv
  constructor
  · intro ha
    apply hinv.reach
    simpa using ha
  · intro hreach
    obtain ⟨r, hr, hra⟩ := hreach
    induction hra with
    | refl => simpa using hinv.roots r hr
    | tail _ hbc ih => simpa using hinv.closed _ ih _ hbc

/-! ### enough fuel -/

theorem card_pushAll {U : Finset α} (ts : List α) : ∀ (queue : List α) (visited : α → Bool),
    (∀ t ∈ ts, t ∈ U) →
    (unvisited U (pushAll ts (queue, visited)).2).card + (pushAll ts (queue, visited)).1.length =
      (unvisited U visited).card + queue.length := by
  induction ts with
  | nil => intro queue visited _; rfl
  | cons t ts ih =>
      intro queue visited hU
      have hrest := fun q v => ih q v fun b hb => hU b (List.mem_cons_of_mem t hb)
      rw [pushAll_cons, push]
      by_cases ht : visited t = true
      · rw [if_pos ht]
        exact hrest queue visited
      · have hcard : (unvisited U (Function.update visited t true)).card + 1 =
            (unvisited U visited).card :=
          card_unvisited_update (hU t List.mem_cons_self) (Bool.eq_false_iff.2 ht)
        rw [if_neg ht, hrest, List.length_append, List.length_singleton, ← hcard]
        dsimp only
        omega

theorem run_succ : ∀ (fuel : ℕ) (st : List α × (α → Bool)) (l : List α),
    run next fuel st = some l → run next (fuel + 1) st = some l := by
  intro fuel
  induction fuel with
  | zero => intro st l h; cases h
  | succ fuel ih =>
      intro st l h
      obtain ⟨queue, visited⟩ := st
      cases queue with
      | nil => exact h
      | cons a queue =>
          rw [run] at h ⊢
          obtain ⟨l', hl', he⟩ := Option.map_eq_some_iff.1 h
          exact Option.map_eq_some_iff.2 ⟨l', ih _ _ hl', he⟩

theorem run_mono {fuel fuel' : ℕ} {st : List α × (α → Bool)} {l : List α} (hle : fuel ≤ fuel')
    (h : run next fuel st = some l) : run next fuel' st = some l := by
  induction hle with
  | refl => exact h
  | step _ ih => exact run_succ _ _ _ ih

theorem run_isSome {U : Finset α} (hnext : ∀ a, ∀ b ∈ next a, b ∈ U) :
    ∀ (fuel : ℕ) (queue : List α) (visited : α → Bool),
    (unvisited U visited).card + queue.length < fuel → ∃ l, run next fuel (queue, visited) = some l := by
  intro fuel
  induction fuel with
  | zero => intro queue visited h; omega
  | succ fuel ih =>
      intro queue visited h
      cases queue with
      | nil => exact ⟨[], rfl⟩
      | cons a queue =>
          have hcard := card_pushAll (next a) queue visited (hnext a)
          rw [List.length_cons] at h
          obtain ⟨l, hl⟩ := ih (pushAll (next a) (queue, visited)).1
            (pushAll (next a) (queue, visited)).2 (by omega)
          exact ⟨a :: l, by simp only [run, hl, Option.map_some]⟩

/-- From its roots, a run in a universe needs one step for each item of it, and one to stop. -/
theorem run_start_isSome {U : Finset α} (hroots : ∀ r ∈ roots, r ∈ U)
    (hnext : ∀ a, ∀ b ∈ next a, b ∈ U) {fuel : ℕ} (hfuel : U.card < fuel) :
    ∃ l, run next fuel (pushAll roots ([], fun _ => false)) = some l := by
  have hcard := card_pushAll roots [] (fun _ => false) hroots
  have hle : (unvisited U fun _ => false).card ≤ U.card := Finset.card_filter_le _ _
  rw [List.length_nil] at hcard
  exact run_isSome hnext fuel (pushAll roots ([], fun _ => false)).1
    (pushAll roots ([], fun _ => false)).2 (by omega)

end PS4Recomp.Library.Worklist
