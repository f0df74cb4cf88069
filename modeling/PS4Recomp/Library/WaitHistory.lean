import Mathlib.Data.List.Basic

/-!
# Queues of jobs that stop at waits

A job is run packet by packet.  At a wait the queue may stop, and a wait may be passed by a time-out.

* `Turn`, `Walker` — what a job does next, and the packet after which a wait goes on;
* `Event`, `Drains` — the history of a queue, newest first, and the jobs that are left after it;
* `waitedFor` — since when a queue has been stopped at a wait, and whether every look found it a long one;
* `FullWaits` — no time-out came before the limit of its wait.
-/

namespace PS4Recomp.Library.WaitHistory

variable {W J P : Type*}

/-- What a job does next: it ends, moves without a packet, runs a packet, or stops at a wait. -/
inductive Turn (J P : Type*)
  | done
  | quiet (j : J)
  | ran (p : P) (j : J)
  | blocked
  deriving DecidableEq

/-- A turn of a job inside another one. -/
def Turn.map {J J' : Type*} (f : J → J') : Turn J P → Turn J' P
  | .done => .done
  | .quiet j => .quiet (f j)
  | .ran p j => .ran p (f j)
  | .blocked => .blocked

/-- How jobs run in a world.  A job at a wait stops there or runs it. -/
structure Walker (W J P : Type*) where
  next : W → J → Turn J P
  /-- The wait that a job is at, and the job behind it. -/
  wait : J → Option (P × J)
  wait_of_blocked : ∀ {w j}, next w j = .blocked → ∃ p j', wait j = some (p, j')
  next_of_wait : ∀ {w j p j'}, wait j = some (p, j') → next w j = .blocked ∨ next w j = .ran p j'

/-- What a queue did. -/
inductive Event (W P : Type*)
  | ran (w : W) (p : P)
  /-- It found a wait unmet at this time; a long wait or not. -/
  | stopped (t : ℕ) (long : Bool) (p : P)
  | skipped (t : ℕ) (p : P)

/-- **A history of a queue.**  From its jobs, packet after packet, to the jobs that are left. -/
inductive Drains (M : Walker W J P) (q : List J) : List (Event W P) → List J → Prop
  | start : Drains M q [] q
  | done {w j h rest} : Drains M q h (j :: rest) → M.next w j = .done → Drains M q h rest
  | quiet {w j j' h rest} : Drains M q h (j :: rest) → M.next w j = .quiet j' → Drains M q h (j' :: rest)
  | ran {w j p j' h rest} : Drains M q h (j :: rest) → M.next w j = .ran p j' →
      Drains M q (.ran w p :: h) (j' :: rest)
  | stopped {w j p j' h rest} (t : ℕ) (long : Bool) : Drains M q h (j :: rest) → M.next w j = .blocked →
      M.wait j = some (p, j') → Drains M q (.stopped t long p :: h) (j :: rest)
  | skipped {j p j' h rest} (t : ℕ) : Drains M q h (j :: rest) → M.wait j = some (p, j') →
      Drains M q (.skipped t p :: h) (j' :: rest)

variable {M : Walker W J P} {q rest : List J} {h : List (Event W P)}

theorem Drains.append (hd : Drains M q h rest) (more : List J) :
    Drains M (q ++ more) h (rest ++ more) := by
  induction hd with
  | start => exact .start
  | done _ hnext ih => exact .done ih hnext
  | quiet _ hnext ih => exact .quiet ih hnext
  | ran _ hnext ih => exact .ran ih hnext
  | stopped t long _ hnext hwait ih => exact .stopped t long ih hnext hwait
  | skipped t _ hwait ih => exact .skipped t ih hwait

/-- What holds of every packet that a job can run holds of every packet of the history. -/
theorem Drains.ran_of_mem {R : W → P → Prop} (hR : ∀ w j p j', M.next w j = .ran p j' → R w p)
    (hd : Drains M q h rest) {w : W} {p : P} (hmem : .ran w p ∈ h) : R w p := by
  induction hd with
  | start => cases hmem
  | done _ _ ih => exact ih hmem
  | quiet _ _ ih => exact ih hmem
  | ran _ hnext ih =>
      rcases List.mem_cons.1 hmem with heq | hmem
      · cases heq
        exact hR _ _ _ _ hnext
      · exact ih hmem
  | stopped _ _ _ _ _ ih =>
      rcases List.mem_cons.1 hmem with heq | hmem
      · cases heq
      · exact ih hmem
  | skipped _ _ _ ih =>
      rcases List.mem_cons.1 hmem with heq | hmem
      · cases heq
      · exact ih hmem

section Waits

variable [DecidableEq P]

/-- The time of the first of the stops at `p` that end a history, and whether all of them were long. -/
def waitedFor (p : P) : List (Event W P) → Option (ℕ × Bool)
  | .stopped t long p' :: h =>
      if p' = p then
        match waitedFor p h with
        | some (t₀, long₀) => some (t₀, long₀ && long)
        | none => some (t, long)
      else none
  | _ => none

/-- **Every time-out came after the limit of its wait**, counted from the first stop at that wait. -/
def FullWaits (short long : ℕ) : List (Event W P) → Prop
  | [] => True
  | .skipped t p :: h =>
      (∃ t₀ l, waitedFor p h = some (t₀, l) ∧ (if l then long else short) < t - t₀) ∧ FullWaits short long h
  | .ran _ _ :: h => FullWaits short long h
  | .stopped _ _ _ :: h => FullWaits short long h

@[simp] theorem waitedFor_ran (p p' : P) (w : W) : waitedFor p (.ran w p' :: h) = none := rfl

theorem waitedFor_first {p : P} {t : ℕ} {l : Bool} (hnone : waitedFor p h = none) :
    waitedFor p (.stopped t l p :: h) = some (t, l) := by
  rw [waitedFor, if_pos rfl, hnone]

/-- A later stop at a wait keeps the time it has waited since. -/
theorem waitedFor_again {p : P} {t t₀ : ℕ} {l l₀ : Bool} (hsome : waitedFor p h = some (t₀, l₀)) :
    waitedFor p (.stopped t l p :: h) = some (t₀, l₀ && l) := by
  rw [waitedFor, if_pos rfl, hsome]

/-- A stop at a wait at `t` leaves a time at or before `t`, if the earlier ones were. -/
theorem waitedFor_stopped (p : P) {t : ℕ} (l : Bool)
    (hle : ∀ t₀ l₀, waitedFor p h = some (t₀, l₀) → t₀ ≤ t) :
    ∃ t₀ l₀, waitedFor p (.stopped t l p :: h) = some (t₀, l₀) ∧ t₀ ≤ t ∧ (l₀ = true → l = true) := by
  cases hw : waitedFor p h with
  | none => exact ⟨t, l, waitedFor_first hw, Nat.le_refl t, fun hl => hl⟩
  | some since =>
      obtain ⟨t₀, l₀⟩ := since
      refine ⟨t₀, l₀ && l, waitedFor_again hw, hle t₀ l₀ hw, fun hl => ?_⟩
      exact (Bool.and_eq_true_iff.1 hl).2

end Waits

end PS4Recomp.Library.WaitHistory
