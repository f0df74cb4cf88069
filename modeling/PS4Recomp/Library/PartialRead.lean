import Mathlib.Data.List.Basic
import Mathlib.Data.List.TakeDrop

/-!
# Reads in pieces

A read call may fail, be interrupted, or move less than it was asked for.  A loop calls again until it
has everything or a call moves nothing.

* `Answer`, `transfer` — how one call is answered, and what it then moves; a list of answers runs out, and
  from there on each call moves everything;
* `Prompt` — the next call moves everything; `transfer_eq_slice_iff` — it does if and only if it is;
* `Device`, `Device.gather` — a call on a state, and the loop around it;
* **`Device.gather_eq`** — over a device that only interrupts, the loop collects the whole target.
-/

namespace PS4Recomp.Library.PartialRead

variable {σ α ε : Type*}

/-! ### One call -/

/-- The answer to one call: it fails, or moves at most `limit + 1` elements. -/
inductive Answer (ε : Type*) where
  | fails (e : ε)
  | moves (limit : Nat)
  deriving DecidableEq

def slice (content : List α) (offset count : Nat) : List α :=
  (content.drop offset).take count

/-- One call for `count` elements from `offset` on, and the answers left. -/
def transfer (content : List α) (offset count : Nat) :
    List (Answer ε) → Except ε (List α) × List (Answer ε)
  | [] => (.ok (slice content offset count), [])
  | .fails e :: rest => (.error e, rest)
  | .moves limit :: rest => (.ok ((slice content offset count).take (limit + 1)), rest)

/-- The next call moves `n` elements at once. -/
def Prompt (n : Nat) : List (Answer ε) → Prop
  | [] => True
  | .fails _ :: _ => False
  | .moves limit :: _ => n ≤ limit + 1

/-- Calls fail with `e` only. -/
def OnlyFails (e : ε) (answers : List (Answer ε)) : Prop :=
  ∀ a, Answer.fails a ∈ answers → a = e

theorem slice_length (content : List α) (offset count : Nat) :
    (slice content offset count).length = min count (content.length - offset) := by
  rw [slice, List.length_take, List.length_drop]

theorem slice_drop (content : List α) (offset count n : Nat) :
    (slice content offset count).drop n = slice content (offset + n) (count - n) := by
  rw [slice, slice, List.drop_take, List.drop_drop]

theorem slice_slice (content : List α) (a n offset count : Nat) :
    slice (slice content a n) offset count = slice content (a + offset) (min count (n - offset)) := by
  rw [slice, slice_drop, slice, List.take_take, slice]

theorem transfer_eq_slice_iff (content : List α) (offset count : Nat) (answers : List (Answer ε)) :
    (transfer content offset count answers).1 = .ok (slice content offset count) ↔
      Prompt (slice content offset count).length answers := by
  cases answers with
  | nil => exact iff_of_true rfl trivial
  | cons a rest =>
    cases a with
    | fails e => exact iff_of_false nofun id
    | moves limit =>
      show Except.ok _ = Except.ok _ ↔ _
      rw [Except.ok.injEq]
      exact List.take_eq_self_iff _

theorem transfer_prompt {content : List α} {offset count : Nat} {answers : List (Answer ε)}
    (h : Prompt (slice content offset count).length answers) :
    ∃ rest, transfer content offset count answers = (.ok (slice content offset count), rest) := by
  refine ⟨(transfer content offset count answers).2, ?_⟩
  rw [← (transfer_eq_slice_iff content offset count answers).2 h]

theorem transfer_error {content : List α} {offset count : Nat} {answers rest : List (Answer ε)} {e : ε}
    (h : transfer content offset count answers = (.error e, rest)) : answers = .fails e :: rest := by
  cases answers with
  | nil => cases h
  | cons a tail =>
    cases a with
    | fails e' =>
      cases h
      rfl
    | moves limit => cases h

theorem transfer_ok {content : List α} {offset count : Nat} {answers rest : List (Answer ε)} {bytes : List α}
    (h : transfer content offset count answers = (.ok bytes, rest)) :
    bytes <+: slice content offset count ∧ (bytes = [] → slice content offset count = []) ∧
      rest <:+ answers := by
  cases answers with
  | nil =>
    cases h
    exact ⟨List.prefix_rfl, id, List.suffix_rfl⟩
  | cons a tail =>
    cases a with
    | fails e => cases h
    | moves limit =>
      cases h
      refine ⟨List.take_prefix _ _, ?_, List.suffix_cons _ _⟩
      intro hnil
      rcases List.take_eq_nil_iff.1 hnil with hzero | hslice
      · exact absurd hzero (Nat.succ_ne_zero limit)
      · exact hslice

theorem OnlyFails.mono {e : ε} {answers rest : List (Answer ε)} (h : OnlyFails e answers)
    (hrest : rest <:+ answers) : OnlyFails e rest :=
  fun a ha => h a (hrest.subset ha)

/-! ### The loop -/

/-- A call that asks a state for `n` elements after the first `total`.  The calls that can be interrupted
run out, so that the loop ends. -/
structure Device (σ α ε : Type*) where
  call : σ → Nat → Nat → Except ε (List α) × σ
  interrupted : ε
  budget : σ → Nat
  budget_interrupted : ∀ s total n s', call s total n = (.error interrupted, s') → budget s' < budget s
  budget_ok : ∀ s total n bytes s', call s total n = (.ok bytes, s') → budget s' ≤ budget s

namespace Device

/-- Calls until `count` elements are there, a call moves nothing, or a call fails. -/
def gather [DecidableEq ε] (d : Device σ α ε) (count : Nat) (got : List α) (s : σ) :
    Except ε (List α) × σ :=
  if got.length < count then
    match h : d.call s got.length (count - got.length) with
    | (.error e, s') =>
      if he : e = d.interrupted then
        have := d.budget_interrupted s got.length (count - got.length) s' (he ▸ h)
        d.gather count got s'
      else if 0 < got.length then (.ok got, s') else (.error e, s')
    | (.ok [], s') => (.ok got, s')
    | (.ok (b :: bytes), s') =>
      have := d.budget_ok s got.length (count - got.length) (b :: bytes) s' h
      d.gather count (got ++ b :: bytes) s'
  else (.ok got, s)
termination_by (d.budget s, count - got.length)
decreasing_by
  · exact Prod.Lex.left _ _ this
  · rcases Nat.lt_or_eq_of_le this with hlt | heq
    · exact Prod.Lex.left _ _ hlt
    · rw [heq]
      refine Prod.Lex.right _ ?_
      rw [List.length_append, List.length_cons]
      omega

/-- From a state in `R total` a call is interrupted, or moves the next elements of the target. -/
structure Serves (d : Device σ α ε) (count : Nat) (target : List α) (R : Nat → σ → Prop) : Prop where
  interrupted : ∀ {s total e s'}, R total s → total < count → d.call s total (count - total) = (.error e, s') →
    e = d.interrupted ∧ R total s'
  ok : ∀ {s total bytes s'}, R total s → total < count → d.call s total (count - total) = (.ok bytes, s') →
    bytes <+: target.drop total ∧ (bytes = [] → target.length ≤ total) ∧ R (total + bytes.length) s'

/-- What a call moves goes on where the collected part ends. -/
theorem prefix_extend {target got bytes : List α} (hgot : got <+: target)
    (hbytes : bytes <+: target.drop got.length) : got ++ bytes <+: target := by
  obtain ⟨rest, rfl⟩ := hgot
  rw [List.drop_left] at hbytes
  exact (List.prefix_append_right_inj got).2 hbytes

theorem eq_of_prefix_of_length_le {target got : List α} (hgot : got <+: target)
    (h : target.length ≤ got.length) : got = target :=
  hgot.eq_of_length (Nat.le_antisymm hgot.length_le h)

/-- **The loop collects the whole target.** -/
theorem gather_eq [DecidableEq ε] {d : Device σ α ε} {count : Nat} {target : List α} {R : Nat → σ → Prop}
    (hd : d.Serves count target R) (hcount : target.length ≤ count) (got : List α) (s : σ)
    (hgot : got <+: target) (hs : R got.length s) :
    ∃ s', d.gather count got s = (.ok target, s') ∧ R target.length s' := by
  fun_induction d.gather count got s with
  | case1 got s hlt s' hcall _ ih => exact ih hgot (hd.interrupted hs hlt hcall).2
  | case2 got s hlt e s' hcall he hpos => exact absurd (hd.interrupted hs hlt hcall).1 he
  | case3 got s hlt e s' hcall he hpos => exact absurd (hd.interrupted hs hlt hcall).1 he
  | case4 got s hlt s' hcall =>
    obtain ⟨-, hend, hs'⟩ := hd.ok hs hlt hcall
    have heq : got = target := eq_of_prefix_of_length_le hgot (hend rfl)
    exact ⟨s', by rw [heq], by rw [← heq]; exact hs'⟩
  | case5 got s hlt b bytes s' hcall _ ih =>
    obtain ⟨hpre, -, hs'⟩ := hd.ok hs hlt hcall
    refine ih (prefix_extend hgot hpre) ?_
    rw [List.length_append]
    exact hs'
  | case6 got s hlt =>
    have heq : got = target := eq_of_prefix_of_length_le hgot (by omega)
    exact ⟨s, by rw [heq], by rw [← heq]; exact hs⟩

end Device

end PS4Recomp.Library.PartialRead
