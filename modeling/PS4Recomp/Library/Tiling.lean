import Mathlib

/-!
# Lists of adjacent pieces

A list of pieces, each with a start and a size, laid one after the other.

* `Tiles lo hi l` — the pieces of `l` fill `[lo, hi)` in order, `tiles_append` — both halves and the
  point where they meet;
* `Tiles.bounds`, `Tiles.covers`, `Tiles.pairwise_start` — every piece lies in the range, every
  point in a piece, and pieces that are not empty start in strict order;
* `firstSplit` — a list around its first element with a property;
* `isChain_middle` — a chain with a stretch replaced.
-/

namespace PS4Recomp.Library

variable {α : Type*}

section Tiles

variable (start size : α → ℕ)

/-- The pieces fill `[lo, hi)` in order. -/
def Tiles : ℕ → ℕ → List α → Prop
  | lo, hi, [] => lo = hi
  | lo, hi, b :: bs => start b = lo ∧ Tiles (lo + size b) hi bs

variable {start size}

/-- A concatenation fills a range when its halves fill the two parts. -/
theorem tiles_append {xs ys : List α} : ∀ {lo hi : ℕ},
    Tiles start size lo hi (xs ++ ys) ↔
      ∃ mid, Tiles start size lo mid xs ∧ Tiles start size mid hi ys := by
  induction xs with
  | nil =>
      intro lo hi
      show Tiles start size lo hi ys ↔ ∃ mid, lo = mid ∧ Tiles start size mid hi ys
      exact ⟨fun h => ⟨lo, rfl, h⟩, fun ⟨mid, hmid, h⟩ => hmid ▸ h⟩
  | cons b xs ih =>
      intro lo hi
      show start b = lo ∧ Tiles start size (lo + size b) hi (xs ++ ys) ↔
        ∃ mid, (start b = lo ∧ Tiles start size (lo + size b) mid xs) ∧
          Tiles start size mid hi ys
      rw [ih]
      constructor
      · rintro ⟨hb, mid, hx, hy⟩
        exact ⟨mid, ⟨hb, hx⟩, hy⟩
      · rintro ⟨mid, ⟨hb, hx⟩, hy⟩
        exact ⟨hb, mid, hx, hy⟩

theorem Tiles.le {l : List α} : ∀ {lo hi : ℕ}, Tiles start size lo hi l → lo ≤ hi := by
  induction l with
  | nil =>
      intro lo hi h
      exact Nat.le_of_eq (show lo = hi from h)
  | cons b l ih =>
      intro lo hi h
      have hrest := ih h.2
      omega

theorem Tiles.bounds {l : List α} {b : α} (hb : b ∈ l) : ∀ {lo hi : ℕ},
    Tiles start size lo hi l → lo ≤ start b ∧ start b + size b ≤ hi := by
  intro lo hi h
  obtain ⟨pre, post, rfl⟩ := List.append_of_mem hb
  obtain ⟨mid, hpre, hstart, hpost⟩ := tiles_append.1 h
  have hlo := hpre.le
  have hhi := hpost.le
  omega

theorem Tiles.pairwise {l : List α} : ∀ {lo hi : ℕ}, Tiles start size lo hi l →
    l.Pairwise fun a b => start a + size a ≤ start b := by
  induction l with
  | nil => exact fun _ => .nil
  | cons a l ih =>
      intro lo hi h
      refine List.pairwise_cons.2 ⟨fun b hb => ?_, ih h.2⟩
      have ha : start a = lo := h.1
      have hbound := Tiles.bounds hb h.2
      omega

theorem Tiles.covers {l : List α} : ∀ {lo hi : ℕ}, Tiles start size lo hi l →
    ∀ x, lo ≤ x → x < hi → ∃ b ∈ l, start b ≤ x ∧ x < start b + size b := by
  induction l with
  | nil =>
      intro lo hi h x hlo hhi
      have heq : lo = hi := h
      omega
  | cons b l ih =>
      intro lo hi h x hlo hhi
      have hb : start b = lo := h.1
      by_cases hx : x < start b + size b
      · exact ⟨b, List.mem_cons_self, by omega, hx⟩
      · obtain ⟨c, hc, hcx⟩ := ih h.2 x (by omega) hhi
        exact ⟨c, List.mem_cons_of_mem b hc, hcx⟩

/-- Where one piece follows another, it starts where the other ends. -/
theorem Tiles.isChain {l : List α} : ∀ {lo hi : ℕ}, Tiles start size lo hi l →
    l.IsChain fun a b => start b = start a + size a := by
  induction l with
  | nil => exact fun _ => .nil
  | cons a l ih =>
      intro lo hi h
      cases l with
      | nil => exact .singleton a
      | cons b l =>
          refine List.isChain_cons_cons.2 ⟨?_, ih h.2⟩
          have ha : start a = lo := h.1
          have hb : start b = lo + size a := h.2.1
          omega

/-- Pieces of which only the last may be empty start in strict order. -/
theorem Tiles.pairwise_start {l : List α} {lo hi : ℕ} (h : Tiles start size lo hi l)
    (hpos : l.IsChain fun a _ => 0 < size a) : l.Pairwise fun a b => start a < start b := by
  have htrans : Trans (fun a b : α => start a < start b) (fun a b => start a < start b)
      (fun a b => start a < start b) := ⟨fun hab hbc => hab.trans hbc⟩
  apply List.IsChain.pairwise
  have hnext := h.isChain
  clear h
  induction l with
  | nil => exact .nil
  | cons a l ih =>
      cases l with
      | nil => exact .singleton a
      | cons b l =>
          rw [List.isChain_cons_cons] at hnext hpos ⊢
          refine ⟨?_, ih hpos.2 hnext.2⟩
          have hb := hnext.1
          have ha := hpos.1
          omega

end Tiles

/-! ### the first element with a property -/

/-- A list around its first element with a property. -/
def firstSplit (p : α → Bool) : List α → Option (List α × α × List α)
  | [] => none
  | b :: bs =>
      if p b then some ([], b, bs)
      else (firstSplit p bs).map fun r => (b :: r.1, r.2.1, r.2.2)

theorem firstSplit_eq_some {p : α → Bool} {l pre post : List α} {b : α}
    (h : firstSplit p l = some (pre, b, post)) : l = pre ++ b :: post ∧ p b = true := by
  induction l generalizing pre with
  | nil => cases h
  | cons a l ih =>
      unfold firstSplit at h
      split at h
      · rename_i hp
        cases h
        exact ⟨rfl, hp⟩
      · cases hl : firstSplit p l with
        | none => rw [hl] at h; cases h
        | some r =>
            rw [hl] at h
            cases h
            obtain ⟨heq, hb⟩ := ih hl
            exact ⟨by rw [List.cons_append, ← heq], hb⟩

theorem firstSplit_eq_none {p : α → Bool} {l : List α} (h : firstSplit p l = none) :
    ∀ b ∈ l, p b = false := by
  induction l with
  | nil => exact fun b hb => (nomatch hb)
  | cons a l ih =>
      rw [firstSplit] at h
      split at h
      · cases h
      · rename_i hp
        intro b hb
        rcases List.mem_cons.1 hb with rfl | hb
        · simpa using hp
        · exact ih (Option.map_eq_none_iff.1 h) b hb

/-- A chain with a stretch replaced by one that starts and ends as it does. -/
theorem isChain_middle {R : α → α → Prop} {pre mid mid' post : List α}
    (h : (pre ++ mid ++ post).IsChain R) (hmid : mid'.IsChain R)
    (hhead : ∀ y ∈ mid'.head?, ∃ x ∈ mid.head?, ∀ z, R z x → R z y)
    (hlast : ∀ y ∈ mid'.getLast?, ∃ x ∈ mid.getLast?, ∀ z, R x z → R y z)
    (hne : mid' ≠ []) : (pre ++ mid' ++ post).IsChain R := by
  rw [List.append_assoc, List.isChain_append] at h ⊢
  obtain ⟨hpre, hrest, hseam⟩ := h
  rw [List.isChain_append] at hrest ⊢
  obtain ⟨-, hpost, hseam'⟩ := hrest
  obtain ⟨y, ys, rfl⟩ := List.exists_cons_of_ne_nil hne
  refine ⟨hpre, ⟨hmid, hpost, fun a ha c hc => ?_⟩, fun a ha c hc => ?_⟩
  · obtain ⟨x, hx, hR⟩ := hlast a ha
    exact hR c (hseam' x hx c hc)
  · obtain ⟨x, hx, hR⟩ := hhead c (by simpa using hc)
    refine hR a (hseam a ha x ?_)
    rw [List.head?_append]
    exact Option.mem_def.2 (by rw [Option.mem_def.1 hx]; rfl)

end PS4Recomp.Library
