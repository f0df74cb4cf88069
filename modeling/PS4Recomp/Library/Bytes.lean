import Mathlib

/-!
# Byte strings and little-endian words

* `leNat`, `toLE` — numbers from bytes and back, `leNat_toLE`, `toLE_leNat`;
* `bytesAt`, `word64` — bytes and words read through a function from offsets to bytes;
* `Bytes` — a byte string, `Bytes.get` — its bytes, 0 outside;
* `Bytes.put` — bytes copied into a string, `get_put`, `put_eq`; `Bytes.putWord`, `word_putWord` — a word
  written and read back, `word_putWord_of_disjoint` — and one that is apart from it.
-/

namespace PS4Recomp.Library

/-! ### little-endian numbers -/

/-- The number with the given bytes, least significant first. -/
def leNat : List (BitVec 8) → ℕ
  | [] => 0
  | b :: bs => b.toNat + 256 * leNat bs

/-- The first `w` bytes of a number. -/
def toLE : ℕ → ℕ → List (BitVec 8)
  | 0, _ => []
  | w + 1, n => BitVec.ofNat 8 n :: toLE w (n / 256)

theorem length_toLE (w n : ℕ) : (toLE w n).length = w := by
  induction w generalizing n with
  | zero => rfl
  | succ w ih =>
      show (toLE w (n / 256)).length + 1 = w + 1
      rw [ih]

theorem leNat_toLE (w n : ℕ) : leNat (toLE w n) = n % 256 ^ w := by
  induction w generalizing n with
  | zero =>
      rw [pow_zero, Nat.mod_one]
      rfl
  | succ w ih =>
      show (BitVec.ofNat 8 n).toNat + 256 * leNat (toLE w (n / 256)) = n % 256 ^ (w + 1)
      rw [ih, pow_succ', Nat.mod_mul, BitVec.toNat_ofNat]

theorem toLE_leNat (bs : List (BitVec 8)) : toLE bs.length (leNat bs) = bs := by
  induction bs with
  | nil => rfl
  | cons b bs ih =>
      have hlt := b.isLt
      have hlow : BitVec.ofNat 8 (leNat (b :: bs)) = b := by
        apply BitVec.eq_of_toNat_eq
        rw [BitVec.toNat_ofNat, leNat]
        omega
      have hhigh : leNat (b :: bs) / 256 = leNat bs := by
        rw [leNat]
        omega
      rw [List.length_cons, toLE, hlow, hhigh, ih]

theorem leNat_lt (bs : List (BitVec 8)) : leNat bs < 256 ^ bs.length := by
  induction bs with
  | nil => exact Nat.one_pos
  | cons b bs ih =>
      have hlt := b.isLt
      rw [leNat, List.length_cons, pow_succ]
      omega

/-- The `n` bytes from an offset on. -/
def bytesAt (get : ℕ → BitVec 8) (off n : ℕ) : List (BitVec 8) :=
  (List.range n).map fun k => get (off + k)

/-- The 64-bit word at an offset. -/
def word64 (get : ℕ → BitVec 8) (off : ℕ) : BitVec 64 := BitVec.ofNat 64 (leNat (bytesAt get off 8))

theorem word64_congr {f g : ℕ → BitVec 8} {off off' : ℕ}
    (h : ∀ k < 8, f (off + k) = g (off' + k)) : word64 f off = word64 g off' := by
  unfold word64 bytesAt
  congr 2
  exact List.map_congr_left fun k hk => h k (List.mem_range.1 hk)

theorem word64_eq {f : ℕ → BitVec 8} {off : ℕ} {v : BitVec 64}
    (h : ∀ k < 8, f (off + k) = (toLE 8 v.toNat).getD k 0) : word64 f off = v := by
  have hbytes : bytesAt f off 8 = toLE 8 v.toNat := by
    apply List.ext_getElem
    · rw [length_toLE, bytesAt, List.length_map, List.length_range]
    · intro k hk hk'
      rw [length_toLE] at hk'
      rw [← List.getD_eq_getElem (toLE 8 v.toNat) 0, ← h k hk']
      simp only [bytesAt, List.getElem_map, List.getElem_range]
  rw [word64, hbytes, leNat_toLE]
  apply BitVec.eq_of_toNat_eq
  rw [BitVec.toNat_ofNat]
  have hlt := v.isLt
  omega

theorem toLE_word64 (f : ℕ → BitVec 8) (off : ℕ) {k : ℕ} (hk : k < 8) :
    (toLE 8 (word64 f off).toNat).getD k 0 = f (off + k) := by
  have hlen : (bytesAt f off 8).length = 8 := by rw [bytesAt, List.length_map, List.length_range]
  have hlt := leNat_lt (bytesAt f off 8)
  have hround := toLE_leNat (bytesAt f off 8)
  rw [hlen] at hlt hround
  have hsmall : leNat (bytesAt f off 8) < 2 ^ 64 := by omega
  rw [word64, BitVec.toNat_ofNat, Nat.mod_eq_of_lt hsmall, hround, List.getD_eq_getElem _ _ (by omega)]
  simp only [bytesAt, List.getElem_map, List.getElem_range]

/-! ### byte strings -/

/-- A byte string. -/
abbrev Bytes := List (BitVec 8)

namespace Bytes

/-- The byte at an index, 0 outside. -/
def get (img : Bytes) (i : ℕ) : BitVec 8 := img.getD i 0

/-- Two strings of one length with the same bytes are equal. -/
theorem ext_get {a b : Bytes} (hlen : a.length = b.length) (h : ∀ i, a.get i = b.get i) : a = b := by
  apply List.ext_getElem hlen
  intro i hi hi'
  have hget := h i
  rwa [get, get, List.getD_eq_getElem _ _ hi, List.getD_eq_getElem _ _ hi'] at hget

theorem get_of_le {img : Bytes} {i : ℕ} (h : img.length ≤ i) : img.get i = 0 :=
  List.getD_eq_default _ _ h

theorem get_drop_take (img : Bytes) {lo hi k : ℕ} (h : lo + k < hi) :
    Bytes.get ((img.take hi).drop lo) k = img.get (lo + k) := by
  rw [get, get, List.getD_eq_getElem?_getD, List.getD_eq_getElem?_getD, List.getElem?_drop,
    List.getElem?_take_of_lt h]

/-- `bs` copied into a string at `off`, as far as it reaches. -/
def put (img : Bytes) (off : ℕ) (bs : Bytes) : Bytes :=
  img.mapIdx fun i b => if off ≤ i ∧ i < off + bs.length then bs.getD (i - off) 0 else b

@[simp] theorem length_put (img : Bytes) (off : ℕ) (bs : Bytes) :
    (img.put off bs).length = img.length := List.length_mapIdx

theorem get_put (img : Bytes) (off : ℕ) (bs : Bytes) (i : ℕ) :
    (img.put off bs).get i =
      if off ≤ i ∧ i < off + bs.length ∧ i < img.length then bs.get (i - off) else img.get i := by
  by_cases hi : i < img.length
  · rw [get, List.getD_eq_getElem _ _ (by rwa [length_put])]
    simp only [put, List.getElem_mapIdx, hi, and_true, get]
    rw [List.getD_eq_getElem _ _ hi]
  · rw [get_of_le (by rw [length_put]; omega), get_of_le (Nat.le_of_not_lt hi),
      if_neg fun h => hi h.2.2]

/-- A copy that ends inside the string, as the pieces of the result. -/
theorem put_eq (img : Bytes) {off : ℕ} {bs : Bytes} (h : off + bs.length ≤ img.length) :
    img.put off bs = img.take off ++ bs ++ img.drop (off + bs.length) := by
  have hoff : (img.take off).length = off := by rw [List.length_take, Nat.min_eq_left (by omega)]
  apply List.ext_getElem?
  intro i
  rw [put, List.getElem?_mapIdx, List.append_assoc, List.getElem?_append, List.getElem?_append, hoff,
    List.getElem?_drop]
  by_cases hlow : i < off
  · rw [if_pos hlow, List.getElem?_take_of_lt hlow, List.getElem?_eq_getElem (by omega), Option.map_some,
      if_neg (by omega)]
  · rw [if_neg hlow]
    by_cases hhigh : i < off + bs.length
    · rw [if_pos (by omega), List.getElem?_eq_getElem (by omega), Option.map_some,
        if_pos ⟨Nat.le_of_not_lt hlow, hhigh⟩, List.getD_eq_getElem _ _ (by omega),
        List.getElem?_eq_getElem (by omega)]
    · rw [if_neg (by omega), show off + bs.length + (i - off - bs.length) = i by omega]
      cases hget : img[i]? with
      | none => rfl
      | some b => rw [Option.map_some, if_neg fun hc => hhigh hc.2]

/-- The 64-bit word at an index. -/
def word (img : Bytes) (off : ℕ) : BitVec 64 := word64 img.get off

/-- A word written at an index. -/
def putWord (img : Bytes) (off : ℕ) (v : BitVec 64) : Bytes := img.put off (toLE 8 v.toNat)

@[simp] theorem length_putWord (img : Bytes) (off : ℕ) (v : BitVec 64) :
    (img.putWord off v).length = img.length := length_put ..

theorem get_putWord_of_disjoint (img : Bytes) {off i : ℕ} (v : BitVec 64)
    (h : i < off ∨ off + 8 ≤ i) : (img.putWord off v).get i = img.get i := by
  rw [putWord, get_put, length_toLE, if_neg (by omega)]

theorem word_putWord (img : Bytes) {off : ℕ} (v : BitVec 64) (h : off + 8 ≤ img.length) :
    (img.putWord off v).word off = v := by
  refine word64_eq fun k hk => ?_
  rw [putWord, get_put, length_toLE, if_pos (by omega), Nat.add_sub_cancel_left, get]

theorem get_putWord_word (img bs : Bytes) {off off' k : ℕ} (hk : k < 8) (h : off + 8 ≤ img.length) :
    (img.putWord off (bs.word off')).get (off + k) = bs.get (off' + k) := by
  rw [putWord, get_put, length_toLE, if_pos (by omega), Nat.add_sub_cancel_left, get]
  exact toLE_word64 bs.get off' hk

theorem word_putWord_of_disjoint (img : Bytes) {off off' : ℕ} (v : BitVec 64)
    (h : off' + 8 ≤ off ∨ off + 8 ≤ off') : (img.putWord off v).word off' = img.word off' :=
  word64_congr fun k hk => get_putWord_of_disjoint img v (by omega)

end Bytes

end PS4Recomp.Library
