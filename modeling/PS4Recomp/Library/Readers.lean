import PS4Recomp.Library.Bytes

/-!
# Readers of byte strings

A reader takes a value at an offset, and says where it ends. It may refuse (`some none`), or go out of
bounds (`none`).

* `slice`, `readLE` — slices and little-endian words, `slice_total`, `readLE_total`;
* `SameOn` — two strings with the same bytes in a range, `sameOn_set` — a byte set outside it;
* `Reader`, `Reader.Exact` — a reader that never goes out of bounds, whose value depends on the bytes it
  takes and on no others, and on the last of them;
* `fixedReader`, `fixedReader_exact` — words of a fixed size;
* `readLEB`, `lebReader_exact` — numbers of a varying size, seven bits a byte.
-/

namespace PS4Recomp.Library

/-- `data[lo:hi]`. -/
def slice (data : Bytes) (lo hi : ℕ) : Option Bytes :=
  if lo ≤ hi ∧ hi ≤ data.length then some ((data.take hi).drop lo) else none

/-- The little-endian word of `n` bytes at an offset. -/
def readLE (n : ℕ) (data : Bytes) (off : ℕ) : Option (BitVec (8 * n)) :=
  if off + n ≤ data.length then some (BitVec.ofNat (8 * n) (leNat (bytesAt data.get off n))) else none

theorem slice_total (data : Bytes) {lo hi : ℕ} (hlo : lo ≤ hi) (hhi : hi ≤ data.length) :
    ∃ bs, slice data lo hi = some bs ∧ bs.length = hi - lo := by
  refine ⟨_, if_pos ⟨hlo, hhi⟩, ?_⟩
  rw [List.length_drop, List.length_take, Nat.min_eq_left hhi]

theorem slice_length {data : Bytes} {lo hi : ℕ} {bs : Bytes} (h : slice data lo hi = some bs) :
    bs.length = hi - lo ∧ hi ≤ data.length := by
  rw [slice] at h
  by_cases hin : lo ≤ hi ∧ hi ≤ data.length
  · rw [if_pos hin] at h
    cases h
    rw [List.length_drop, List.length_take, Nat.min_eq_left hin.2]
    exact ⟨rfl, hin.2⟩
  · rw [if_neg hin] at h
    cases h

theorem slice_eq_none {data : Bytes} {lo hi : ℕ} : slice data lo hi = none ↔ hi < lo ∨ data.length < hi := by
  rw [slice]
  by_cases hin : lo ≤ hi ∧ hi ≤ data.length
  · rw [if_pos hin]
    exact iff_of_false (fun h => by cases h) (by omega)
  · rw [if_neg hin]
    exact iff_of_true rfl (by omega)

theorem readLE_total (n : ℕ) (data : Bytes) {off : ℕ} (h : off + n ≤ data.length) :
    ∃ v, readLE n data off = some v :=
  ⟨_, if_pos h⟩

/-! ### readers -/

/-- Two strings of one length with the same bytes in `[lo, hi)`. -/
structure SameOn (lo hi : ℕ) (img img' : Bytes) : Prop where
  length : img'.length = img.length
  get : ∀ i, lo ≤ i → i < hi → img'.get i = img.get i

theorem SameOn.mono {lo hi lo' hi' : ℕ} {img img' : Bytes} (h : SameOn lo hi img img') (hlo : lo ≤ lo')
    (hhi : hi' ≤ hi) : SameOn lo' hi' img img' :=
  ⟨h.length, fun i hi hi' => h.get i (Nat.le_trans hlo hi) (Nat.lt_of_lt_of_le hi' hhi)⟩

theorem sameOn_set {lo hi j : ℕ} (img : Bytes) (c : BitVec 8) (h : j < lo ∨ hi ≤ j) :
    SameOn lo hi img (img.set j c) := by
  refine ⟨List.length_set, fun i hlo hhi => ?_⟩
  rw [Bytes.get, Bytes.get, List.getD_eq_getElem?_getD, List.getD_eq_getElem?_getD,
    List.getElem?_set_ne (by omega)]

theorem get_set_self {j : ℕ} {img : Bytes} (c : BitVec 8) (h : j < img.length) :
    Bytes.get (img.set j c) j = c := by
  rw [Bytes.get, List.getD_eq_getElem?_getD, List.getElem?_set_self h, Option.getD_some]

variable {α : Type*}

/-- A value and where it ends. -/
abbrev Reader (α : Type*) := Bytes → ℕ → Option (Option (α × ℕ))

/-- A reader that stays in bounds and depends on exactly the bytes it takes. -/
structure Reader.Exact (r : Reader α) : Prop where
  total : ∀ img off, ∃ x, r img off = some x
  bounds : ∀ {img off v next}, r img off = some (some (v, next)) → off < next ∧ next ≤ img.length
  same : ∀ {img img' off v next}, r img off = some (some (v, next)) → SameOn off next img img' →
    r img' off = some (some (v, next))
  last : ∀ {img img' off v next}, r img off = some (some (v, next)) → SameOn off (next - 1) img img' →
    img'.get (next - 1) = img.get (next - 1) ^^^ 1 →
      ∃ v', r img' off = some (some (v', next)) ∧ v' ≠ v

theorem Reader.exact_none : Reader.Exact (fun _ _ => some none : Reader α) where
  total _ _ := ⟨_, rfl⟩
  bounds h := by cases h
  same h := by cases h
  last h := by cases h

/-! ### words -/

/-- A word of `n` bytes, where there are as many, and what is made of it. -/
def fixedReader (n : ℕ) (f : BitVec (8 * n) → α) : Reader α := fun img off =>
  if img.length < off + n then some none
  else (readLE n img off).map fun v => some (f v, off + n)

theorem fixedReader_eq {n off : ℕ} {f : BitVec (8 * n) → α} {img : Bytes} (h : off + n ≤ img.length) :
    fixedReader n f img off =
      some (some (f (BitVec.ofNat (8 * n) (leNat (bytesAt img.get off n))), off + n)) := by
  rw [fixedReader, if_neg (Nat.not_lt.2 h), readLE, if_pos h, Option.map_some]

theorem fixedReader_refuses {n off : ℕ} {f : BitVec (8 * n) → α} {img : Bytes}
    (h : img.length < off + n) : fixedReader n f img off = some none := if_pos h

theorem length_bytesAt (get : ℕ → BitVec 8) (off n : ℕ) : (bytesAt get off n).length = n := by
  rw [bytesAt, List.length_map, List.length_range]

theorem bytesAt_congr {f g : ℕ → BitVec 8} {off n : ℕ} (h : ∀ i, off ≤ i → i < off + n → f i = g i) :
    bytesAt f off n = bytesAt g off n := by
  refine List.map_congr_left fun k hk => ?_
  rw [List.mem_range] at hk
  exact h _ (Nat.le_add_right _ _) (by omega)

theorem word_ne {f g : ℕ → BitVec 8} {off n i : ℕ} (hlo : off ≤ i) (hhi : i < off + n) (h : f i ≠ g i) :
    BitVec.ofNat (8 * n) (leNat (bytesAt f off n)) ≠ BitVec.ofNat (8 * n) (leNat (bytesAt g off n)) := by
  intro heq
  have hbound : ∀ get : ℕ → BitVec 8, leNat (bytesAt get off n) < 2 ^ (8 * n) := by
    intro get
    have hlt := leNat_lt (bytesAt get off n)
    rwa [length_bytesAt, show (256 : ℕ) = 2 ^ 8 by norm_num, ← pow_mul] at hlt
  have hnat := congrArg BitVec.toNat heq
  rw [BitVec.toNat_ofNat, BitVec.toNat_ofNat, Nat.mod_eq_of_lt (hbound f), Nat.mod_eq_of_lt (hbound g)] at hnat
  have hbytes : bytesAt f off n = bytesAt g off n := by
    rw [← toLE_leNat (bytesAt f off n), ← toLE_leNat (bytesAt g off n), hnat, length_bytesAt, length_bytesAt]
  have hget := congrArg (·[i - off]?) hbytes
  simp only [bytesAt, List.getElem?_map, List.getElem?_range (show i - off < n by omega), Option.map_some,
    Nat.add_sub_cancel' hlo] at hget
  exact h (Option.some.inj hget)

theorem xor_one_ne (c : BitVec 8) : c ^^^ 1 ≠ c := by
  revert c
  decide

theorem fixedReader_exact {n : ℕ} (hn : 0 < n) {f : BitVec (8 * n) → α} (hf : Function.Injective f) :
    Reader.Exact (fixedReader n f) where
  total img off := by
    rcases Nat.lt_or_ge img.length (off + n) with hlt | hle
    · exact ⟨_, fixedReader_refuses hlt⟩
    · exact ⟨_, fixedReader_eq hle⟩
  bounds {img off v next} h := by
    rcases Nat.lt_or_ge img.length (off + n) with hlt | hle
    · rw [fixedReader_refuses hlt] at h
      cases h
    · rw [fixedReader_eq hle] at h
      cases h
      omega
  same {img img' off v next} h hsame := by
    rcases Nat.lt_or_ge img.length (off + n) with hlt | hle
    · rw [fixedReader_refuses hlt] at h
      cases h
    · rw [fixedReader_eq hle] at h
      cases h
      rw [fixedReader_eq (by rw [hsame.length]; exact hle), bytesAt_congr hsame.get]
  last {img img' off v next} h hsame hlast := by
    rcases Nat.lt_or_ge img.length (off + n) with hlt | hle
    · rw [fixedReader_refuses hlt] at h
      cases h
    · rw [fixedReader_eq hle] at h
      cases h
      rw [fixedReader_eq (by rw [hsame.length]; exact hle)]
      refine ⟨_, rfl, fun heq => ?_⟩
      refine word_ne (i := off + n - 1) (by omega) (by omega) ?_ (hf heq)
      rw [hlast]
      exact xor_one_ne _

/-! ### numbers of a varying size -/

/-- A number of at most `k` more bytes, each with seven bits of it from bit `s` on; the highest bit of a
byte says that there is another one, and the next one is the sign. -/
def readLEB (signed : Bool) (img : Bytes) (limit : ℕ) :
    ℕ → ℕ → BitVec 64 → ℕ → Option (Option (BitVec 64 × ℕ))
  | 0, _, _, _ => some none
  | k + 1, i, n, s =>
      if limit ≤ i ∨ img.length ≤ i then some none
      else img[i]?.bind fun c =>
        let n := n ||| ((c &&& 0x7f).setWidth 64 <<< s)
        if c &&& 0x80 = 0 then
          some (some (if signed ∧ s + 7 < 64 ∧ c &&& 0x40 ≠ 0 then n ||| (~~~(0 : BitVec 64) <<< (s + 7)) else n, i + 1))
        else readLEB signed img limit k (i + 1) n (s + 7)

variable {signed : Bool} {img img' : Bytes} {limit : ℕ}

/-- The value of the last byte with what is before it. -/
def lebValue (signed : Bool) (c : BitVec 8) (n : BitVec 64) (s : ℕ) : BitVec 64 :=
  let n := n ||| ((c &&& 0x7f).setWidth 64 <<< s)
  if signed ∧ s + 7 < 64 ∧ c &&& 0x40 ≠ 0 then n ||| (~~~(0 : BitVec 64) <<< (s + 7)) else n

theorem readLEB_succ {k i s : ℕ} {n : BitVec 64} (h : i < limit) (hlen : i < img.length) :
    readLEB signed img limit (k + 1) i n s =
      if img.get i &&& 0x80 = 0 then some (some (lebValue signed (img.get i) n s, i + 1))
      else readLEB signed img limit k (i + 1) (n ||| ((img.get i &&& 0x7f).setWidth 64 <<< s)) (s + 7) := by
  have hget : img[i]? = some (img.get i) := by
    rw [List.getElem?_eq_getElem hlen, Bytes.get, List.getD_eq_getElem _ _ hlen]
  rw [readLEB, if_neg (by omega), hget]
  rfl

theorem readLEB_refuses {k i s : ℕ} {n : BitVec 64} (h : limit ≤ i ∨ img.length ≤ i) :
    readLEB signed img limit (k + 1) i n s = some none := if_pos h

theorem readLEB_total (signed : Bool) (img : Bytes) (limit k i : ℕ) (n : BitVec 64) (s : ℕ) : ∃ x, readLEB signed img limit k i n s = some x ∧
    ∀ v next, x = some (v, next) → i < next ∧ next ≤ img.length ∧ next ≤ limit := by
  induction k generalizing i n s with
  | zero => exact ⟨none, rfl, fun v next h => (by cases h)⟩
  | succ k ih =>
      by_cases hin : limit ≤ i ∨ img.length ≤ i
      · exact ⟨none, readLEB_refuses hin, fun v next h => (by cases h)⟩
      · rw [not_or, Nat.not_le, Nat.not_le] at hin
        rw [readLEB_succ hin.1 hin.2]
        split
        · refine ⟨_, rfl, fun v next h => ?_⟩
          cases h
          omega
        · obtain ⟨x, hx, hbounds⟩ := ih (i + 1) (n ||| ((img.get i &&& 0x7f).setWidth 64 <<< s)) (s + 7)
          refine ⟨x, hx, fun v next h => ?_⟩
          have hnext := hbounds v next h
          omega

theorem readLEB_bounds {k i s next : ℕ} {n v : BitVec 64}
    (h : readLEB signed img limit k i n s = some (some (v, next))) :
    i < next ∧ next ≤ img.length ∧ next ≤ limit := by
  obtain ⟨x, hx, hbounds⟩ := readLEB_total signed img limit k i n s
  rw [hx] at h
  exact hbounds v next (Option.some.inj h)

theorem readLEB_same {k i s next : ℕ} {n v : BitVec 64} {limit' : ℕ}
    (h : readLEB signed img limit k i n s = some (some (v, next))) (hsame : SameOn i next img img')
    (hlimit : next ≤ limit') : readLEB signed img' limit' k i n s = some (some (v, next)) := by
  induction k generalizing i n s with
  | zero => cases h
  | succ k ih =>
      obtain ⟨hi, hlen, hlim⟩ := readLEB_bounds h
      rw [readLEB_succ (by omega) (by omega)] at h
      rw [readLEB_succ (by omega) (by rw [hsame.length]; omega), hsame.get i (Nat.le_refl _) hi]
      split at h
      · rename_i hlast
        rw [if_pos hlast]
        exact h
      · rename_i hmore
        rw [if_neg hmore]
        exact ih h (hsame.mono (Nat.le_succ i) (Nat.le_refl _))

/-- The lowest bit of the last byte is one of the number's. -/
theorem lebValue_bit {c : BitVec 8} {n : BitVec 64} {s : ℕ} (hs : s < 64) (hn : n.getLsbD s = false) :
    (lebValue signed c n s).getLsbD s = c.getLsbD 0 := by
  have hlow : (n ||| ((c &&& 0x7f).setWidth 64 <<< s)).getLsbD s = c.getLsbD 0 := by
    rw [BitVec.getLsbD_or, hn, Bool.false_or, BitVec.getLsbD_shiftLeft, Nat.sub_self,
      BitVec.getLsbD_setWidth, BitVec.getLsbD_and]
    simp [hs]
  rw [lebValue]
  split
  · rw [BitVec.getLsbD_or, hlow, BitVec.getLsbD_shiftLeft]
    simp
  · exact hlow

theorem xor_one_and_high (c : BitVec 8) : (c ^^^ 1) &&& 0x80 = c &&& 0x80 := by
  revert c
  decide

theorem xor_one_bit (c : BitVec 8) : (c ^^^ 1).getLsbD 0 ≠ c.getLsbD 0 := by
  revert c
  decide

theorem low_bits {b : ℕ} (h : 7 ≤ b) : (0x7f : BitVec 8).getLsbD b = false := by
  rcases Nat.lt_or_ge b 8 with hlt | hge
  · have hb : b = 7 := by omega
    rw [hb]
    rfl
  · exact BitVec.getLsbD_of_ge _ _ hge

/-- A number with another lowest bit in its last byte is another one. -/
theorem readLEB_last {k i s next : ℕ} {n v : BitVec 64} {limit' : ℕ} (hs : s + 7 * k ≤ 70)
    (hn : ∀ b, s ≤ b → n.getLsbD b = false)
    (h : readLEB signed img limit k i n s = some (some (v, next))) (hsame : SameOn i (next - 1) img img')
    (hlast : img'.get (next - 1) = img.get (next - 1) ^^^ 1) (hlimit : next ≤ limit') :
    ∃ v', readLEB signed img' limit' k i n s = some (some (v', next)) ∧ v' ≠ v := by
  induction k generalizing i n s with
  | zero => cases h
  | succ k ih =>
      obtain ⟨hi, hlen, hlim⟩ := readLEB_bounds h
      rw [readLEB_succ (by omega) (by omega)] at h
      rw [readLEB_succ (by omega) (by rw [hsame.length]; omega)]
      split at h
      · rename_i hend
        cases h
        rw [Nat.add_sub_cancel] at hlast
        rw [hlast, xor_one_and_high, if_pos hend]
        refine ⟨_, rfl, fun heq => ?_⟩
        have hbit := congrArg (BitVec.getLsbD · s) heq
        rw [lebValue_bit (by omega) (hn s (Nat.le_refl s)), lebValue_bit (by omega) (hn s (Nat.le_refl s))] at hbit
        exact xor_one_bit _ hbit
      · rename_i hmore
        obtain ⟨hi', -, -⟩ := readLEB_bounds h
        rw [hsame.get i (Nat.le_refl _) (by omega), if_neg hmore]
        refine ih (by omega) (fun b hb => ?_) h (hsame.mono (Nat.le_succ i) (Nat.le_refl _))
        rw [BitVec.getLsbD_or, hn b (by omega), Bool.false_or, BitVec.getLsbD_shiftLeft,
          BitVec.getLsbD_setWidth, BitVec.getLsbD_and, low_bits (by omega : 7 ≤ b - s), Bool.and_false,
          Bool.and_false, Bool.and_false]

/-- **Numbers of a varying size** in at most ten bytes. -/
theorem lebReader_exact (signed : Bool) :
    Reader.Exact fun img off => readLEB signed img img.length 10 off 0 0 where
  total img off := by
    obtain ⟨x, hx, -⟩ := readLEB_total signed img img.length 10 off 0 0
    exact ⟨x, hx⟩
  bounds h := ⟨(readLEB_bounds h).1, (readLEB_bounds h).2.1⟩
  same h hsame := readLEB_same h hsame (by rw [hsame.length]; exact (readLEB_bounds h).2.1)
  last h hsame hlast := readLEB_last (by omega) (fun b _ => by simp) h hsame hlast
    (by rw [hsame.length]; exact (readLEB_bounds h).2.1)

end PS4Recomp.Library
