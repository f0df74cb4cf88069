import PS4Recomp.Library.Rounding
import PS4Recomp.Runtime.DirectMem

/-!
# The bytes of direct memory

What an allocation and a release do to the bytes of a tiled block list.

* `FreeAt` — a byte is free, `Taken`, `Freed` — a block is all that was allocated, or released;
* `Place` — an aligned range of free bytes in a window, `Room` — one inside a free block,
  `free_iff_room` — in a tiled list they are the same;
* `candidate_spec` — rounding up in 64 bits;
* **`allocate_lowest`** — an allocation takes the lowest place of its rounded length or fails;
* `checkedRelease`, **`release_block`** — a release frees the block that starts at its address or
  fails.
-/

namespace PS4Recomp.Runtime

open Library

/-- A byte of the block. -/
def DirectMemBlock.Has (b : DirectMemBlock) (x : ℕ) : Prop :=
  b.physOffset.toNat ≤ x ∧ x < b.physOffset.toNat + b.size.toNat

namespace DirectMem

/-- A byte of a free block. -/
def FreeAt (l : List DirectMemBlock) (x : ℕ) : Prop := ∃ b ∈ l, b.isFree = true ∧ b.Has x

/-- The block is allocated now, its bytes are not free any more, and nothing else has changed. -/
structure Taken (l l' : List DirectMemBlock) (c : DirectMemBlock) : Prop where
  free : ∀ x, FreeAt l' x ↔ FreeAt l x ∧ ¬ c.Has x
  owned : ∀ d, d.isFree = false → (d ∈ l' ↔ d ∈ l ∨ d = c)

/-- The block is not allocated any more, its bytes are free, and nothing else has changed. -/
structure Freed (l l' : List DirectMemBlock) (c : DirectMemBlock) : Prop where
  free : ∀ x, FreeAt l' x ↔ FreeAt l x ∨ c.Has x
  owned : ∀ d, d.isFree = false → (d ∈ l' ↔ d ∈ l ∧ d ≠ c)

/-- A range of `len` bytes from `p` on that an allocation may take. -/
structure Place (searchStart searchEnd len alignment : BitVec 64) (l : List DirectMemBlock)
    (p : ℕ) : Prop where
  aligned : alignment.toNat ∣ p
  above : searchStart.toNat ≤ p
  below : p + len.toNat ≤ searchEnd.toNat
  free : ∀ x, p ≤ x → x < p + len.toNat → FreeAt l x

variable {dflt total len start alignment searchStart searchEnd : BitVec 64} {m : DirectMem}
  {l pre post : List DirectMemBlock} {b : DirectMemBlock}

theorem freeAt_append {l' : List DirectMemBlock} {x : ℕ} :
    FreeAt (l ++ l') x ↔ FreeAt l x ∨ FreeAt l' x := by
  simp only [FreeAt, List.mem_append, or_and_right, exists_or]

theorem freeAt_cons {x : ℕ} : FreeAt (b :: l) x ↔ b.isFree = true ∧ b.Has x ∨ FreeAt l x := by
  simp only [FreeAt, List.mem_cons, or_and_right, exists_or, exists_eq_left]

theorem not_freeAt_nil {x : ℕ} : ¬ FreeAt [] x := fun h => by
  obtain ⟨b, hb, -⟩ := h
  cases hb

theorem Tiled.not_freeAt (h : Tiled total (pre ++ b :: post)) {x : ℕ} (hx : b.Has x) :
    ¬ FreeAt pre x ∧ ¬ FreeAt post x := by
  obtain ⟨-, hbpost, hseam⟩ := List.pairwise_append.1 h.fills.pairwise
  constructor
  · intro hpre
    obtain ⟨c, hc, -, hcx⟩ := hpre
    have hle := hseam c hc b List.mem_cons_self
    have hlt := hcx.2
    have hge := hx.1
    omega
  · intro hpost
    obtain ⟨c, hc, -, hcx⟩ := hpost
    have hle := (List.pairwise_cons.1 hbpost).1 c hc
    have hlt := hx.2
    have hge := hcx.1
    omega

/-! ### the search -/

/-- The range lies in a free block. -/
def Room (len : BitVec 64) (l : List DirectMemBlock) (p : ℕ) : Prop :=
  ∃ b ∈ l, b.isFree = true ∧ b.physOffset.toNat ≤ p ∧
    p + len.toNat ≤ b.physOffset.toNat + b.size.toNat

/-- Behind a free block of a tiled list is no free byte. -/
theorem Tiled.not_freeAt_stop (h : Tiled total (pre ++ b :: post)) (hfree : b.isFree = true) :
    ¬ FreeAt (pre ++ b :: post) (b.physOffset.toNat + b.size.toNat) := by
  obtain ⟨-, hbpost, hseam⟩ := List.pairwise_append.1 h.fills.pairwise
  obtain ⟨-, hchain, -⟩ := List.isChain_append.1 h.chain
  intro hfreeAt
  obtain ⟨c, hc, hcfree, hlo, hhi⟩ := hfreeAt
  rcases List.mem_append.1 hc with hc | hc
  · have hle := hseam c hc b List.mem_cons_self
    omega
  rcases List.mem_cons.1 hc with heq | hc
  · rw [heq] at hhi
    omega
  -- the block after it is not free, and not empty when another one follows
  cases post with
  | nil => cases hc
  | cons n post =>
      obtain ⟨hnext, hrest⟩ := List.isChain_cons_cons.1 hchain
      rcases List.mem_cons.1 hc with heq | hc
      · rcases hnext.2 with hb | hn
        · rw [hfree] at hb
          cases hb
        · rw [heq, hn] at hcfree
          cases hcfree
      · cases post with
        | nil => cases hc
        | cons q post =>
            have hpos := (List.isChain_cons_cons.1 hrest).1.1
            obtain ⟨hbn, hnpost⟩ := List.pairwise_cons.1 hbpost
            have hle := hbn n List.mem_cons_self
            have hle' := (List.pairwise_cons.1 hnpost).1 c hc
            omega

/-- In a tiled list a range of free bytes lies in one block. -/
theorem Tiled.free_iff_room (h : Tiled total l) (hlen : 0 < len.toNat) {p : ℕ} :
    (∀ x, p ≤ x → x < p + len.toNat → FreeAt l x) ↔ Room len l p := by
  constructor
  · intro hall
    obtain ⟨b, hb, hfree, hlo, hhi⟩ := hall p (Nat.le_refl p) (by omega)
    refine ⟨b, hb, hfree, hlo, ?_⟩
    by_contra hlong
    obtain ⟨pre, post, rfl⟩ := List.append_of_mem hb
    exact h.not_freeAt_stop hfree (hall _ (by omega) (by omega))
  · intro hroom x hlo hhi
    obtain ⟨b, hb, hfree, hblo, hbhi⟩ := hroom
    exact ⟨b, hb, hfree, by omega, by omega⟩

/-- The candidate of a block is the lowest multiple of the alignment that is not below; where it wraps
there is none. -/
theorem candidate_spec (searchStart : BitVec 64) (b : DirectMemBlock) {k : ℕ} (hal : alignment.toNat = 2 ^ k) :
    (fromOf searchStart b ≤ candidate searchStart alignment b ∧
        (candidate searchStart alignment b).toNat =
          roundUp (fromOf searchStart b).toNat alignment.toNat) ∨
      (candidate searchStart alignment b < fromOf searchStart b ∧
        ∀ p, alignment.toNat ∣ p → (fromOf searchStart b).toNat ≤ p → 2 ^ 64 ≤ p) := by
  have hpos : 0 < alignment.toNat := by rw [hal]; exact Nat.two_pow_pos k
  have hlt := alignment.isLt
  rw [candidate, alignUp]
  generalize fromOf searchStart b = x
  by_cases hwrap : x.toNat + alignment.toNat - 1 < 2 ^ 64
  · left
    have hround := toNat_roundUp_word hal hwrap
    refine ⟨?_, hround⟩
    rw [BitVec.le_def, hround]
    exact le_roundUp x.toNat hpos
  · right
    have hzero := roundUp_word_wrap hal (not_lt.1 hwrap)
    refine ⟨?_, fun p hdvd hle => ?_⟩
    · rw [BitVec.lt_def, hzero]
      omega
    · have hk : k ≤ 64 := by
        rw [hal] at hlt
        exact Nat.le_of_lt ((Nat.pow_lt_pow_iff_right (by omega)).1 hlt)
      have hword : alignment.toNat ∣ 2 ^ 64 := by
        rw [hal]
        exact Nat.pow_dvd_pow 2 hk
      by_contra hp
      have hgap := Nat.le_of_dvd (by omega) ((Nat.dvd_sub hword hdvd : alignment.toNat ∣ 2 ^ 64 - p))
      omega

theorem fromOf_toNat (searchStart : BitVec 64) (b : DirectMemBlock) :
    (fromOf searchStart b).toNat = max b.physOffset.toNat searchStart.toNat := by
  rw [fromOf]
  by_cases hlt : searchStart < b.physOffset
  · rw [if_pos hlt]
    rw [BitVec.lt_def] at hlt
    omega
  · rw [if_neg hlt]
    rw [BitVec.not_lt, BitVec.le_def] at hlt
    omega

/-- A place in a block from the start of the window on. -/
structure Suits (searchStart len alignment : BitVec 64) (b : DirectMemBlock) (p : ℕ) : Prop where
  aligned : alignment.toNat ∣ p
  above : searchStart.toNat ≤ p
  start_le : b.physOffset.toNat ≤ p
  le_stop : p + len.toNat ≤ b.physOffset.toNat + b.size.toNat

/-- The candidate range of a block does not wrap. -/
def NoWrap (searchStart len alignment : BitVec 64) (b : DirectMemBlock) : Prop :=
  fromOf searchStart b ≤ candidate searchStart alignment b →
    (candidate searchStart alignment b).toNat + len.toNat < 2 ^ 64

section Block

variable {k : ℕ} (hal : alignment.toNat = 2 ^ k)
  (hstop : b.physOffset.toNat + b.size.toNat < 2 ^ 64) (hwrap : NoWrap searchStart len alignment b)

include hal hstop hwrap

theorem not_suits (hskip : candidate searchStart alignment b < fromOf searchStart b ∨
      b.physOffset + b.size < candidate searchStart alignment b + len) (p : ℕ) :
    ¬ Suits searchStart len alignment b p := by
  intro h
  have hpos : 0 < alignment.toNat := by rw [hal]; exact Nat.two_pow_pos k
  have hfrom := fromOf_toNat searchStart b
  have habove := h.above
  have hlo := h.start_le
  have hhi := h.le_stop
  rcases candidate_spec searchStart b hal with hc | hc
  · obtain ⟨hge, hround⟩ := hc
    rcases hskip with hlt | hlong
    · exact absurd hge (BitVec.not_le.2 hlt)
    · have hsum := BitVec.toNat_add_of_lt (hwrap hge)
      have hle : roundUp (fromOf searchStart b).toNat alignment.toNat ≤ p :=
        roundUp_le_of_dvd hpos (by omega) h.aligned
      rw [BitVec.lt_def, BitVec.toNat_add_of_lt hstop, hsum, hround] at hlong
      omega
  · have hlarge := hc.2 p h.aligned (by omega)
    omega

theorem candidate_suits (hkeep : ¬ (candidate searchStart alignment b < fromOf searchStart b ∨
      b.physOffset + b.size < candidate searchStart alignment b + len)) :
    Suits searchStart len alignment b (candidate searchStart alignment b).toNat ∧
      (candidate searchStart alignment b + len).toNat =
        (candidate searchStart alignment b).toNat + len.toNat ∧
      ∀ p, Suits searchStart len alignment b p → (candidate searchStart alignment b).toNat ≤ p := by
  have hpos : 0 < alignment.toNat := by rw [hal]; exact Nat.two_pow_pos k
  have hfrom := fromOf_toNat searchStart b
  rw [not_or, BitVec.not_lt, BitVec.not_lt] at hkeep
  obtain ⟨hge, hfit⟩ := hkeep
  have hsum := BitVec.toNat_add_of_lt (hwrap hge)
  have hround : (candidate searchStart alignment b).toNat =
      roundUp (fromOf searchStart b).toNat alignment.toNat := by
    rcases candidate_spec searchStart b hal with hc | hc
    · exact hc.2
    · exact absurd hge (BitVec.not_le.2 hc.1)
  rw [BitVec.le_def] at hge
  rw [BitVec.le_def, BitVec.toNat_add_of_lt hstop, hsum] at hfit
  refine ⟨⟨?_, by omega, by omega, hfit⟩, hsum, fun p h => ?_⟩
  · rw [hround]
    exact dvd_roundUp _ _
  · have habove := h.above
    have hlo := h.start_le
    rw [hround]
    exact roundUp_le_of_dvd hpos (by omega) h.aligned

end Block

/-- A place in one of the free blocks and in the window. -/
def Fit (searchStart searchEnd len alignment : BitVec 64) (l : List DirectMemBlock) (p : ℕ) : Prop :=
  p + len.toNat ≤ searchEnd.toNat ∧
    ∃ b ∈ l, b.isFree = true ∧ Suits searchStart len alignment b p

theorem fit_cons {p : ℕ} : Fit searchStart searchEnd len alignment (b :: l) p ↔
    (p + len.toNat ≤ searchEnd.toNat ∧ b.isFree = true ∧ Suits searchStart len alignment b p) ∨
      Fit searchStart searchEnd len alignment l p := by
  simp only [Fit, List.mem_cons, or_and_right, exists_or, exists_eq_left, and_or_left]

/-- What a search answers: the lowest place, where there is one. -/
structure Lowest (P : ℕ → Prop) (answer : Option ℕ) : Prop where
  some : ∀ p, answer = some p → P p ∧ ∀ q, P q → p ≤ q
  none : answer = none → ∀ q, ¬ P q

theorem Lowest.congr {P Q : ℕ → Prop} {answer : Option ℕ} (h : Lowest P answer)
    (hiff : ∀ p, Q p ↔ P p) : Lowest Q answer := by
  refine ⟨fun p hp => ?_, fun hn q hq => h.none hn q ((hiff q).1 hq)⟩
  obtain ⟨hP, hleast⟩ := h.some p hp
  exact ⟨(hiff p).2 hP, fun q hq => hleast q ((hiff q).1 hq)⟩

/-- **The search** answers the lowest place. -/
theorem findFit_lowest (searchEnd : BitVec 64) {k : ℕ} (hal : alignment.toNat = 2 ^ k) {lo hi : ℕ}
    (hfill : Fills lo hi l) (hhi : hi < 2 ^ 64)
    (hwrap : ∀ b ∈ l, b.isFree = true → NoWrap searchStart len alignment b) :
    Lowest (Fit searchStart searchEnd len alignment l)
      ((findFit searchStart searchEnd len alignment l).map fun r => r.2.2.2.toNat) := by
  induction l generalizing lo with
  | nil =>
      refine ⟨fun p hp => ?_, fun _ q hq => ?_⟩
      · cases hp
      · obtain ⟨-, b, hb, -⟩ := hq
        cases hb
  | cons b l ih =>
      obtain ⟨hstart, hrest⟩ := hfill
      have hlow := ih hrest fun c hc => hwrap c (List.mem_cons_of_mem _ hc)
      have hlo : b.physOffset.toNat = lo := hstart
      have hle : lo + b.size.toNat ≤ hi := hrest.le
      have hstop : b.physOffset.toNat + b.size.toNat < 2 ^ 64 := by omega
      -- a place in a later block is behind this one
      have hlater : ∀ q, Fit searchStart searchEnd len alignment l q →
          b.physOffset.toNat + b.size.toNat ≤ q := by
        intro q hq
        obtain ⟨-, c, hc, -, hsuits⟩ := hq
        have hbound : lo + b.size.toNat ≤ c.physOffset.toNat := (hrest.bounds hc).1
        have hcq := hsuits.start_le
        omega
      -- a block without a place leaves the search to the others
      have hpass : (∀ q, ¬ (b.isFree = true ∧ Suits searchStart len alignment b q)) →
          Lowest (Fit searchStart searchEnd len alignment (b :: l))
            (((findFit searchStart searchEnd len alignment l).map
              fun r => (b :: r.1, r.2.1, r.2.2.1, r.2.2.2)).map fun r => r.2.2.2.toNat) := by
        intro hno
        rw [Option.map_map]
        refine hlow.congr fun q => ?_
        rw [fit_cons, or_iff_right]
        exact fun hb => hno q hb.2
      rw [findFit]
      by_cases hfree : b.isFree = false
      · rw [if_pos hfree]
        refine hpass fun q hb => ?_
        rw [hfree] at hb
        cases hb.1
      rw [if_neg hfree]
      have hfree' : b.isFree = true := by simpa using hfree
      have hbwrap := hwrap b List.mem_cons_self hfree'
      by_cases hskip : candidate searchStart alignment b < fromOf searchStart b ∨
          b.physOffset + b.size < candidate searchStart alignment b + len
      · rw [if_pos hskip]
        exact hpass fun q hb => not_suits hal hstop hbwrap hskip q hb.2
      rw [if_neg hskip]
      obtain ⟨hsuits, hsum, hleast⟩ := candidate_suits hal hstop hbwrap hskip
      have hcstop := hsuits.le_stop
      by_cases hend : searchEnd < candidate searchStart alignment b + len
      · -- every place ends behind the window
        rw [if_pos hend]
        rw [BitVec.lt_def, hsum] at hend
        refine ⟨fun p hp => ?_, fun _ q hq => ?_⟩
        · cases hp
        · rcases fit_cons.1 hq with hb | hl
          · have hge := hleast q hb.2.2
            omega
          · have hge := hlater q hl
            have hbelow := hl.1
            omega
      · rw [if_neg hend]
        rw [BitVec.not_lt, BitVec.le_def, hsum] at hend
        refine ⟨fun p hp => ?_, fun hn => ?_⟩
        · cases hp
          refine ⟨fit_cons.2 (.inl ⟨hend, hfree', hsuits⟩), fun q hq => ?_⟩
          rcases fit_cons.1 hq with hb | hl
          · exact hleast q hb.2.2
          · have hge := hlater q hl
            dsimp only
            omega
        · cases hn

/-! ### allocation -/

/-- In a tiled list the places of the search are those of free bytes. -/
theorem Tiled.place_iff (h : Tiled total l) (hlen : 0 < len.toNat) {p : ℕ} :
    Place searchStart searchEnd len alignment l p ↔ Fit searchStart searchEnd len alignment l p := by
  constructor
  · intro hp
    obtain ⟨b, hb, hfree, hlo, hhi⟩ := (h.free_iff_room hlen).1 hp.free
    exact ⟨hp.below, b, hb, hfree, hp.aligned, hp.above, hlo, hhi⟩
  · intro hp
    obtain ⟨hbelow, b, hb, hfree, hsuits⟩ := hp
    exact ⟨hsuits.aligned, hsuits.above, hbelow,
      (h.free_iff_room hlen).2 ⟨b, hb, hfree, hsuits.start_le, hsuits.le_stop⟩⟩

section Split

variable (hstop : b.physOffset.toNat + b.size.toNat < 2 ^ 64)
  (hlo : b.physOffset.toNat ≤ start.toNat)
  (hhi : start.toNat + len.toNat ≤ b.physOffset.toNat + b.size.toNat)

include hstop hlo hhi

omit hstop in
theorem toNat_rest : (b.size - (start - b.physOffset)).toNat =
    b.physOffset.toNat + b.size.toNat - start.toNat := by
  have hpad : (start - b.physOffset).toNat = start.toNat - b.physOffset.toNat :=
    BitVec.toNat_sub_of_le (BitVec.le_def.2 hlo)
  rw [BitVec.toNat_sub_of_le (by rw [BitVec.le_def, hpad]; omega), hpad]
  omega

/-- The part of a split block from the start of the range on. -/
theorem splitTail_taken (x : ℕ) :
    (FreeAt (splitTail len start b) x ↔
      start.toNat + len.toNat ≤ x ∧ x < b.physOffset.toNat + b.size.toNat) ∧
    ∀ d : DirectMemBlock, d.isFree = false →
      (d ∈ splitTail len start b ↔ d = { physOffset := start, size := len, isFree := false }) := by
  have hrest := toNat_rest hlo hhi
  rw [splitTail]
  by_cases hlt : len < b.size - (start - b.physOffset)
  · rw [if_pos hlt]
    have hsum : (start + len).toNat = start.toNat + len.toNat := BitVec.toNat_add_of_lt (by omega)
    have hleft : (b.size - (start - b.physOffset) - len).toNat =
        b.physOffset.toNat + b.size.toNat - start.toNat - len.toNat := by
      rw [BitVec.toNat_sub_of_le (BitVec.le_of_lt hlt), hrest]
    constructor
    · rw [freeAt_cons, freeAt_cons]
      simp only [Bool.false_eq_true, false_and, false_or, true_and, not_freeAt_nil, or_false,
        DirectMemBlock.Has, hsum, hleft]
      omega
    · intro d hd
      rw [List.mem_cons, List.mem_singleton, or_iff_left]
      intro heq
      rw [heq] at hd
      cases hd
  · rw [if_neg hlt]
    have hsame : b.size - (start - b.physOffset) = len := by
      rw [BitVec.not_lt, BitVec.le_def] at hlt
      refine BitVec.eq_of_toNat_eq ?_
      omega
    rw [hsame] at hrest ⊢
    constructor
    · rw [freeAt_cons]
      simp only [Bool.false_eq_true, false_and, false_or, not_freeAt_nil, false_iff]
      omega
    · exact fun d _ => List.mem_singleton

/-- A split block keeps its bytes outside the range free. -/
theorem split_taken (x : ℕ) :
    (FreeAt (split len start b) x ↔
      b.Has x ∧ ¬ ({ physOffset := start, size := len, isFree := false } : DirectMemBlock).Has x) ∧
    ∀ d : DirectMemBlock, d.isFree = false →
      (d ∈ split len start b ↔ d = { physOffset := start, size := len, isFree := false }) := by
  obtain ⟨hfree, howned⟩ := splitTail_taken hstop hlo hhi x
  have hpad : (start - b.physOffset).toNat = start.toNat - b.physOffset.toNat :=
    BitVec.toNat_sub_of_le (BitVec.le_def.2 hlo)
  rw [split]
  by_cases hz : start - b.physOffset = 0
  · have hzero : (start - b.physOffset).toNat = 0 := by
      rw [hz]
      rfl
    rw [if_neg (not_not_intro hz), List.nil_append]
    refine ⟨?_, howned⟩
    rw [hfree]
    simp only [DirectMemBlock.Has]
    omega
  · rw [if_pos hz]
    constructor
    · rw [freeAt_append, freeAt_cons, hfree]
      simp only [true_and, not_freeAt_nil, or_false, DirectMemBlock.Has, hpad]
      omega
    · intro d hd
      rw [List.mem_append, List.mem_singleton, or_iff_right]
      · exact howned d hd
      · intro heq
        rw [heq] at hd
        cases hd

end Split

/-- **A free block split** around a range in it. -/
theorem Tiled.taken_split (h : Tiled total (pre ++ b :: post)) (hfree : b.isFree = true)
    (hlo : b.physOffset.toNat ≤ start.toNat)
    (hhi : start.toNat + len.toNat ≤ b.physOffset.toNat + b.size.toNat) :
    Taken (pre ++ b :: post) (pre ++ split len start b ++ post)
      { physOffset := start, size := len, isFree := false } := by
  have hbound := (h.fills.bounds (b := b) (by simp)).2
  have hstop : b.physOffset.toNat + b.size.toNat < 2 ^ 64 := by
    have hlt := total.isLt
    omega
  constructor
  · intro x
    obtain ⟨hx, -⟩ := split_taken hstop hlo hhi x
    rw [freeAt_append, freeAt_append, freeAt_append, freeAt_cons, hx, hfree, and_iff_right rfl]
    by_cases hb : b.Has x
    · obtain ⟨hpre, hpost⟩ := h.not_freeAt hb
      simp only [hpre, hpost, hb, false_or, or_false, true_and]
    · have hout : ¬ ({ physOffset := start, size := len, isFree := false } : DirectMemBlock).Has x := by
        intro hc
        have hge := hc.1
        have hlt := hc.2
        dsimp only at hge hlt
        exact hb ⟨by omega, by omega⟩
      simp only [hb, hout, or_false, false_or, not_false_eq_true, and_true]
  · intro d hd
    obtain ⟨-, howned⟩ := split_taken hstop hlo hhi 0
    have hne : d ≠ b := by
      intro heq
      rw [heq, hfree] at hd
      cases hd
    simp only [List.mem_append, List.mem_cons, howned d hd, hne, false_or]
    tauto

theorem init_of_inited (calloc : Bool) (hin : m.inited = true) : m.init dflt calloc = m := if_pos hin

/-- **Allocation.**  With an alignment that is a power of two, and where no 64-bit sum wraps, an
allocation takes the lowest place of its rounded length, and exactly that; it fails only if there is
none, or if a block of the split cannot be allocated, and changes nothing then. -/
theorem allocate_lowest {length : BitVec 64} (hin : m.inited = true)
    (h : Tiled (m.total dflt) m.blocks) (hlength : length ≠ 0) (hstart : 0 ≤ searchStart.toInt)
    (hend : 0 ≤ searchEnd.toInt) {k : ℕ} (hal : (alignmentOf alignment).toNat = 2 ^ k)
    (hfits : Fits searchStart length alignment m.blocks) (callocInit callocSplit : Bool) :
    let len := alignUp length (alignmentOf alignment)
    let done := m.allocate dflt callocInit callocSplit searchStart searchEnd length alignment
    let place := Place searchStart searchEnd len (alignmentOf alignment) m.blocks
    (∀ p, done.2 = .ok p → place p.toNat ∧ (∀ q, place q → p.toNat ≤ q) ∧
      Taken m.blocks done.1.blocks { physOffset := p, size := len, isFree := false }) ∧
    ∀ e, done.2 = .error e → e = .eagain ∧ done.1 = m ∧ ((∀ q, ¬ place q) ∨ callocSplit = false) := by
  intro len done place
  have hlen : 0 < len.toNat := by
    rw [Nat.pos_iff_ne_zero]
    exact fun hz => hfits.rounds (BitVec.eq_of_toNat_eq hz)
  have hslt : 2 * searchStart.toNat < 2 ^ 64 := BitVec.toInt_pos_iff.1 hstart
  have helt : 2 * searchEnd.toNat < 2 ^ 64 := BitVec.toInt_pos_iff.1 hend
  have hlow := findFit_lowest searchEnd hal h.fills (m.total dflt).isLt hfits.noWrap
  have hlow' : Lowest place _ := hlow.congr fun p => h.place_iff hlen
  have hargs : ¬ (length = 0 ∨ searchStart.toInt < 0 ∨ searchEnd.toInt < 0) := by
    rw [not_or, not_or, not_lt, not_lt]
    exact ⟨hlength, hstart, hend⟩
  have hdone : done = m.allocate dflt callocInit callocSplit searchStart searchEnd length alignment := rfl
  rw [allocate, init_of_inited callocInit hin, if_neg hargs] at hdone
  dsimp only at hdone
  rw [hdone]
  by_cases hroom : searchEnd.toInt ≤ searchStart.toInt ∨ searchEnd - searchStart < len
  · -- the window is smaller than the range
    rw [if_pos hroom]
    refine ⟨fun p hp => (by cases hp), fun e he => ?_⟩
    cases he
    refine ⟨rfl, rfl, .inl fun q hq => ?_⟩
    have habove := hq.above
    have hbelow := hq.below
    rcases hroom with hle | hlt
    · rw [BitVec.toInt_eq_toNat_of_lt hslt, BitVec.toInt_eq_toNat_of_lt helt] at hle
      omega
    · rw [BitVec.lt_def, BitVec.toNat_sub_of_le (by rw [BitVec.le_def]; omega)] at hlt
      omega
  rw [if_neg hroom]
  cases hfit : findFit searchStart searchEnd len (alignmentOf alignment) m.blocks with
  | none =>
      rw [hfit] at hlow'
      refine ⟨fun p hp => (by cases hp), fun e he => ?_⟩
      cases he
      exact ⟨rfl, rfl, .inl (hlow'.none rfl)⟩
  | some r =>
      obtain ⟨pre, b, post, start⟩ := r
      rw [hfit] at hlow'
      dsimp only
      by_cases hcalloc : callocSplit = false ∧
          (start - b.physOffset ≠ 0 ∨ len < b.size - (start - b.physOffset))
      · rw [if_pos hcalloc]
        refine ⟨fun p hp => (by cases hp), fun e he => ?_⟩
        cases he
        exact ⟨rfl, rfl, .inr hcalloc.1⟩
      · rw [if_neg hcalloc]
        refine ⟨fun p hp => ?_, fun e he => (by cases he)⟩
        cases hp
        obtain ⟨hplace, hleast⟩ := hlow'.some _ rfl
        refine ⟨hplace, hleast, ?_⟩
        obtain ⟨heq, hfree, hcand, hfrom, hfitb⟩ := findFit_spec hfit
        have hmem : b ∈ m.blocks := by
          rw [heq]
          simp
        have hwrap := hfits.noWrap b hmem hfree (hcand ▸ hfrom)
        rw [← hcand] at hwrap
        have hbstop : b.physOffset.toNat + b.size.toNat < 2 ^ 64 := by
          have hle := (h.fills.bounds hmem).2
          have hlt := (m.total dflt).isLt
          omega
        have hlo : b.physOffset.toNat ≤ start.toNat :=
          BitVec.le_def.1 (BitVec.le_trans (le_fromOf searchStart b) hfrom)
        have hhi : start.toNat + len.toNat ≤ b.physOffset.toNat + b.size.toNat := by
          rw [BitVec.le_def, BitVec.toNat_add_of_lt hwrap, BitVec.toNat_add_of_lt hbstop] at hfitb
          exact hfitb
        rw [heq] at h
        show Taken m.blocks (pre ++ split len start b ++ post) _
        rw [heq]
        exact h.taken_split hfree hlo hhi

/-- A megabyte of direct memory, all free. -/
def freeMegabyte : DirectMem where
  blocks := [{ physOffset := 0, size := 0x100000, isFree := true }]
  inited := true
  configured := some 0x100000

theorem tiled_freeMegabyte : Tiled (freeMegabyte.total 0) freeMegabyte.blocks :=
  ⟨⟨rfl, rfl⟩, .singleton _⟩

/-- A page from `0x1234` on is taken at `0x2000`. -/
theorem allocate_lowest_page :
    Place 0x1234 0x100000 0x1000 0x1000 freeMegabyte.blocks 0x2000 ∧
      ∀ q, Place 0x1234 0x100000 0x1000 0x1000 freeMegabyte.blocks q → 0x2000 ≤ q := by
  have hpass : Passes 0x1234 0x100000 0x1000 0x1000 :=
    ⟨by decide, by decide, by decide, by decide, by decide⟩
  have hfits := fits_of_rounds tiled_freeMegabyte (by decide) hpass (by decide)
  have hal : (alignmentOf 0x1000).toNat = 2 ^ 12 := by decide
  have h := allocate_lowest rfl tiled_freeMegabyte hpass.length_ne hpass.start_nonneg hpass.end_nonneg
    hal hfits true true
  obtain ⟨hplace, hleast, -⟩ := h.1 0x2000 (by decide)
  exact ⟨hplace, hleast⟩

/-- A page in a window of one page is not found for an alignment of four. -/
theorem allocate_window :
    Place 0 0x1000 0x1000 0x4000 freeMegabyte.blocks 0 ∧
      (freeMegabyte.allocate 0 true true 0 0x1000 0x1000 0x4000).2 = .error .eagain := by
  refine ⟨⟨by decide, by decide, by decide, fun x _ hx => ?_⟩, by decide⟩
  refine ⟨_, List.mem_cons_self, rfl, Nat.zero_le x, ?_⟩
  have hlt : x < 0 + 0x1000 := hx
  show x < 0 + 0x100000
  omega

/-! ### release -/

/-- `sceKernelCheckedReleaseDirectMemory`. -/
def checkedRelease (dflt : BitVec 64) (calloc : Bool) (physAddr length : BitVec 64) (m : DirectMem) :
    DirectMem × Except DirectMemError Unit :=
  if physAddr &&& 0x3fff ≠ 0 ∨ length &&& 0x3fff ≠ 0 then (m, .error .einval)
  else if length = 0 then (m, .ok ())
  else m.release dflt calloc physAddr

theorem mem_of_allocated {d : DirectMemBlock} (hd : d.isFree = false) (hb : b.isFree = true) :
    d ∈ b :: l ↔ d ∈ l := by
  rw [List.mem_cons, or_iff_right]
  intro heq
  rw [heq, hb] at hd
  cases hd

/-- A free block joined with the next one has the bytes of both. -/
theorem mergeNext_bytes {hi : ℕ} (hb : b.isFree = true) (hhi : hi < 2 ^ 64)
    (hfill : Fills b.physOffset.toNat hi (b :: post)) :
    (∀ x, FreeAt (mergeNext b post) x ↔ b.Has x ∨ FreeAt post x) ∧
      ∀ d : DirectMemBlock, d.isFree = false → (d ∈ mergeNext b post ↔ d ∈ post) := by
  cases post with
  | nil =>
      rw [mergeNext]
      refine ⟨fun x => ?_, fun d hd => mem_of_allocated hd hb⟩
      rw [freeAt_cons, hb, and_iff_right rfl]
  | cons n post =>
      have hn : n.physOffset.toNat = b.physOffset.toNat + b.size.toNat := hfill.2.1
      have hle : b.physOffset.toNat + b.size.toNat + n.size.toNat ≤ hi := hfill.2.2.le
      have hsum : (b.size + n.size).toNat = b.size.toNat + n.size.toNat :=
        BitVec.toNat_add_of_lt (by omega)
      rw [mergeNext]
      by_cases hfree : n.isFree = true
      · rw [if_pos hfree]
        refine ⟨fun x => ?_, fun d hd => ?_⟩
        · rw [freeAt_cons, freeAt_cons, hb, hfree, and_iff_right rfl, and_iff_right rfl, ← or_assoc]
          refine or_congr_left ?_
          simp only [DirectMemBlock.Has, hsum]
          omega
        · rw [mem_of_allocated hd (show ({ b with size := b.size + n.size }).isFree = true from hb),
            mem_of_allocated hd hfree]
      · rw [if_neg hfree]
        refine ⟨fun x => ?_, fun d hd => mem_of_allocated hd hb⟩
        rw [freeAt_cons, hb, and_iff_right rfl]

theorem mergePrev_bytes {c : DirectMemBlock} {rest : List DirectMemBlock} {hi : ℕ}
    (hc : c.isFree = true) (hhi : hi < 2 ^ 64) (hfill : Fills 0 hi (pre ++ c :: rest)) :
    (∀ x, FreeAt (mergePrev pre (c :: rest)) x ↔ FreeAt (pre ++ c :: rest) x) ∧
      ∀ d : DirectMemBlock, d.isFree = false →
        (d ∈ mergePrev pre (c :: rest) ↔ d ∈ pre ++ c :: rest) := by
  cases hlast : pre.getLast? with
  | none =>
      have heq : mergePrev pre (c :: rest) = pre ++ c :: rest := by
        unfold mergePrev
        rw [hlast]
      rw [heq]
      exact ⟨fun x => Iff.rfl, fun d _ => Iff.rfl⟩
  | some p =>
      have heq : mergePrev pre (c :: rest) = if p.isFree then
          pre.dropLast ++ { p with size := p.size + c.size } :: rest else pre ++ c :: rest := by
        unfold mergePrev
        rw [hlast]
      rw [heq]
      by_cases hp : p.isFree = true
      · rw [if_pos hp]
        have hpre : pre = pre.dropLast ++ [p] := (List.dropLast_append_getLast? p hlast).symm
        rw [hpre, List.append_assoc] at hfill
        obtain ⟨mid, -, hstart, hfc⟩ := tiles_append.1 hfill
        have hmid : p.physOffset.toNat = mid := hstart
        have hcs : c.physOffset.toNat = mid + p.size.toNat := hfc.1
        have hle : mid + p.size.toNat + c.size.toNat ≤ hi := hfc.2.le
        have hsum : (p.size + c.size).toNat = p.size.toNat + c.size.toNat :=
          BitVec.toNat_add_of_lt (by omega)
        refine ⟨fun x => ?_, fun d hd => ?_⟩
        · conv_rhs => rw [hpre]
          rw [List.append_assoc, freeAt_append, freeAt_append]
          refine or_congr_right ?_
          rw [List.singleton_append, freeAt_cons, freeAt_cons, freeAt_cons, hp, hc, and_iff_right rfl,
            and_iff_right rfl, and_iff_right rfl, ← or_assoc]
          refine or_congr_left ?_
          simp only [DirectMemBlock.Has, hsum]
          omega
        · conv_rhs => rw [hpre]
          rw [List.append_assoc, List.mem_append, List.mem_append, List.singleton_append,
            mem_of_allocated hd (show ({ p with size := p.size + c.size }).isFree = true from hp),
            mem_of_allocated hd hp, mem_of_allocated hd hc]
      · rw [if_neg hp]
        exact ⟨fun x => Iff.rfl, fun d _ => Iff.rfl⟩

/-- **An allocated block made free** and joined with its neighbours. -/
theorem Tiled.freed_release (h : Tiled total (pre ++ b :: post)) (hb : b.isFree = false) :
    Freed (pre ++ b :: post) (mergePrev pre (mergeNext { b with isFree := true } post)) b := by
  obtain ⟨mid, hpre, hfill⟩ := tiles_append.1 h.fills
  obtain ⟨-, hcpost, -⟩ := List.isChain_append.1 h.chain
  obtain ⟨c, rest, heq, hfree, hfc, -⟩ := mergeNext_spec total.isLt hfill hcpost
  have hmid : b.physOffset.toNat = mid := hfill.1
  obtain ⟨hbytes, howned⟩ := mergeNext_bytes (b := { b with isFree := true }) rfl total.isLt
    (show Fills b.physOffset.toNat total.toNat _ from hmid ▸ hfill)
  rw [heq] at hbytes howned ⊢
  obtain ⟨hbytes', howned'⟩ := mergePrev_bytes hfree total.isLt (tiles_append.2 ⟨mid, hpre, hfc⟩)
  constructor
  · intro x
    rw [hbytes' x, freeAt_append, freeAt_append, hbytes x, freeAt_cons, hb]
    simp only [Bool.false_eq_true, false_and, false_or, DirectMemBlock.Has]
    tauto
  · intro d hd
    rw [howned' d hd, List.mem_append, List.mem_append, howned d hd, List.mem_cons]
    -- the block is at one place of the list only
    have hnodup := h.wellFormed.ordered
    obtain ⟨-, hbpost, hseam⟩ := List.pairwise_append.1 hnodup
    have hnotpre : b ∉ pre := fun hmem => by
      exact BitVec.lt_irrefl _ (hseam b hmem b List.mem_cons_self)
    have hnotpost : b ∉ post := fun hmem => by
      exact BitVec.lt_irrefl _ ((List.pairwise_cons.1 hbpost).1 b hmem)
    constructor
    · intro hmem
      rcases hmem with hmem | hmem
      · exact ⟨.inl hmem, fun heq => hnotpre (heq ▸ hmem)⟩
      · exact ⟨.inr (.inr hmem), fun heq => hnotpost (heq ▸ hmem)⟩
    · intro hmem
      obtain ⟨hmem, hne⟩ := hmem
      exact hmem.imp_right fun hmem => hmem.resolve_left hne

theorem release_freed (hin : m.inited = true) (h : Tiled (m.total dflt) m.blocks) (calloc : Bool)
    (physAddr : BitVec 64) :
    ((m.release dflt calloc physAddr).2 = .ok () ∧ ∃ b ∈ m.blocks, b.isFree = false ∧
        b.physOffset = physAddr ∧ Freed m.blocks (m.release dflt calloc physAddr).1.blocks b) ∨
      (m.release dflt calloc physAddr = (m, .error .einval) ∧
        ∀ b ∈ m.blocks, b.isFree = false → b.physOffset ≠ physAddr) := by
  rw [release, init_of_inited calloc hin]
  cases hs : firstSplit (fun b => !b.isFree && b.physOffset == physAddr) m.blocks with
  | none =>
      right
      refine ⟨rfl, fun b hb hfree haddr => ?_⟩
      have hnot := firstSplit_eq_none hs b hb
      rw [hfree, haddr, beq_self_eq_true] at hnot
      cases hnot
  | some r =>
      left
      obtain ⟨pre, b, post⟩ := r
      obtain ⟨heq, hb⟩ := firstSplit_eq_some hs
      rw [Bool.and_eq_true, Bool.not_eq_true', beq_iff_eq] at hb
      have hmem : b ∈ m.blocks := by
        rw [heq]
        simp
      refine ⟨rfl, b, hmem, hb.1, hb.2, ?_⟩
      rw [heq] at h
      dsimp only
      rw [heq]
      exact h.freed_release hb.1

/-- **Release.**  A release, whatever its length, frees exactly the allocated block that starts at its
address and fails without a change where there is none; the checked one asks for multiples of 16 KiB
first, and does nothing for a length of 0. -/
theorem release_block (hin : m.inited = true) (h : Tiled (m.total dflt) m.blocks) (calloc : Bool)
    (physAddr length : BitVec 64) :
    let done := m.release dflt calloc physAddr
    let checked := m.checkedRelease dflt calloc physAddr length
    (done.2 = .ok () → ∃ b ∈ m.blocks, b.isFree = false ∧ b.physOffset = physAddr ∧
      Freed m.blocks done.1.blocks b) ∧
    (∀ e, done.2 = .error e → done.1 = m ∧
      ∀ b ∈ m.blocks, b.isFree = false → b.physOffset ≠ physAddr) ∧
    (checked.2 = .ok () → length = 0 ∧ checked.1 = m ∨
      ∃ b ∈ m.blocks, b.isFree = false ∧ b.physOffset = physAddr ∧
        Freed m.blocks checked.1.blocks b) ∧
    ∀ e, checked.2 = .error e → checked.1 = m ∧
      (¬ 0x4000 ∣ physAddr.toNat ∨ ¬ 0x4000 ∣ length.toNat ∨
        ∀ b ∈ m.blocks, b.isFree = false → b.physOffset ≠ physAddr) := by
  intro done checked
  have hdone : (done.2 = .ok () → ∃ b ∈ m.blocks, b.isFree = false ∧ b.physOffset = physAddr ∧
      Freed m.blocks done.1.blocks b) ∧ ∀ e, done.2 = .error e → done.1 = m ∧
        ∀ b ∈ m.blocks, b.isFree = false → b.physOffset ≠ physAddr := by
    rcases release_freed hin h calloc physAddr with hfreed | hfailed
    · refine ⟨fun _ => hfreed.2, fun e he => ?_⟩
      have hok : done.2 = .ok () := hfreed.1
      rw [hok] at he
      cases he
    · have heq : done = (m, .error .einval) := hfailed.1
      rw [heq]
      exact ⟨fun hc => (by cases hc), fun _ _ => ⟨rfl, hfailed.2⟩⟩
  have hmask : ∀ v : BitVec 64, v &&& 0x3fff ≠ 0 → ¬ 0x4000 ∣ v.toNat := by
    intro v hv hdvd
    refine hv (BitVec.eq_of_toNat_eq ?_)
    rw [BitVec.toNat_and]
    show v.toNat &&& (2 ^ 14 - 1) = 0
    rw [Nat.and_two_pow_sub_one_eq_mod]
    exact Nat.mod_eq_zero_of_dvd hdvd
  refine ⟨hdone.1, hdone.2, ?_⟩
  have hchecked : checked = if physAddr &&& 0x3fff ≠ 0 ∨ length &&& 0x3fff ≠ 0 then
      (m, .error .einval) else if length = 0 then (m, .ok ()) else done := rfl
  rw [hchecked]
  by_cases hodd : physAddr &&& 0x3fff ≠ 0 ∨ length &&& 0x3fff ≠ 0
  · rw [if_pos hodd]
    refine ⟨fun hc => (by cases hc), fun _ _ => ⟨rfl, ?_⟩⟩
    exact hodd.imp (hmask physAddr) fun hl => .inl (hmask length hl)
  rw [if_neg hodd]
  by_cases hzero : length = 0
  · rw [if_pos hzero]
    exact ⟨fun _ => .inl ⟨hzero, rfl⟩, fun e he => (by cases he)⟩
  · rw [if_neg hzero]
    refine ⟨fun hok => .inr (hdone.1 hok), fun e he => ?_⟩
    obtain ⟨hsame, hnone⟩ := hdone.2 e he
    exact ⟨hsame, .inr (.inr hnone)⟩

/-- Two blocks of 32 KiB, the first one allocated. -/
def halfAllocated : DirectMem where
  blocks := [{ physOffset := 0, size := 0x8000, isFree := false },
    { physOffset := 0x8000, size := 0x8000, isFree := true }]
  inited := true
  configured := some 0x10000

theorem tiled_halfAllocated : Tiled (halfAllocated.total 0) halfAllocated.blocks :=
  ⟨⟨rfl, rfl, rfl⟩, List.isChain_cons_cons.2 ⟨⟨by decide, .inl rfl⟩, .singleton _⟩⟩

/-- A release of the first 32 KiB. -/
theorem release_block_half : ∃ b ∈ halfAllocated.blocks, b.isFree = false ∧ b.physOffset = 0 ∧
    Freed halfAllocated.blocks (halfAllocated.release 0 true 0).1.blocks b :=
  (release_block rfl tiled_halfAllocated true 0 0x8000).1 (by decide)

/-- A release of the first 16 KiB frees the byte at `0x5000` too. -/
theorem release_block_beyond :
    (halfAllocated.checkedRelease 0 true 0 0x4000).2 = .ok () ∧
      FreeAt (halfAllocated.checkedRelease 0 true 0 0x4000).1.blocks 0x5000 ∧
      ¬ FreeAt halfAllocated.blocks 0x5000 := by
  refine ⟨by decide, ⟨{ physOffset := 0, size := 0x10000, isFree := true }, by decide, rfl, by decide,
    by decide⟩, fun h => ?_⟩
  obtain ⟨b, hb, hfree, hge, hlt⟩ := h
  rcases List.mem_cons.1 hb with heq | hb
  · rw [heq] at hfree
    cases hfree
  · rw [List.mem_singleton.1 hb] at hge
    exact absurd hge (by decide)

end DirectMem

end PS4Recomp.Runtime
