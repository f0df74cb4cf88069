import PS4Recomp.Library.Readers

/-!
# param.sfo in the runtime

`ps4_sfo.c`: the header is checked once, and the entries are read at every look-up.

* `strnlen`, `strcmpEq`, `memcpy` — string functions on the bytes from a pointer to the end of the buffer;
* `Context`, `ps4SfoLoadMemory` — the context and the check of the header;
* `keyMatches`, `findEntry`, `ps4SfoGetInt`, `ps4SfoGetString` — the look-ups;
* `Context.entryKey`, `Context.FirstWith` — the key of an entry, and the first entry with a key;
* `Context.KeySafe`, `Context.DataSafe` — a 32-bit sum that wraps hides nothing that is outside;
* `findFrom_eq`, `lookup_ne_none_iff` — what the loop finds, and when a look-up stays inside;
* **`ps4_sfo_in_bounds_iff`** — the look-ups read inside the buffer exactly when no sum does.

A read outside the buffer makes a function `none`.
-/

namespace PS4Recomp.Runtime.Sfo

open Library

/-! ### string functions -/

/-- `strnlen`. -/
def strnlen : Bytes → ℕ → Option ℕ
  | _, 0 => some 0
  | [], _ + 1 => none
  | c :: cs, n + 1 => if c = 0 then some 0 else (strnlen cs n).map (· + 1)

/-- Whether `strcmp` of a string in the buffer and another is 0. -/
def strcmpEq : Bytes → Bytes → Option Bool
  | [], _ => none
  | c :: _, [] => some (c == 0)
  | c :: cs, k :: ks => if c = k then strcmpEq cs ks else some false

/-- The bytes `memcpy` reads. -/
def memcpy (data : Bytes) (src n : ℕ) : Option Bytes := if n = 0 then some [] else slice data src (src + n)

/-! ### the functions -/

/-- `Ps4SfoContext`; the size is that of the buffer. -/
structure Context where
  data : Bytes
  keyTableOffset : BitVec 32
  dataTableOffset : BitVec 32
  entriesCount : BitVec 32

/-- `ps4_sfo_load_memory`: `none` is `false`. -/
def ps4SfoLoadMemory (buf : Bytes) : Option Context :=
  if buf.length < 20 ∨ buf.take 4 ≠ [0x00, 0x50, 0x53, 0x46] then none
  else
    match readLE 4 buf 8, readLE 4 buf 12, readLE 4 buf 16 with
    | some keyTable, some dataTable, some count =>
        if buf.length < keyTable.toNat ∨ buf.length < dataTable.toNat then none
        else if keyTable.toNat < 20 + 16 * count.toNat then none
        else some ⟨buf, keyTable, dataTable, count⟩
    | _, _, _ => none

/-- The offset of an entry. -/
def entryAt (i : ℕ) : ℕ := 20 + 16 * i

/-- A turn of the loop of `find_entry`: whether the entry has the key. -/
def keyMatches (s : Context) (key : Bytes) (i : ℕ) : Option Bool := do
  let keyOff ← readLE 2 s.data (entryAt i)
  let sum : BitVec 32 := s.keyTableOffset + keyOff.setWidth 32
  if s.data.length ≤ sum.toNat then some false
  else
    let curKey := s.data.drop (s.keyTableOffset.toNat + keyOff.toNat)
    let maxKeyLen := s.data.length - sum.toNat
    let len ← strnlen curKey maxKeyLen
    if len = maxKeyLen then some false else strcmpEq curKey key

/-- The loop of `find_entry`, with `n` entries left. -/
def findFrom (s : Context) (key : Bytes) : ℕ → ℕ → Option (Option ℕ)
  | 0, _ => some none
  | n + 1, i => do
      let found ← keyMatches s key i
      if found then some (some i) else findFrom s key n (i + 1)

/-- `find_entry`. -/
def findEntry (s : Context) (key : Bytes) : Option (Option ℕ) := findFrom s key s.entriesCount.toNat 0

/-- What `ps4_sfo_get_int` does with its entry. -/
def intOf (s : Context) (i : ℕ) : Option (Option (BitVec 32)) := do
  let dataOff : BitVec 32 ← readLE 4 s.data (entryAt i + 12)
  let paramLen : BitVec 32 ← readLE 4 s.data (entryAt i + 4)
  if paramLen ≠ 4 then some none
  else if s.data.length < (s.dataTableOffset + dataOff + 4).toNat then some none
  else (readLE 4 s.data (s.dataTableOffset.toNat + dataOff.toNat)).map some

/-- `ps4_sfo_get_int`: `some none` is `false`. -/
def ps4SfoGetInt (s : Context) (key : Bytes) : Option (Option (BitVec 32)) := do
  match ← findEntry s key with
  | none => some none
  | some i => intOf s i

/-- What `ps4_sfo_get_string` does with its entry. -/
def stringOf (s : Context) (outBufSz : ℕ) (i : ℕ) : Option (Option Bytes) := do
  let dataOff : BitVec 32 ← readLE 4 s.data (entryAt i + 12)
  let paramLen : BitVec 32 ← readLE 4 s.data (entryAt i + 4)
  if s.data.length < (s.dataTableOffset + dataOff + paramLen).toNat then some none
  else
    let copyLen := if paramLen.toNat < outBufSz then paramLen.toNat else outBufSz - 1
    (memcpy s.data (s.dataTableOffset.toNat + dataOff.toNat) copyLen).map fun bytes => some (bytes ++ [0])

/-- `ps4_sfo_get_string`: the bytes it leaves at the start of a buffer of `outBufSz` bytes. -/
def ps4SfoGetString (s : Context) (key : Bytes) (outBufSz : ℕ) : Option (Option Bytes) :=
  if outBufSz = 0 then some none
  else do
    match ← findEntry s key with
    | none => some none
    | some i => stringOf s outBufSz i

/-! ### strings in the buffer -/

theorem strnlen_of_mem {l : Bytes} (h : 0 ∈ l) (n : ℕ) :
    strnlen l n = some (min n (l.takeWhile (· ≠ 0)).length) := by
  induction l generalizing n with
  | nil => cases h
  | cons c l ih =>
      cases n with
      | zero => rw [strnlen, Nat.zero_min]
      | succ n =>
          by_cases hc : c = 0
          · rw [strnlen, if_pos hc, List.takeWhile_cons_of_neg (by simp [hc])]
            rfl
          · have hl : 0 ∈ l := (List.mem_cons.1 h).resolve_left (Ne.symm hc)
            rw [strnlen, if_neg hc, List.takeWhile_cons_of_pos (by exact decide_eq_true hc), ih hl, List.length_cons]
            exact congrArg some (Nat.succ_min_succ ..).symm

theorem strnlen_of_not_mem {l : Bytes} (h : 0 ∉ l) (n : ℕ) :
    strnlen l n = if n ≤ l.length then some n else none := by
  induction l generalizing n with
  | nil =>
      cases n with
      | zero => rfl
      | succ n => rfl
  | cons c l ih =>
      have hc : c ≠ 0 := fun hc => h (hc ▸ List.mem_cons_self)
      cases n with
      | zero => rfl
      | succ n =>
          rw [strnlen, if_neg hc, ih fun hl => h (List.mem_cons_of_mem c hl), List.length_cons]
          by_cases hn : n ≤ l.length
          · rw [if_pos hn, if_pos (by omega)]
            rfl
          · rw [if_neg hn, if_neg (by omega)]
            rfl

theorem strcmpEq_of_mem {l key : Bytes} (h : 0 ∈ l) (hkey : 0 ∉ key) :
    strcmpEq l key = some (decide (l.takeWhile (· ≠ 0) = key)) := by
  induction l generalizing key with
  | nil => cases h
  | cons c l ih =>
      by_cases hc : c = 0
      · rw [List.takeWhile_cons_of_neg (by simp [hc])]
        cases key with
        | nil => simp [strcmpEq, hc]
        | cons k ks =>
            have hk : c ≠ k := fun hk => hkey (hc ▸ hk ▸ List.mem_cons_self)
            rw [strcmpEq, if_neg hk]
            rfl
      · rw [List.takeWhile_cons_of_pos (by exact decide_eq_true hc)]
        have hl : 0 ∈ l := (List.mem_cons.1 h).resolve_left (Ne.symm hc)
        cases key with
        | nil =>
            rw [strcmpEq, beq_false_of_ne hc]
            rfl
        | cons k ks =>
            rw [strcmpEq]
            by_cases hk : c = k
            · rw [if_pos hk, ih hl fun hks => hkey (List.mem_cons_of_mem k hks), hk]
              simp only [List.cons.injEq, true_and]
            · rw [if_neg hk, decide_eq_false fun heq => hk (List.cons.inj heq).1]

theorem length_takeWhile_lt {l : Bytes} (h : 0 ∈ l) : (l.takeWhile (· ≠ 0)).length < l.length := by
  refine lt_of_le_of_ne (List.takeWhile_prefix _).length_le fun heq => ?_
  have hall := (List.takeWhile_prefix (p := (· ≠ (0 : BitVec 8))) (l := l)).eq_of_length heq
  rw [← hall] at h
  have hne := List.mem_takeWhile_imp h
  simp at hne

/-! ### keys -/

namespace Context

/-- The key offset of an entry. -/
def keyOff (s : Context) (i : ℕ) : BitVec 16 := BitVec.ofNat 16 (leNat (bytesAt s.data.get (entryAt i) 2))

/-- A 32-bit field of an entry. -/
def field (s : Context) (i at' : ℕ) : BitVec 32 := BitVec.ofNat 32 (leNat (bytesAt s.data.get (entryAt i + at') 4))

/-- The sum that `find_entry` compares. -/
def keySum (s : Context) (i : ℕ) : BitVec 32 := s.keyTableOffset + (s.keyOff i).setWidth 32

/-- The bytes from the key of an entry on. -/
def keyBytes (s : Context) (i : ℕ) : Bytes := s.data.drop (s.keyTableOffset.toNat + (s.keyOff i).toNat)

/-- The key of an entry, if it has one. -/
def entryKey (s : Context) (i : ℕ) : Option Bytes :=
  if (s.keySum i).toNat < s.data.length ∧ 0 ∈ s.keyBytes i then some ((s.keyBytes i).takeWhile (· ≠ 0)) else none

/-- The key is looked for inside the buffer: the sum does not wrap, or the buffer ends a string there. -/
def KeySafe (s : Context) (i : ℕ) : Prop :=
  (s.keySum i).toNat < s.data.length → 2 ^ 32 ≤ s.keyTableOffset.toNat + (s.keyOff i).toNat → 0 ∈ s.keyBytes i

/-- The entries that `find_entry` reads. -/
def Reached (s : Context) (key : Bytes) (i : ℕ) : Prop :=
  i < s.entriesCount.toNat ∧ ∀ j < i, s.entryKey j ≠ some key

/-- The first entry with a key. -/
def FirstWith (s : Context) (key : Bytes) (i : ℕ) : Prop := s.Reached key i ∧ s.entryKey i = some key

/-- Where the sum of an entry's offsets and a length `len` wraps and passes, `n` bytes of the data are in the buffer. -/
def DataSafe (s : Context) (i : ℕ) (len : BitVec 32) (n : ℕ) : Prop :=
  2 ^ 32 ≤ s.dataTableOffset.toNat + (s.field i 12).toNat + len.toNat →
    (s.dataTableOffset + s.field i 12 + len).toNat ≤ s.data.length → n = 0 ∨
      s.dataTableOffset.toNat + (s.field i 12).toNat + n ≤ s.data.length

/-- What `ps4_sfo_load_memory` has checked. -/
structure Checked (s : Context) : Prop where
  keys : s.keyTableOffset.toNat ≤ s.data.length
  data : s.dataTableOffset.toNat ≤ s.data.length
  entries : 20 + 16 * s.entriesCount.toNat ≤ s.keyTableOffset.toNat

end Context

theorem checked_of_load {buf : Bytes} {s : Context} (h : ps4SfoLoadMemory buf = some s) : s.Checked := by
  rw [ps4SfoLoadMemory] at h
  split at h
  · cases h
  · split at h
    · split at h
      · cases h
      · split at h
        · cases h
        · cases h
          exact ⟨by simp only; omega, by simp only; omega, by simp only; omega⟩
    · cases h

section Lookups

variable {s : Context} {key : Bytes} {i : ℕ}

theorem readLE_keyOff (h : s.Checked) (hi : i < s.entriesCount.toNat) :
    readLE 2 s.data (entryAt i) = some (s.keyOff i) := by
  have hkeys := h.keys
  have hentries := h.entries
  exact if_pos (by rw [entryAt]; omega)

theorem readLE_field (h : s.Checked) (hi : i < s.entriesCount.toNat) {at' : ℕ} (hat : at' ≤ 12) :
    readLE 4 s.data (entryAt i + at') = some (s.field i at') := by
  have hkeys := h.keys
  have hentries := h.entries
  exact if_pos (by rw [entryAt]; omega)

theorem keyMatches_eq (h : s.Checked) (hkey : 0 ∉ key) (hi : i < s.entriesCount.toNat) :
    (s.KeySafe i → keyMatches s key i = some (decide (s.entryKey i = some key))) ∧
      (¬ s.KeySafe i → keyMatches s key i = none) := by
  have hlen : (s.keyBytes i).length = s.data.length - (s.keyTableOffset.toNat + (s.keyOff i).toNat) :=
    List.length_drop
  have hsum : (s.keySum i).toNat = (s.keyTableOffset.toNat + (s.keyOff i).toNat) % 2 ^ 32 := by
    rw [Context.keySum, BitVec.toNat_add, BitVec.toNat_setWidth_of_le (by decide)]
  have hstep : keyMatches s key i =
      if s.data.length ≤ (s.keySum i).toNat then some false
      else (strnlen (s.keyBytes i) (s.data.length - (s.keySum i).toNat)).bind fun len =>
        if len = s.data.length - (s.keySum i).toNat then some false else strcmpEq (s.keyBytes i) key := by
    rw [keyMatches, readLE_keyOff h hi]
    rfl
  have hkto := s.keyTableOffset.isLt
  have hoff := (s.keyOff i).isLt
  rw [hstep]
  by_cases hin : s.data.length ≤ (s.keySum i).toNat
  · rw [if_pos hin]
    refine ⟨fun _ => ?_, fun hunsafe => absurd (fun hlt => absurd hlt (by omega)) hunsafe⟩
    rw [Context.entryKey, if_neg fun hc => absurd hc.1 (by omega)]
    rfl
  · rw [if_neg hin]
    by_cases hnul : 0 ∈ s.keyBytes i
    · have hlt := length_takeWhile_lt hnul
      refine ⟨fun _ => ?_, fun hunsafe => absurd (fun _ _ => hnul) hunsafe⟩
      rw [strnlen_of_mem hnul, Option.bind_some, if_neg (by omega), strcmpEq_of_mem hnul hkey, Context.entryKey,
        if_pos ⟨by omega, hnul⟩]
      simp only [Option.some.injEq]
    · rw [strnlen_of_not_mem hnul]
      have hnone : s.entryKey i = none := if_neg fun hc => hnul hc.2
      constructor
      · intro hsafe
        have hwrap : s.keyTableOffset.toNat + (s.keyOff i).toNat < 2 ^ 32 := by
          by_contra hge
          exact hnul (hsafe (by omega) (by omega))
        rw [if_pos (by omega), Option.bind_some, if_pos rfl, hnone]
        rfl
      · intro hunsafe
        have hwrap : 2 ^ 32 ≤ s.keyTableOffset.toNat + (s.keyOff i).toNat := by
          by_contra hlt
          exact hunsafe fun _ hge => absurd hge hlt
        rw [if_neg (by omega)]
        rfl

/-- The loop finds the first entry with the key, if every key it looks at is looked for inside. -/
theorem findFrom_eq (h : s.Checked) (hkey : 0 ∉ key) {n : ℕ} (hn : n + i = s.entriesCount.toNat)
    (hpast : ∀ j < i, s.entryKey j ≠ some key) :
    (∀ r, findFrom s key n i = some r → ∀ j, r = some j ↔ s.FirstWith key j) ∧
      (findFrom s key n i ≠ none ↔ ∀ j, i ≤ j → s.Reached key j → s.KeySafe j) := by
  induction n generalizing i with
  | zero =>
      refine ⟨fun r hr j => ?_, iff_of_true (fun hc => (by cases hc)) fun j hj hreached => ?_⟩
      · cases hr
        exact iff_of_false (fun hc => (by cases hc)) fun hj => hpast j (by have := hj.1.1; omega) hj.2
      · exact absurd hreached.1 (by omega)
  | succ n ih =>
      have hi : i < s.entriesCount.toNat := by omega
      have hreached : s.Reached key i := ⟨hi, hpast⟩
      by_cases hsafe : s.KeySafe i
      · have hturn : findFrom s key (n + 1) i =
            if s.entryKey i = some key then some (some i) else findFrom s key n (i + 1) := by
          rw [findFrom, (keyMatches_eq h hkey hi).1 hsafe]
          simp only [Option.bind_eq_bind, Option.bind_some, decide_eq_true_eq]
        rw [hturn]
        by_cases hmatch : s.entryKey i = some key
        · rw [if_pos hmatch]
          refine ⟨fun r hr j => ?_, iff_of_true (fun hc => (by cases hc)) fun j hij hj => ?_⟩
          · cases hr
            constructor
            · intro hj
              cases hj
              exact ⟨hreached, hmatch⟩
            · intro hj
              obtain hlt | rfl | hgt := Nat.lt_trichotomy j i
              · exact absurd hj.2 (hpast j hlt)
              · rfl
              · exact absurd hmatch (hj.1.2 i hgt)
          · obtain rfl | hlt := Nat.eq_or_lt_of_le hij
            · exact hsafe
            · exact absurd hmatch (hj.2 i hlt)
        · rw [if_neg hmatch]
          have hpast' : ∀ j < i + 1, s.entryKey j ≠ some key := by
            intro j hj
            obtain rfl | hlt := Nat.eq_or_lt_of_le (Nat.le_of_lt_succ hj)
            · exact hmatch
            · exact hpast j hlt
          obtain ⟨hfound, hrest⟩ := ih (by omega) hpast'
          refine ⟨hfound, hrest.trans ⟨fun hall j hij hj => ?_, fun hall j hij hj => hall j (by omega) hj⟩⟩
          obtain rfl | hlt := Nat.eq_or_lt_of_le hij
          · exact hsafe
          · exact hall j hlt hj
      · have hturn : findFrom s key (n + 1) i = none := by
          rw [findFrom, (keyMatches_eq h hkey hi).2 hsafe]
          rfl
        rw [hturn]
        refine ⟨fun r hr => (by cases hr), iff_of_false (fun hc => hc rfl) fun hall => ?_⟩
        exact hsafe (hall i (Nat.le_refl i) hreached)

/-- A look-up reads inside the buffer if the search does and what is done with the first entry does. -/
theorem lookup_ne_none_iff {α : Type} (h : s.Checked) (hkey : 0 ∉ key) (f : ℕ → Option (Option α)) :
    ((findEntry s key).bind fun
        | none => some none
        | some i => f i) ≠ none ↔
      (∀ i, s.Reached key i → s.KeySafe i) ∧ ∀ i, s.FirstWith key i → f i ≠ none := by
  obtain ⟨hfound, hsafe⟩ := findFrom_eq (i := 0) h hkey (Nat.add_zero _) fun j hj => absurd hj (Nat.not_lt_zero j)
  rw [findEntry]
  cases hfind : findFrom s key s.entriesCount.toNat 0 with
  | none =>
      exact iff_of_false (fun hc => hc rfl) fun hall => hsafe.2 (fun j _ => hall.1 j) hfind
  | some r =>
      have hkeys := hsafe.1 (by rw [hfind]; exact fun hc => (by cases hc))
      cases r with
      | none =>
          refine iff_of_true (fun hc => (by cases hc)) ⟨fun i => hkeys i (Nat.zero_le i), fun i hi => ?_⟩
          exact absurd ((hfound none hfind i).2 hi) fun hc => (by cases hc)
      | some j =>
          refine ⟨fun hj => ⟨fun i => hkeys i (Nat.zero_le i), fun i hi => ?_⟩, fun hall => ?_⟩
          · cases (hfound _ hfind i).2 hi
            exact hj
          · exact hall.2 j ((hfound _ hfind j).1 rfl)

theorem data_read_iff {len : BitVec 32} {n : ℕ} (hn : n ≤ len.toNat)
    (hin : (s.dataTableOffset + s.field i 12 + len).toNat ≤ s.data.length) :
    s.DataSafe i len n ↔ n = 0 ∨ s.dataTableOffset.toNat + (s.field i 12).toNat + n ≤ s.data.length := by
  constructor
  · intro hsafe
    by_cases hwrap : 2 ^ 32 ≤ s.dataTableOffset.toNat + (s.field i 12).toNat + len.toNat
    · exact hsafe hwrap hin
    · rw [BitVec.toNat_add, BitVec.toNat_add] at hin
      exact .inr (by omega)
  · exact fun hread _ _ => hread

theorem intOf_ne_none_iff (h : s.Checked) (hi : i < s.entriesCount.toNat) :
    intOf s i ≠ none ↔ (s.field i 4 = 4 → s.DataSafe i 4 4) := by
  rw [intOf, readLE_field h hi (by omega), readLE_field h hi (by omega)]
  simp only [Option.bind_eq_bind, Option.bind_some]
  by_cases hlen : s.field i 4 = 4
  · rw [if_neg (not_not_intro hlen)]
    by_cases hin : s.data.length < (s.dataTableOffset + s.field i 12 + 4).toNat
    · rw [if_pos hin]
      exact iff_of_true (fun hc => (by cases hc)) fun _ _ hle => absurd hle (by omega)
    · rw [if_neg hin, data_read_iff (Nat.le_refl 4) (by omega), readLE]
      by_cases hread : s.dataTableOffset.toNat + (s.field i 12).toNat + 4 ≤ s.data.length
      · rw [if_pos hread]
        exact iff_of_true (fun hc => (by cases hc)) fun _ => .inr hread
      · rw [if_neg hread]
        exact iff_of_false (fun hc => hc rfl) fun hall => by have := hall hlen; omega
  · rw [if_pos hlen]
    exact iff_of_true (fun hc => (by cases hc)) fun hc => absurd hc hlen

/-- How many bytes `ps4_sfo_get_string` copies. -/
def copyLen (paramLen : BitVec 32) (outBufSz : ℕ) : ℕ :=
  if paramLen.toNat < outBufSz then paramLen.toNat else outBufSz - 1

theorem stringOf_ne_none_iff (h : s.Checked) (hi : i < s.entriesCount.toNat) (outBufSz : ℕ) :
    stringOf s outBufSz i ≠ none ↔ s.DataSafe i (s.field i 4) (copyLen (s.field i 4) outBufSz) := by
  rw [stringOf, readLE_field h hi (by omega), readLE_field h hi (by omega)]
  simp only [Option.bind_eq_bind, Option.bind_some]
  change (if _ then _ else (memcpy _ _ (copyLen (s.field i 4) outBufSz)).map _) ≠ none ↔ _
  have hcopy : copyLen (s.field i 4) outBufSz ≤ (s.field i 4).toNat := by
    rw [copyLen]
    split <;> omega
  generalize copyLen (s.field i 4) outBufSz = n at hcopy ⊢
  by_cases hin : s.data.length < (s.dataTableOffset + s.field i 12 + s.field i 4).toNat
  · rw [if_pos hin]
    exact iff_of_true (fun hc => (by cases hc)) fun _ hle => absurd hle (by omega)
  · rw [if_neg hin, data_read_iff hcopy (by omega), memcpy]
    by_cases hzero : n = 0
    · rw [if_pos hzero]
      exact iff_of_true (fun hc => (by cases hc)) (.inl hzero)
    · rw [if_neg hzero, slice]
      by_cases hread : s.dataTableOffset.toNat + (s.field i 12).toNat + n ≤ s.data.length
      · rw [if_pos ⟨by omega, hread⟩]
        exact iff_of_true (fun hc => (by cases hc)) (.inr hread)
      · rw [if_neg fun hc => hread hc.2]
        exact iff_of_false (fun hc => hc rfl) (by omega)

end Lookups

/-- The look-ups read inside the buffer exactly when, of the sums they compare, none that wraps passes for one inside. -/
theorem ps4_sfo_in_bounds_iff {buf key : Bytes} {s : Context} (hload : ps4SfoLoadMemory buf = some s)
    (hkey : 0 ∉ key) :
    (ps4SfoGetInt s key ≠ none ↔ (∀ i, s.Reached key i → s.KeySafe i) ∧
        ∀ i, s.FirstWith key i → s.field i 4 = 4 → s.DataSafe i 4 4) ∧
      ∀ outBufSz, ps4SfoGetString s key outBufSz ≠ none ↔ outBufSz = 0 ∨
        (∀ i, s.Reached key i → s.KeySafe i) ∧
          ∀ i, s.FirstWith key i → s.DataSafe i (s.field i 4) (copyLen (s.field i 4) outBufSz) := by
  have h := checked_of_load hload
  constructor
  · refine (lookup_ne_none_iff h hkey (intOf s)).trans (and_congr_right' (forall₂_congr fun i hi => ?_))
    exact intOf_ne_none_iff h hi.1.1
  · intro outBufSz
    rw [ps4SfoGetString]
    by_cases hsz : outBufSz = 0
    · rw [if_pos hsz]
      exact iff_of_true (fun hc => (by cases hc)) (.inl hsz)
    · rw [if_neg hsz, or_iff_right hsz]
      refine (lookup_ne_none_iff h hkey (stringOf s outBufSz)).trans (and_congr_right' (forall₂_congr fun i hi => ?_))
      exact stringOf_ne_none_iff h hi.1.1 outBufSz

/-- One entry with the key `A`, whose data is `off` bytes after the data table at 38. -/
def oneInt (off : Bytes) : Bytes :=
  [0x00, 0x50, 0x53, 0x46, 1, 1, 0, 0, 36, 0, 0, 0, 38, 0, 0, 0, 1, 0, 0, 0] ++ [0, 0, 4, 4, 4, 0, 0, 0, 4, 0, 0, 0] ++
    off ++ [0x41, 0] ++ [1, 2, 3, 4]

theorem ps4_sfo_in_bounds_iff_oneInt : ∃ s, ps4SfoLoadMemory (oneInt [0, 0, 0, 0]) = some s ∧
    ps4SfoGetInt s [0x41] ≠ none := by
  refine ⟨_, rfl, ?_⟩
  refine (@ps4_sfo_in_bounds_iff (oneInt [0, 0, 0, 0]) [0x41] _ rfl (by decide)).1.2 ⟨?_, ?_⟩
  · rintro i ⟨hi, -⟩ - hwrap
    obtain rfl := Nat.lt_one_iff.1 hi
    exact absurd hwrap (by decide)
  · rintro i ⟨⟨hi, -⟩, -⟩ - hwrap
    obtain rfl := Nat.lt_one_iff.1 hi
    exact absurd hwrap (by decide)

/-- The sum of the offset and the length is 2 ^ 32 + 4. -/
theorem sfo_not_in_bounds : ¬ ∀ (buf key : Bytes) (s : Context), ps4SfoLoadMemory buf = some s → 0 ∉ key →
    ps4SfoGetInt s key ≠ none ∧ ∀ outBufSz, ps4SfoGetString s key outBufSz ≠ none := by
  intro hall
  exact (hall (oneInt [0xda, 0xff, 0xff, 0xff]) [0x41] _ rfl (by decide)).1 (by decide)

end PS4Recomp.Runtime.Sfo
