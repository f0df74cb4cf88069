import PS4Recomp.Elf.Image
import PS4Recomp.Library.Readers

/-!
# Pointers in unwind records

The encoded pointers of `.eh_frame` and `.eh_frame_hdr`, and the range of a function made of two of them.

* `readULEB`, `readSLEB`, `readU64At`, `readFormat` — the numbers of the formats, `readFormat_exact` —
  each depends on exactly the bytes it takes;
* `applied`, `applyEH`, `ehRead` — what is added to a number, and the pointer it may stand for;
* `readFDERange`, `readFDERange_total` — the two fields of a record, which are read without a panic;
* `extentAt` — the range without its end in the record, `FdeFields` — how it is put together;
* **`extentAt_onlyFrom`** — the range is decoded only from the bytes of a record exactly when the fields end
  in it, and so does the pointer of an indirect encoding.

A result is `none` where the code panics, and `some none` where it is not `ok`. An offset in the image,
which is an `int`, is a natural number.
-/

namespace PS4Recomp.Elf

open Library

/-! ### encodings -/

def dwEHPEOmit : BitVec 8 := 0xff
def dwEHPEAbsptr : BitVec 8 := 0x00
def dwEHPEUleb : BitVec 8 := 0x01
def dwEHPEUdata2 : BitVec 8 := 0x02
def dwEHPEUdata4 : BitVec 8 := 0x03
def dwEHPEUdata8 : BitVec 8 := 0x04
def dwEHPESleb : BitVec 8 := 0x09
def dwEHPESdata2 : BitVec 8 := 0x0a
def dwEHPESdata4 : BitVec 8 := 0x0b
def dwEHPESdata8 : BitVec 8 := 0x0c
def dwEHPEpcrel : BitVec 8 := 0x10
def dwEHPEdatarel : BitVec 8 := 0x30
def dwEHPEIndirect : BitVec 8 := 0x80

/-- `readULEB`. -/
def readULEB (img : Bytes) (i limit : ℕ) : Option (Option (BitVec 64 × ℕ)) :=
  readLEB false img limit 10 i 0 0

/-- `readSLEB`. -/
def readSLEB (img : Bytes) (i limit : ℕ) : Option (Option (BitVec 64 × ℕ)) :=
  readLEB true img limit 10 i 0 0

/-- `readU64At`. -/
def readU64At : Reader (BitVec 64) := fixedReader 8 (BitVec.setWidth 64)

/-- The number of a format. -/
def readFormat (format : BitVec 8) : Reader (BitVec 64) :=
  if format = dwEHPEAbsptr ∨ format = dwEHPEUdata8 then readU64At
  else if format = dwEHPEUleb then fun img off => readULEB img off img.length
  else if format = dwEHPEUdata2 then fixedReader 2 (BitVec.setWidth 64)
  else if format = dwEHPEUdata4 then fixedReader 4 (BitVec.setWidth 64)
  else if format = dwEHPESleb then fun img off => readSLEB img off img.length
  else if format = dwEHPESdata2 then fixedReader 2 (BitVec.signExtend 64)
  else if format = dwEHPESdata4 then fixedReader 4 (BitVec.signExtend 64)
  else if format = dwEHPESdata8 then readU64At
  else fun _ _ => some none

/-- What `applyEH` computes before it follows a pointer. -/
def applied (enc : BitVec 8) (raw fieldVA hdr : BitVec 64) : Option (BitVec 64) :=
  let addr :=
    if enc &&& 0x70 = 0 then some raw
    else if enc &&& 0x70 = dwEHPEpcrel then some (fieldVA + raw)
    else if enc &&& 0x70 = dwEHPEdatarel then some (hdr + raw)
    else none
  addr.filter fun a => !a.msb

/-- `applyEH`. -/
def applyEH (enc : BitVec 8) (raw fieldVA hdr : BitVec 64) (img : Bytes) : Option (Option (BitVec 64)) :=
  match applied enc raw fieldVA hdr with
  | none => some none
  | some val =>
      if enc &&& dwEHPEIndirect ≠ 0 then
        if len64 img < val + 8 then some none else (readLE 8 img val.toNat).map some
      else some (some val)

/-- `ehDec.read`. -/
def ehRead (hdr : BitVec 64) (enc : BitVec 8) : Reader (BitVec 64) := fun img off =>
  if enc = dwEHPEOmit then some (some (0, off))
  else (readFormat (enc &&& 0x0f) img off).bind fun r =>
    match r with
    | none => some none
    | some (raw, next) =>
        (applyEH enc raw (BitVec.ofNat 64 off) hdr img).map fun val => val.map fun v => (v, next)

/-- `readFDERange`. -/
def readFDERange (enc : BitVec 8) : Reader (BitVec 64 × BitVec 64) := fun img off =>
  if enc = dwEHPEOmit then some none
  else (ehRead 0 enc img off).bind fun r =>
    match r with
    | none => some none
    | some (start, off) =>
        (ehRead 0 (enc &&& 0x0f) img off).map fun r =>
          match r with
          | none => none
          | some (size, off) => if size = 0 ∨ start + size < start then none else some ((start, size), off)

/-! ### no panics -/

variable {img : Bytes} {enc : BitVec 8}

theorem setWidth_injective {n : ℕ} (h : n ≤ 64) :
    Function.Injective (BitVec.setWidth 64 : BitVec n → BitVec 64) := by
  intro x y hxy
  have hnat := congrArg (BitVec.setWidth n) hxy
  rwa [BitVec.setWidth_setWidth_of_le _ h, BitVec.setWidth_setWidth_of_le _ h, BitVec.setWidth_eq,
    BitVec.setWidth_eq] at hnat

theorem signExtend_injective {n : ℕ} (h : n ≤ 64) :
    Function.Injective (BitVec.signExtend 64 : BitVec n → BitVec 64) := by
  intro x y hxy
  have hint := congrArg BitVec.toInt hxy
  rw [BitVec.toInt_signExtend_of_le h, BitVec.toInt_signExtend_of_le h] at hint
  exact BitVec.eq_of_toInt_eq hint

theorem readFormat_exact (format : BitVec 8) : (readFormat format).Exact := by
  rw [readFormat]
  split
  · exact fixedReader_exact (by decide) (setWidth_injective (by decide))
  split
  · exact lebReader_exact false
  split
  · exact fixedReader_exact (by decide) (setWidth_injective (by decide))
  split
  · exact fixedReader_exact (by decide) (setWidth_injective (by decide))
  split
  · exact lebReader_exact true
  split
  · exact fixedReader_exact (by decide) (signExtend_injective (by decide))
  split
  · exact fixedReader_exact (by decide) (signExtend_injective (by decide))
  split
  · exact fixedReader_exact (by decide) (setWidth_injective (by decide))
  · exact Reader.exact_none

/-- An address that is not negative has room for eight bytes behind it. -/
theorem applied_lt {raw fieldVA hdr val : BitVec 64} (h : applied enc raw fieldVA hdr = some val) :
    val.toNat < 2 ^ 63 := by
  have hmsb := (Option.filter_eq_some_iff.1 h).2
  rw [Bool.not_eq_true', BitVec.msb_eq_false_iff_two_mul_lt] at hmsb
  omega

theorem len64_toNat_lt (hlen : img.length < 2 ^ 63) : (len64 img).toNat = img.length := by
  rw [len64, BitVec.toNat_ofNat, Nat.mod_eq_of_lt (by omega)]

theorem toNat_add_word {pos k : BitVec 64} {n : ℕ} (hk : k.toNat = n) (h : pos.toNat + n < 2 ^ 64) :
    (pos + k).toNat = pos.toNat + n := by
  rw [← hk] at h ⊢
  exact BitVec.toNat_add_of_lt h

theorem applyEH_total (enc : BitVec 8) (raw fieldVA hdr : BitVec 64) (hlen : img.length < 2 ^ 63) :
    ∃ r, applyEH enc raw fieldVA hdr img = some r := by
  rw [applyEH]
  cases hval : applied enc raw fieldVA hdr with
  | none => exact ⟨_, rfl⟩
  | some val =>
      dsimp only
      split
      · split
        · exact ⟨_, rfl⟩
        · rename_i hfit
          have hval63 := applied_lt hval
          rw [BitVec.not_lt, BitVec.le_def, len64_toNat_lt hlen, toNat_add_word (n := 8) rfl (by omega)] at hfit
          obtain ⟨v, hv⟩ := readLE_total 8 img hfit
          rw [hv]
          exact ⟨_, rfl⟩
      · exact ⟨_, rfl⟩

theorem ehRead_total (hdr : BitVec 64) (enc : BitVec 8) (hlen : img.length < 2 ^ 63) (off : ℕ) :
    ∃ r, ehRead hdr enc img off = some r := by
  rw [ehRead]
  split
  · exact ⟨_, rfl⟩
  · obtain ⟨r, hr⟩ := (readFormat_exact (enc &&& 0x0f)).total img off
    rw [hr, Option.bind_some]
    cases r with
    | none => exact ⟨_, rfl⟩
    | some taken =>
        obtain ⟨raw, next⟩ := taken
        obtain ⟨val, hval⟩ := applyEH_total enc raw (BitVec.ofNat 64 off) hdr hlen
        dsimp only
        rw [hval]
        exact ⟨_, rfl⟩

theorem readFDERange_total (enc : BitVec 8) (hlen : img.length < 2 ^ 63) (off : ℕ) :
    ∃ r, readFDERange enc img off = some r := by
  rw [readFDERange]
  split
  · exact ⟨_, rfl⟩
  · obtain ⟨r, hr⟩ := ehRead_total 0 enc hlen off
    rw [hr, Option.bind_some]
    cases r with
    | none => exact ⟨_, rfl⟩
    | some taken =>
        obtain ⟨start, mid⟩ := taken
        obtain ⟨r', hr'⟩ := ehRead_total 0 (enc &&& 0x0f) hlen mid
        dsimp only
        rw [hr']
        exact ⟨_, rfl⟩

/-! ### the bytes of a range -/

/-- The address that the first field comes to, before a pointer is followed. -/
def pointerAt (enc : BitVec 8) (img : Bytes) (off : ℕ) : Option (BitVec 64) :=
  match readFormat (enc &&& 0x0f) img off with
  | some (some (raw, _)) => applied enc raw (BitVec.ofNat 64 off) 0
  | _ => none

/-- How the range of a record is put together. -/
structure FdeFields (enc : BitVec 8) (img : Bytes) (off : ℕ) (start size : BitVec 64) (next : ℕ)
    (raw : BitVec 64) (mid : ℕ) (p : BitVec 64) : Prop where
  encoded : enc ≠ dwEHPEOmit
  first : readFormat (enc &&& 0x0f) img off = some (some (raw, mid))
  pointer : applied enc raw (BitVec.ofNat 64 off) 0 = some p
  value : if enc &&& dwEHPEIndirect ≠ 0 then p + 8 ≤ len64 img ∧ readLE 8 img p.toNat = some start
    else start = p
  second : readFormat (enc &&& 0x0f) img mid = some (some (size, next))
  positive : size.msb = false
  range : size ≠ 0 ∧ start ≤ start + size

theorem applyEH_eq_some {raw fieldVA hdr v : BitVec 64} :
    applyEH enc raw fieldVA hdr img = some (some v) ↔ ∃ p, applied enc raw fieldVA hdr = some p ∧
      if enc &&& dwEHPEIndirect ≠ 0 then p + 8 ≤ len64 img ∧ readLE 8 img p.toNat = some v else v = p := by
  rw [applyEH]
  cases hval : applied enc raw fieldVA hdr with
  | none => exact iff_of_false (fun h => (by cases h)) fun ⟨_, h, _⟩ => (by cases h)
  | some val =>
      have hsame : ∀ {P : BitVec 64 → Prop}, (∃ p, some val = some p ∧ P p) ↔ P val :=
        ⟨fun ⟨p, h, hp⟩ => (by cases h; exact hp), fun h => ⟨val, rfl, h⟩⟩
      rw [hsame]
      dsimp only
      split
      · split
        · rename_i hout
          exact iff_of_false (fun h => (by cases h)) fun h => absurd h.1 (BitVec.not_le.2 hout)
        · rename_i hin
          rw [and_iff_right (BitVec.not_lt.1 hin)]
          cases readLE 8 img val.toNat with
          | none => exact iff_of_false (fun h => (by cases h)) fun h => (by cases h)
          | some w => exact ⟨fun h => (by cases h; rfl), fun h => (by cases h; rfl)⟩
      · exact ⟨fun h => (by cases h; rfl), fun h => (by rw [h])⟩

theorem ehRead_eq_some {hdr v : BitVec 64} {off next : ℕ} (henc : enc ≠ dwEHPEOmit) :
    ehRead hdr enc img off = some (some (v, next)) ↔
      ∃ raw, readFormat (enc &&& 0x0f) img off = some (some (raw, next)) ∧
        applyEH enc raw (BitVec.ofNat 64 off) hdr img = some (some v) := by
  rw [ehRead, if_neg henc]
  cases readFormat (enc &&& 0x0f) img off with
  | none => exact iff_of_false (fun h => (by cases h)) fun ⟨_, h, _⟩ => (by cases h)
  | some r =>
      cases r with
      | none => exact iff_of_false (fun h => (by cases h)) fun ⟨_, h, _⟩ => (by cases h)
      | some taken =>
          obtain ⟨raw, mid⟩ := taken
          rw [Option.bind_some]
          dsimp only
          constructor
          · intro h
            obtain ⟨val, hval, hmap⟩ := Option.map_eq_some_iff.1 h
            obtain ⟨w, hw, heq⟩ := Option.map_eq_some_iff.1 hmap
            cases heq
            rw [hw] at hval
            exact ⟨raw, rfl, hval⟩
          · rintro ⟨raw', heq, hval⟩
            cases heq
            rw [hval]
            rfl

/-- The second field is a number of the same format, as it is. -/
theorem applyEH_format {raw fieldVA v : BitVec 64} :
    applyEH (enc &&& 0x0f) raw fieldVA 0 img = some (some v) ↔ v = raw ∧ raw.msb = false := by
  have hzero : (enc &&& 0x0f) &&& 0x70 = 0 ∧ (enc &&& 0x0f) &&& dwEHPEIndirect = 0 := by
    revert enc
    decide
  rw [applyEH_eq_some, applied, if_pos hzero.1]
  constructor
  · rintro ⟨p, hp, hv⟩
    rw [if_neg (by rw [hzero.2]; exact fun h => h rfl)] at hv
    obtain ⟨heq, hmsb⟩ := Option.filter_eq_some_iff.1 hp
    cases heq
    exact ⟨hv, by simpa using hmsb⟩
  · rintro ⟨rfl, hmsb⟩
    refine ⟨v, Option.filter_eq_some_iff.2 ⟨rfl, by simp [hmsb]⟩, ?_⟩
    rw [if_neg (by rw [hzero.2]; exact fun h => h rfl)]

theorem readFDERange_eq_some {off next : ℕ} {start size : BitVec 64} :
    readFDERange enc img off = some (some ((start, size), next)) ↔
      ∃ raw mid p, FdeFields enc img off start size next raw mid p := by
  have homit : enc &&& 0x0f ≠ dwEHPEOmit := by
    revert enc
    decide
  have hformat : (enc &&& 0x0f) &&& 0x0f = enc &&& 0x0f := by
    revert enc
    decide
  rw [readFDERange]
  by_cases henc : enc = dwEHPEOmit
  · rw [if_pos henc]
    exact iff_of_false (fun h => (by cases h)) fun ⟨_, _, _, h⟩ => h.encoded henc
  · rw [if_neg henc]
    constructor
    · intro h
      obtain ⟨r, hr, h⟩ := Option.bind_eq_some_iff.1 h
      cases r with
      | none => cases h
      | some taken =>
          obtain ⟨start', mid⟩ := taken
          obtain ⟨r', hr', h⟩ := Option.map_eq_some_iff.1 h
          cases r' with
          | none => cases h
          | some taken' =>
              obtain ⟨size', next'⟩ := taken'
              dsimp only at h
              split at h
              · cases h
              · rename_i hrange
                cases h
                rw [not_or, BitVec.not_lt] at hrange
                obtain ⟨raw, hfirst, happly⟩ := (ehRead_eq_some henc).1 hr
                obtain ⟨p, hp, hstart⟩ := applyEH_eq_some.1 happly
                obtain ⟨raw', hsecond, happly'⟩ := (ehRead_eq_some homit).1 hr'
                obtain ⟨rfl, hmsb⟩ := applyEH_format.1 happly'
                rw [hformat] at hsecond
                exact ⟨raw, mid, p, henc, hfirst, hp, hstart, hsecond, hmsb, hrange⟩
    · rintro ⟨raw, mid, p, h⟩
      have hr : ehRead 0 enc img off = some (some (start, mid)) :=
        (ehRead_eq_some henc).2 ⟨raw, h.first, applyEH_eq_some.2 ⟨p, h.pointer, h.value⟩⟩
      have hr' : ehRead 0 (enc &&& 0x0f) img mid = some (some (size, next)) :=
        (ehRead_eq_some homit).2 ⟨size, by rw [hformat]; exact h.second, applyEH_format.2 ⟨rfl, h.positive⟩⟩
      rw [hr, Option.bind_some]
      dsimp only
      rw [hr', Option.map_some]
      dsimp only
      rw [if_neg (by rw [not_or, BitVec.not_lt]; exact h.range)]

/-- The range of a record without its end there. -/
def extentAt (enc : BitVec 8) (img : Bytes) (off : ℕ) : Option (Option (BitVec 64 × BitVec 64)) :=
  (readFDERange enc img off).map fun r => r.map Prod.fst

theorem extentAt_eq_some {off : ℕ} {start size : BitVec 64} :
    extentAt enc img off = some (some (start, size)) ↔
      ∃ next raw mid p, FdeFields enc img off start size next raw mid p := by
  rw [extentAt]
  constructor
  · intro h
    obtain ⟨r, hr, h⟩ := Option.map_eq_some_iff.1 h
    obtain ⟨taken, rfl, heq⟩ := Option.map_eq_some_iff.1 h
    obtain ⟨range, next⟩ := taken
    cases heq
    exact ⟨next, readFDERange_eq_some.1 hr⟩
  · rintro ⟨next, h⟩
    rw [readFDERange_eq_some.2 h]
    rfl

/-- The range depends on no bytes outside `[lo, hi)`. -/
def OnlyFrom (lo hi : ℕ) (enc : BitVec 8) (img : Bytes) (off : ℕ) : Prop :=
  ∀ img', SameOn lo hi img img' → extentAt enc img' off = extentAt enc img off

/-- The fields end in the record, and so does the pointer of an indirect encoding. -/
structure FieldsIn (lo hi : ℕ) (enc : BitVec 8) (img : Bytes) (off next : ℕ) : Prop where
  stop : next ≤ hi
  pointer : enc &&& dwEHPEIndirect ≠ 0 → ∀ p, pointerAt enc img off = some p →
    lo ≤ p.toNat ∧ p.toNat + 8 ≤ hi

section

variable {off next mid : ℕ} {start size raw p : BitVec 64} {lo hi : ℕ}
  (h : FdeFields enc img off start size next raw mid p)

include h

theorem FdeFields.bounds : off < mid ∧ mid < next ∧ next ≤ img.length := by
  have hfirst := (readFormat_exact _).bounds h.first
  have hsecond := (readFormat_exact _).bounds h.second
  exact ⟨hfirst.1, hsecond⟩

theorem FdeFields.pointerAt_eq : pointerAt enc img off = some p := by
  rw [pointerAt, h.first]
  exact h.pointer

/-- The word that an indirect encoding stands for lies in the image. -/
theorem FdeFields.word (hlen : img.length < 2 ^ 63) (hind : enc &&& dwEHPEIndirect ≠ 0) :
    p.toNat + 8 ≤ img.length ∧ BitVec.ofNat 64 (leNat (bytesAt img.get p.toNat 8)) = start := by
  have hvalue := h.value
  rw [if_pos hind] at hvalue
  have hp := applied_lt h.pointer
  have hin : p.toNat + 8 ≤ img.length := by
    have hle := hvalue.1
    rwa [BitVec.le_def, len64_toNat_lt hlen, toNat_add_word (n := 8) rfl (by omega)] at hle
  have hword := hvalue.2
  rw [readLE, if_pos hin] at hword
  exact ⟨hin, Option.some.inj hword⟩

/-- A byte behind the record that the second field takes decides the size. -/
theorem FdeFields.stop_of_onlyFrom (hfrom : OnlyFrom lo hi enc img off) : next ≤ hi := by
  obtain ⟨hmid, hnext, hlen⟩ := h.bounds
  by_contra hgt
  have hset : SameOn lo hi img (img.set (next - 1) (img.get (next - 1) ^^^ 1)) :=
    sameOn_set img _ (by omega)
  have hrange := hfrom _ hset
  rw [extentAt_eq_some.2 ⟨next, raw, mid, p, h⟩] at hrange
  obtain ⟨next', raw', mid', p', h'⟩ := extentAt_eq_some.1 hrange
  have hfirst := (readFormat_exact _).same h.first (sameOn_set img (img.get (next - 1) ^^^ 1)
    (by omega : next - 1 < off ∨ mid ≤ next - 1))
  rw [h'.first] at hfirst
  cases hfirst
  obtain ⟨size', hsecond, hne⟩ := (readFormat_exact _).last h.second
    (sameOn_set img _ (.inr (Nat.le_refl _))) (get_set_self _ (by omega))
  rw [h'.second] at hsecond
  cases hsecond
  exact hne rfl

/-- A byte outside the record that the pointer stands for decides the start. -/
theorem FdeFields.pointer_of_onlyFrom (hlen : img.length < 2 ^ 63) (hlo : lo ≤ off)
    (hfrom : OnlyFrom lo hi enc img off) (hind : enc &&& dwEHPEIndirect ≠ 0) :
    lo ≤ p.toNat ∧ p.toNat + 8 ≤ hi := by
  obtain ⟨hmid, hnext, hend⟩ := h.bounds
  have hstop := h.stop_of_onlyFrom hfrom
  obtain ⟨hin, hword⟩ := h.word hlen hind
  by_contra hout
  obtain ⟨j, hj, hj', hoff⟩ : ∃ j, p.toNat ≤ j ∧ j < p.toNat + 8 ∧ (j < lo ∨ hi ≤ j) := by
    by_cases hlow : p.toNat < lo
    · exact ⟨p.toNat, Nat.le_refl _, by omega, .inl hlow⟩
    · exact ⟨p.toNat + 7, by omega, by omega, .inr (by omega)⟩
  have hset : SameOn lo hi img (img.set j (img.get j ^^^ 1)) := sameOn_set img _ hoff
  have hrange := hfrom _ hset
  rw [extentAt_eq_some.2 ⟨next, raw, mid, p, h⟩] at hrange
  obtain ⟨next', raw', mid', p', h'⟩ := extentAt_eq_some.1 hrange
  have hfirst := (readFormat_exact _).same h.first (hset.mono hlo (by omega))
  rw [h'.first] at hfirst
  cases hfirst
  have hpointer := h'.pointer
  rw [h.pointer] at hpointer
  cases hpointer
  have hword' := (h'.word (by rw [hset.length]; exact hlen) hind).2
  refine word_ne hj hj' ?_ (hword'.trans hword.symm)
  rw [get_set_self _ (by omega)]
  exact xor_one_ne _

theorem FdeFields.onlyFrom (hlen : img.length < 2 ^ 63) (hlo : lo ≤ off)
    (hin : FieldsIn lo hi enc img off next) : OnlyFrom lo hi enc img off := by
  intro img' hsame
  obtain ⟨hmid, hnext, hend⟩ := h.bounds
  have hstop := hin.stop
  rw [extentAt_eq_some.2 ⟨next, raw, mid, p, h⟩]
  refine extentAt_eq_some.2 ⟨next, raw, mid, p, h.encoded, ?_, h.pointer, ?_, ?_, h.positive, h.range⟩
  · exact (readFormat_exact _).same h.first (hsame.mono hlo (by omega))
  · by_cases hind : enc &&& dwEHPEIndirect ≠ 0
    · obtain ⟨hlow, hhigh⟩ := hin.pointer hind p h.pointerAt_eq
      obtain ⟨hbytes, hword⟩ := h.word hlen hind
      have hvalue := h.value
      rw [if_pos hind] at hvalue ⊢
      rw [len64, hsame.length]
      refine ⟨hvalue.1, ?_⟩
      rw [readLE, if_pos (by rw [hsame.length]; exact hbytes),
        bytesAt_congr fun i hi hi' => hsame.get i (by omega) (by omega)]
      exact congrArg some hword
    · have hvalue := h.value
      rw [if_neg hind] at hvalue ⊢
      exact hvalue
  · exact (readFormat_exact _).same h.second (hsame.mono (by omega) hstop)

/-- **The range of a record** is decoded only from the bytes of the record exactly when its fields end
there, and so does the pointer of an indirect encoding. -/
theorem extentAt_onlyFrom (hlen : img.length < 2 ^ 63) (hlo : lo ≤ off) :
    OnlyFrom lo hi enc img off ↔ FieldsIn lo hi enc img off next := by
  constructor
  · intro hfrom
    refine ⟨h.stop_of_onlyFrom hfrom, fun hind p' hp' => ?_⟩
    rw [h.pointerAt_eq] at hp'
    cases hp'
    exact h.pointer_of_onlyFrom hlen hlo hfrom hind
  · exact h.onlyFrom hlen hlo

end

end PS4Recomp.Elf
