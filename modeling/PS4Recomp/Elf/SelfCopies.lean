import PS4Recomp.Elf.SelfImage
import PS4Recomp.Library.Overlay

/-!
# The copies of a SELF container

What the two passes of `ExtractELFFromSELF` leave in the image.

* `Made` — the state behind a list of copies, `copy_made`, `isCovered_made` — a copy and the test there;
* `segPatch`, `segments` — the copies of the headers with an entry, `rawPatch` — the one of a header
  without;
* `firstPass_made` — the first pass makes the copies of the segments, where they end inside;
* `Candidate`, `FallsBack`, `FallsIn` — the headers that fall back on the bytes behind the ELF header;
* `SecondPass`, `secondPass_made` — the copies of the second pass are those of headers that fall back, and
  leave out none of their bytes;
* `ExtractSafe`, `Kept`, `EntryBytes` — what keeps the extraction from panicking, what keeps the bytes
  of the entries, and that they are in the image;
* **`extract_exact`** — the extraction does not panic, and carries the bytes, exactly then;
* `extract_clobbers` — a header without an entry overwrites half of another one's bytes.
-/

namespace PS4Recomp.Elf

open Library

variable {data out0 : Bytes} {c : Container} {ph : PhdrView} {ws : List Patch}

/-! ### the state -/

/-- What `covered` notes of a copy. -/
def spanOf (w : Patch) : BitVec 64 × BitVec 64 := (BitVec.ofNat 64 w.off, BitVec.ofNat 64 w.stop)

/-- The state behind copies. -/
def Made (out0 : Bytes) (ws : List Patch) : Copying where
  out := overlay out0 ws
  covered := ws.map spanOf
  copied := ws.length

theorem copy_made (ws : List Patch) (hout : out0.length ≤ maxAlloc) {offset n : BitVec 64} {src : Bytes}
    (hoff : offset.toNat < out0.length) (hsrc : src.length < 2 ^ 63) (hn : src.length ≤ n.toNat) :
    (Made out0 ws).copy offset n src =
      if offset.toNat + src.length ≤ out0.length then
        some (Made out0 (ws ++ [{ off := offset.toNat, bytes := src }]))
      else none := by
  have hsrc64 : (len64 src).toNat = src.length := len64_toNat (by omega)
  have hmin : (if len64 src < n then len64 src else n) = len64 src := by
    split
    · rfl
    · rename_i hge
      rw [BitVec.lt_def, hsrc64] at hge
      exact BitVec.eq_of_toNat_eq (by omega)
  rw [maxAlloc] at hout
  have hsum : (offset + len64 src).toNat = offset.toNat + src.length := by
    rw [BitVec.toNat_add_of_lt (by omega), hsrc64]
  have hlen : (Made out0 ws).out.length = out0.length := length_overlay out0 ws
  rw [Copying.copy, hmin]
  have hle : offset ≤ offset + len64 src := by
    rw [BitVec.le_def, hsum]
    omega
  rw [copyRange, hsum, hlen, hsrc64, Nat.add_sub_cancel_left, List.take_take, Nat.min_self,
    List.take_length]
  by_cases hfit : offset.toNat + src.length ≤ out0.length
  · rw [if_pos ⟨hle, hfit⟩, if_pos hfit, Option.map_some]
    have hspan : (offset, offset + len64 src) = spanOf { off := offset.toNat, bytes := src } := by
      rw [spanOf, BitVec.ofNat_toNat, BitVec.setWidth_eq, Patch.stop, ← hsum, BitVec.ofNat_toNat,
        BitVec.setWidth_eq]
    rw [hspan, Made, Made, overlay_snoc, List.map_append, List.length_append]
    rfl
  · rw [if_neg fun h => hfit h.2, if_neg hfit, Option.map_none]

theorem isCovered_made (out0 : Bytes) (hws : ∀ w ∈ ws, w.stop < 2 ^ 64) (start stop : BitVec 64) :
    (Made out0 ws).isCovered start stop = true ↔
      ∃ w ∈ ws, w.off ≤ start.toNat ∧ stop.toNat ≤ w.stop := by
  have hspan : ∀ w ∈ ws, (decide ((spanOf w).1 ≤ start) && decide (stop ≤ (spanOf w).2)) = true ↔
      w.off ≤ start.toNat ∧ stop.toNat ≤ w.stop := by
    intro w hw
    have hstop := hws w hw
    have hoff : w.off ≤ w.stop := Nat.le_add_right _ _
    rw [Bool.and_eq_true, decide_eq_true_iff, decide_eq_true_iff, spanOf, BitVec.le_def, BitVec.le_def,
      BitVec.toNat_ofNat, BitVec.toNat_ofNat, Nat.mod_eq_of_lt (by omega), Nat.mod_eq_of_lt hstop]
  rw [Copying.isCovered, Made, List.any_map, List.any_eq_true]
  exact exists_congr fun w => and_congr_right fun hw => hspan w hw

/-! ### the first pass -/

/-- A header that the passes do not skip. -/
def active (c : Container) (ph : PhdrView) : Bool :=
  decide (ph.filesz ≠ 0) && decide (ph.offset < c.outSize)

theorem active_iff : active c ph = true ↔ ¬ (ph.filesz = 0 ∨ c.outSize ≤ ph.offset) := by
  rw [active, Bool.and_eq_true, decide_eq_true_iff, decide_eq_true_iff, not_or, BitVec.not_le]

/-- The copy of a header with an entry. -/
def segPatch (data : Bytes) (c : Container) (ph : PhdrView) : Option Patch :=
  if active c ph then
    match findSELFSegment data ph.index ph.filesz c.entries with
    | some (some seg) => some { off := ph.offset.toNat, bytes := seg }
    | _ => none
  else none

/-- The copies of the headers with an entry. -/
def segments (data : Bytes) (c : Container) : List Patch := c.phdrs.filterMap (segPatch data c)

/-- A segment is not longer than the file or the header says. -/
theorem findSELFSegment_length {entries : List SelfEntry} {index : ℕ} {filesz : BitVec 64} {seg : Bytes}
    (hlen : data.length < 2 ^ 63) (hsize : filesz ≠ 0)
    (h : findSELFSegment data index filesz entries = some (some seg)) :
    seg.length ≤ filesz.toNat ∧ seg.length ≤ data.length := by
  induction entries with
  | nil => cases h
  | cons e es ih =>
      rw [findSELFSegment] at h
      split at h
      · exact ih h
      · split at h
        · exact ih h
        · obtain ⟨raw, hraw, heq⟩ := Option.map_eq_some_iff.1 h
          have hrawlen : raw.length ≤ data.length := by
            have hslice := slice_length hraw
            omega
          have hraw64 : (len64 raw).toNat = raw.length := len64_toNat (by omega)
          split at heq
          · cases heq
            rw [List.length_take]
            omega
          · rename_i hcut
            cases heq
            refine ⟨?_, hrawlen⟩
            by_contra hgt
            refine hcut ⟨?_, ?_⟩
            · rw [BitVec.lt_def]
              have hne : filesz.toNat ≠ 0 := fun hz => hsize (BitVec.eq_of_toNat_eq hz)
              exact Nat.pos_of_ne_zero hne
            · rw [BitVec.lt_def, hraw64]
              omega

theorem copyHeader_skip (second : Bool) (st : Copying) (h : active c ph = false) :
    copyHeader data c second st ph = some st := by
  rw [copyHeader, if_pos]
  by_contra hc
  rw [active_iff.2 hc] at h
  cases h

/-- What an active header does; the sum of its fields never passes the size of the image. -/
theorem copyHeader_active (second : Bool) (st : Copying) (h : active c ph = true)
    (hfit : ph.offset + ph.filesz ≤ c.outSize) : copyHeader data c second st ph =
      (findSELFSegment data ph.index ph.filesz c.entries).bind fun src =>
        match second, src with
        | false, none => some st
        | false, some src => st.copy ph.offset ph.filesz src
        | true, some _ => some st
        | true, none =>
            if st.isCovered ph.offset (ph.offset + ph.filesz) then some st
            else (fallback data c.elfOff ph.offset ph.filesz).bind fun src =>
              match src with
              | none => some st
              | some src => st.copy ph.offset ph.filesz src := by
  rw [copyHeader, if_neg (BitVec.not_lt.2 hfit)]
  exact if_neg (active_iff.1 h)

/-- A header that does not make the first pass panic. -/
def FirstSafe (data : Bytes) (c : Container) (ph : PhdrView) : Prop :=
  (active c ph = true → findSELFSegment data ph.index ph.filesz c.entries ≠ none) ∧
    ∀ w, segPatch data c ph = some w → w.stop ≤ c.outSize.toNat

theorem copyHeader_first (ws : List Patch) (hlen : data.length < 2 ^ 63) (hout : out0.length = c.outSize.toNat)
    (hmax : c.outSize.toNat ≤ maxAlloc) (hfit : ph.offset + ph.filesz ≤ c.outSize) :
    FirstSafe data c ph ∧ copyHeader data c false (Made out0 ws) ph =
        some (Made out0 (ws ++ (segPatch data c ph).toList)) ∨
      ¬ FirstSafe data c ph ∧ copyHeader data c false (Made out0 ws) ph = none := by
  cases hactive : active c ph with
  | false =>
      have hnone : segPatch data c ph = none := by
        rw [segPatch, hactive]
        rfl
      refine .inl ⟨⟨fun h => ?_, fun w hw => ?_⟩, ?_⟩
      · rw [hactive] at h
        cases h
      · rw [hnone] at hw
        cases hw
      · rw [copyHeader_skip false _ hactive, hnone, Option.toList_none, List.append_nil]
  | true =>
      have hne := active_iff.1 hactive
      rw [not_or, BitVec.not_le, BitVec.lt_def] at hne
      rw [copyHeader_active false _ hactive hfit]
      cases hfind : findSELFSegment data ph.index ph.filesz c.entries with
      | none => exact .inr ⟨fun h => h.1 hactive hfind, rfl⟩
      | some src =>
          cases src with
          | none =>
              have hnone : segPatch data c ph = none := by
                rw [segPatch, hactive, hfind]
                rfl
              refine .inl ⟨⟨fun _ h => ?_, fun w hw => ?_⟩, ?_⟩
              · rw [hfind] at h
                cases h
              · rw [hnone] at hw
                cases hw
              · rw [hnone, Option.toList_none, List.append_nil]
                rfl
          | some seg =>
              have hsome : segPatch data c ph = some { off := ph.offset.toNat, bytes := seg } := by
                rw [segPatch, hactive, hfind]
                rfl
              obtain ⟨hsize, hfile⟩ := findSELFSegment_length hlen hne.1 hfind
              have hcopy := copy_made ws (by omega : out0.length ≤ maxAlloc)
                (by omega : ph.offset.toNat < out0.length) (by omega) hsize
              rw [Option.bind_some]
              dsimp only
              rw [hcopy]
              by_cases hends : ph.offset.toNat + seg.length ≤ out0.length
              · rw [if_pos hends, hsome]
                refine .inl ⟨⟨fun _ h => ?_, fun w hw => ?_⟩, rfl⟩
                · rw [hfind] at h
                  cases h
                · rw [hsome] at hw
                  cases hw
                  rw [← hout]
                  exact hends
              · rw [if_neg hends]
                refine .inr ⟨fun h => hends ?_, rfl⟩
                rw [hout]
                exact h.2 _ hsome

/-- **The first pass** makes the copies of the headers with an entry, unless one of them panics. -/
theorem firstPass_made (hlen : data.length < 2 ^ 63) (hout : out0.length = c.outSize.toNat)
    (hmax : c.outSize.toNat ≤ maxAlloc) (phdrs : List PhdrView)
    (hfit : ∀ ph ∈ phdrs, ph.offset + ph.filesz ≤ c.outSize) (ws : List Patch) :
    (∀ ph ∈ phdrs, FirstSafe data c ph) ∧ phdrs.foldlM (copyHeader data c false) (Made out0 ws) =
        some (Made out0 (ws ++ phdrs.filterMap (segPatch data c))) ∨
      (∃ ph ∈ phdrs, ¬ FirstSafe data c ph) ∧
        phdrs.foldlM (copyHeader data c false) (Made out0 ws) = none := by
  induction phdrs generalizing ws with
  | nil =>
      refine .inl ⟨fun ph hph => (by cases hph), ?_⟩
      rw [List.filterMap_nil, List.append_nil]
      rfl
  | cons ph phdrs ih =>
      rw [List.foldlM_cons]
      rcases copyHeader_first ws hlen hout hmax (hfit ph List.mem_cons_self) with
        ⟨hsafe, hstep⟩ | ⟨hsafe, hstep⟩
      · rw [hstep]
        have hrest := ih (fun q hq => hfit q (List.mem_cons_of_mem _ hq)) (ws ++ (segPatch data c ph).toList)
        have hlist : ws ++ (segPatch data c ph).toList ++ phdrs.filterMap (segPatch data c) =
            ws ++ (ph :: phdrs).filterMap (segPatch data c) := by
          rw [List.append_assoc]
          cases hseg : segPatch data c ph with
          | none => rw [List.filterMap_cons_none hseg, Option.toList_none, List.nil_append]
          | some w => rw [List.filterMap_cons_some hseg, Option.toList_some, List.singleton_append]
        rw [hlist] at hrest
        rcases hrest with ⟨hall, hfold⟩ | ⟨⟨q, hq, hbad⟩, hfold⟩
        · exact .inl ⟨List.forall_mem_cons.2 ⟨hsafe, hall⟩, hfold⟩
        · exact .inr ⟨⟨q, List.mem_cons_of_mem _ hq, hbad⟩, hfold⟩
      · rw [hstep]
        exact .inr ⟨⟨ph, List.mem_cons_self, hsafe⟩, rfl⟩

/-! ### the second pass -/

/-- The copy of a header without an entry: the bytes of the file behind the embedded ELF header. -/
def rawPatch (data : Bytes) (c : Container) (ph : PhdrView) : Patch where
  off := ph.offset.toNat
  bytes := (data.drop (c.elfOff + ph.offset.toNat)).take ph.filesz.toNat

theorem rawPatch_stop : (rawPatch data c ph).stop =
    ph.offset.toNat + min ph.filesz.toNat (data.length - (c.elfOff + ph.offset.toNat)) := by
  rw [Patch.stop, rawPatch, List.length_take, List.length_drop]

/-- A header without an entry that has bytes there. -/
structure Candidate (data : Bytes) (c : Container) (ph : PhdrView) : Prop where
  active : active c ph = true
  none : findSELFSegment data ph.index ph.filesz c.entries = some none
  bytes : c.elfOff + ph.offset.toNat < data.length

/-- A header whose end is no more than 64 bits. -/
def Tame (ph : PhdrView) : Prop := ph.offset.toNat + ph.filesz.toNat < 2 ^ 64

/-- A copy covers the range of a header, with the end that the source computes. -/
def CoversHeader (w : Patch) (ph : PhdrView) : Prop :=
  w.off ≤ ph.offset.toNat ∧ (ph.offset + ph.filesz).toNat ≤ w.stop

/-- A header without an entry that no segment covers, and no tame header without an entry before it. -/
structure FallsBack (data : Bytes) (c : Container) (pre : List PhdrView) (ph : PhdrView) : Prop where
  candidate : Candidate data c ph
  segments : ∀ w ∈ segments data c, ¬ CoversHeader w ph
  earlier : ∀ q ∈ pre, Candidate data c q → Tame q → ¬ CoversHeader (rawPatch data c q) ph

/-- A header of the list that falls back. -/
def FallsIn (data : Bytes) (c : Container) (phdrs : List PhdrView) (ph : PhdrView) : Prop :=
  ∃ pre post, phdrs = pre ++ ph :: post ∧ FallsBack data c pre ph

variable {pre : List PhdrView} {x : PhdrView}

theorem FallsIn.mem (h : FallsIn data c pre ph) : ph ∈ pre := by
  obtain ⟨front, back, rfl, -⟩ := h
  simp

theorem FallsIn.candidate (h : FallsIn data c pre ph) : Candidate data c ph := by
  obtain ⟨front, back, -, hfalls⟩ := h
  exact hfalls.candidate

theorem fallsIn_snoc : FallsIn data c (pre ++ [x]) ph ↔
    FallsIn data c pre ph ∨ ph = x ∧ FallsBack data c pre x := by
  constructor
  · rintro ⟨front, back, heq, hfalls⟩
    rcases List.eq_nil_or_concat back with rfl | ⟨back, last, rfl⟩
    · obtain ⟨rfl, hlast⟩ := List.append_inj' heq rfl
      cases hlast
      exact .inr ⟨rfl, hfalls⟩
    · have hassoc : pre ++ [x] = (front ++ ph :: back) ++ [last] := by
        rw [heq, List.concat_eq_append, List.append_assoc, List.cons_append]
      obtain ⟨hpre, -⟩ := List.append_inj' hassoc rfl
      exact .inl ⟨front, back, hpre, hfalls⟩
  · rintro (⟨front, back, rfl, hfalls⟩ | ⟨rfl, hfalls⟩)
    · exact ⟨front, back ++ [x], by rw [List.append_assoc, List.cons_append], hfalls⟩
    · exact ⟨pre, [], rfl, hfalls⟩

theorem fallback_eq (hlen : data.length < 2 ^ 63) : fallback data c.elfOff ph.offset ph.filesz =
    if c.elfOff + ph.offset.toNat < data.length then some (some (rawPatch data c ph).bytes)
    else some none := by
  rw [fallback]
  dsimp only
  by_cases hin : c.elfOff + ph.offset.toNat < data.length
  · rw [if_pos hin, if_pos hin]
    generalize hsrc : c.elfOff + ph.offset.toNat = srcOff at hin ⊢
    have havail : (BitVec.ofNat 64 (data.length - srcOff)).toNat = data.length - srcOff := by
      rw [BitVec.toNat_ofNat, Nat.mod_eq_of_lt (by omega)]
    have hmin : (if BitVec.ofNat 64 (data.length - srcOff) < ph.filesz then
        BitVec.ofNat 64 (data.length - srcOff) else ph.filesz).toNat =
          min ph.filesz.toNat (data.length - srcOff) := by
      split
      · rename_i hlt
        rw [BitVec.lt_def, havail] at hlt
        omega
      · rename_i hge
        rw [BitVec.lt_def, havail] at hge
        omega
    have hdrop : (data.drop srcOff).length = data.length - srcOff := List.length_drop
    rw [hmin, slice, if_pos ⟨by omega, by omega⟩, Option.map_some, List.drop_take, Nat.add_sub_cancel_left,
      rawPatch, hsrc, ← hdrop, ← List.take_eq_take_min]
  · rw [if_neg hin, if_neg hin]

theorem copyHeader_other (hlen : data.length < 2 ^ 63) (st : Copying)
    (hfind : active c ph = true → findSELFSegment data ph.index ph.filesz c.entries ≠ none)
    (hfit : ph.offset + ph.filesz ≤ c.outSize) (h : ¬ Candidate data c ph) :
    copyHeader data c true st ph = some st := by
  cases hactive : active c ph with
  | false => exact copyHeader_skip true st hactive
  | true =>
      rw [copyHeader_active true st hactive hfit]
      cases hsrc : findSELFSegment data ph.index ph.filesz c.entries with
      | none => exact absurd hsrc (hfind hactive)
      | some src =>
          rw [Option.bind_some]
          cases src with
          | some seg => rfl
          | none =>
              dsimp only
              split
              · rfl
              · rw [fallback_eq hlen, if_neg fun hin => h ⟨hactive, hsrc, hin⟩]
                rfl

theorem copyHeader_candidate (hlen : data.length < 2 ^ 63) (hout : out0.length = c.outSize.toNat)
    (hmax : c.outSize.toNat ≤ maxAlloc) (hws : ∀ w ∈ ws, w.stop ≤ c.outSize.toNat)
    (hfit : ph.offset + ph.filesz ≤ c.outSize) (h : Candidate data c ph) :
    (∃ w ∈ ws, CoversHeader w ph) ∧ copyHeader data c true (Made out0 ws) ph = some (Made out0 ws) ∨
      (¬ ∃ w ∈ ws, CoversHeader w ph) ∧ (rawPatch data c ph).stop ≤ c.outSize.toNat ∧
        copyHeader data c true (Made out0 ws) ph = some (Made out0 (ws ++ [rawPatch data c ph])) ∨
      (¬ ∃ w ∈ ws, CoversHeader w ph) ∧ c.outSize.toNat < (rawPatch data c ph).stop ∧
        copyHeader data c true (Made out0 ws) ph = none := by
  have hne := active_iff.1 h.active
  rw [not_or, BitVec.not_le, BitVec.lt_def] at hne
  rw [maxAlloc] at hmax
  rw [copyHeader_active true _ h.active hfit, h.none, Option.bind_some]
  dsimp only
  have hcovered := isCovered_made out0 (fun w hw => Nat.lt_of_le_of_lt (hws w hw) (by omega)) ph.offset
    (ph.offset + ph.filesz)
  by_cases hcov : ∃ w ∈ ws, CoversHeader w ph
  · rw [if_pos (hcovered.2 hcov)]
    exact .inl ⟨hcov, rfl⟩
  · rw [if_neg fun hc => hcov (hcovered.1 hc), fallback_eq hlen, if_pos h.bytes, Option.bind_some]
    have hraw : (rawPatch data c ph).bytes.length =
        min ph.filesz.toNat (data.length - (c.elfOff + ph.offset.toNat)) := by
      rw [rawPatch, List.length_take, List.length_drop]
    have hcopy := copy_made ws (by rw [maxAlloc]; omega : out0.length ≤ maxAlloc)
      (by omega : ph.offset.toNat < out0.length) (by omega)
      (by omega : (rawPatch data c ph).bytes.length ≤ ph.filesz.toNat)
    have hstop : (rawPatch data c ph).stop = ph.offset.toNat + (rawPatch data c ph).bytes.length := rfl
    dsimp only
    rw [hcopy, hstop, ← hout]
    by_cases hends : ph.offset.toNat + (rawPatch data c ph).bytes.length ≤ out0.length
    · rw [if_pos hends]
      exact .inr (.inl ⟨hcov, hends, rfl⟩)
    · rw [if_neg hends]
      exact .inr (.inr ⟨hcov, Nat.lt_of_not_le hends, rfl⟩)

/-- The copies of the second pass over part of the headers. -/
structure SecondPass (data : Bytes) (c : Container) (pre : List PhdrView) (made : List Patch) : Prop where
  sound : ∀ f ∈ made, f.stop ≤ c.outSize.toNat ∧ ∃ ph, FallsIn data c pre ph ∧ f = rawPatch data c ph
  whole : ∀ ph, FallsIn data c pre ph →
    ∃ f ∈ made, f.off ≤ ph.offset.toNat ∧ (rawPatch data c ph).stop ≤ f.stop
  tame : ∀ q ∈ pre, Candidate data c q → Tame q →
    ∃ w ∈ segments data c ++ made, w.off ≤ q.offset.toNat ∧ (rawPatch data c q).stop ≤ w.stop

variable {made : List Patch}

/-- The copy of a tame header ends where the source says, or before. -/
theorem rawPatch_stop_le (h : Tame ph) : (rawPatch data c ph).stop ≤ (ph.offset + ph.filesz).toNat := by
  rw [rawPatch_stop, BitVec.toNat_add_of_lt h]
  omega

/-- The copy of one that is not tame goes to the end of the file, as far as any other one. -/
theorem rawPatch_stop_last (hlen : data.length < 2 ^ 63) (hq : Candidate data c x) (hwild : ¬ Tame x)
    (hph : Candidate data c ph) : (rawPatch data c ph).stop ≤ (rawPatch data c x).stop := by
  rw [Tame, Nat.not_lt] at hwild
  have hbytes := hq.bytes
  have hbytes' := hph.bytes
  rw [rawPatch_stop, rawPatch_stop]
  omega

theorem secondPass_skip (h : SecondPass data c pre made) (hx : ¬ Candidate data c x) :
    SecondPass data c (pre ++ [x]) made := by
  have hfalls : ∀ ph, FallsIn data c (pre ++ [x]) ph → FallsIn data c pre ph := by
    intro ph hph
    rcases fallsIn_snoc.1 hph with hph | ⟨-, hback⟩
    · exact hph
    · exact absurd hback.candidate hx
  refine ⟨fun f hf => ?_, fun ph hph => h.whole ph (hfalls ph hph), fun q hq hcand htame => ?_⟩
  · obtain ⟨hstop, ph, hph, heq⟩ := h.sound f hf
    exact ⟨hstop, ph, fallsIn_snoc.2 (.inl hph), heq⟩
  · rcases List.mem_append.1 hq with hq | hq
    · exact h.tame q hq hcand htame
    · rw [List.mem_singleton.1 hq] at hcand
      exact absurd hcand hx

/-- A header that is covered makes no copy, and misses none of its bytes. -/
theorem secondPass_covered (hlen : data.length < 2 ^ 63) (h : SecondPass data c pre made)
    (hx : Candidate data c x) (hcov : ∃ w ∈ segments data c ++ made, CoversHeader w x) :
    SecondPass data c (pre ++ [x]) made := by
  obtain ⟨w, hw, hcover⟩ := hcov
  refine ⟨fun f hf => ?_, fun ph hph => ?_, fun q hq hcand htame => ?_⟩
  · obtain ⟨hstop, ph, hph, heq⟩ := h.sound f hf
    exact ⟨hstop, ph, fallsIn_snoc.2 (.inl hph), heq⟩
  · rcases fallsIn_snoc.1 hph with hph | ⟨rfl, hback⟩
    · exact h.whole ph hph
    · rcases List.mem_append.1 hw with hseg | hmade
      · exact absurd hcover (hback.segments w hseg)
      · obtain ⟨-, q, hq, rfl⟩ := h.sound w hmade
        -- only a header that is not tame covers one that falls back, and it reaches the end
        have hwild : ¬ Tame q := fun htame => hback.earlier q hq.mem hq.candidate htame hcover
        exact ⟨_, hmade, hcover.1, rawPatch_stop_last hlen hq.candidate hwild hx⟩
  · rcases List.mem_append.1 hq with hq | hq
    · exact h.tame q hq hcand htame
    · rw [List.mem_singleton.1 hq] at htame ⊢
      exact ⟨w, hw, hcover.1, Nat.le_trans (rawPatch_stop_le htame) hcover.2⟩

theorem fallsBack_of_uncovered (h : SecondPass data c pre made) (hx : Candidate data c x)
    (hcov : ¬ ∃ w ∈ segments data c ++ made, CoversHeader w x) : FallsBack data c pre x where
  candidate := hx
  segments w hw hcover := hcov ⟨w, List.mem_append_left _ hw, hcover⟩
  earlier q hq hcand htame hcover := by
    obtain ⟨w, hw, hoff, hstop⟩ := h.tame q hq hcand htame
    exact hcov ⟨w, hw, Nat.le_trans hoff hcover.1, Nat.le_trans hcover.2 hstop⟩

theorem secondPass_copy (h : SecondPass data c pre made) (hback : FallsBack data c pre x)
    (hstop : (rawPatch data c x).stop ≤ c.outSize.toNat) :
    SecondPass data c (pre ++ [x]) (made ++ [rawPatch data c x]) := by
  have hlast : rawPatch data c x ∈ made ++ [rawPatch data c x] := by simp
  refine ⟨fun f hf => ?_, fun ph hph => ?_, fun q hq hcand htame => ?_⟩
  · rcases List.mem_append.1 hf with hf | hf
    · obtain ⟨hfit, ph, hph, heq⟩ := h.sound f hf
      exact ⟨hfit, ph, fallsIn_snoc.2 (.inl hph), heq⟩
    · rw [List.mem_singleton.1 hf]
      exact ⟨hstop, x, fallsIn_snoc.2 (.inr ⟨rfl, hback⟩), rfl⟩
  · rcases fallsIn_snoc.1 hph with hph | ⟨rfl, -⟩
    · obtain ⟨f, hf, hin⟩ := h.whole ph hph
      exact ⟨f, List.mem_append_left _ hf, hin⟩
    · exact ⟨_, hlast, Nat.le_refl _, Nat.le_refl _⟩
  · rw [← List.append_assoc]
    rcases List.mem_append.1 hq with hq | hq
    · obtain ⟨w, hw, hin⟩ := h.tame q hq hcand htame
      exact ⟨w, List.mem_append_left _ hw, hin⟩
    · rw [List.mem_singleton.1 hq]
      exact ⟨_, by simp, Nat.le_refl _, Nat.le_refl _⟩

/-- **The second pass** makes copies of headers that fall back, unless one of them does not fit. -/
theorem secondPass_made (hlen : data.length < 2 ^ 63) (hout : out0.length = c.outSize.toNat)
    (hmax : c.outSize.toNat ≤ maxAlloc) (hseg : ∀ w ∈ segments data c, w.stop ≤ c.outSize.toNat)
    (phdrs : List PhdrView) (hfit : ∀ ph ∈ phdrs, ph.offset + ph.filesz ≤ c.outSize)
    (hfind : ∀ ph ∈ phdrs, active c ph = true →
      findSELFSegment data ph.index ph.filesz c.entries ≠ none) :
    (∃ made, SecondPass data c phdrs made ∧ phdrs.foldlM (copyHeader data c true)
        (Made out0 (segments data c)) = some (Made out0 (segments data c ++ made))) ∨
      (∃ ph, FallsIn data c phdrs ph ∧ c.outSize.toNat < (rawPatch data c ph).stop) ∧
        phdrs.foldlM (copyHeader data c true) (Made out0 (segments data c)) = none := by
  induction phdrs using List.reverseRecOn with
  | nil =>
      refine .inl ⟨[], ⟨fun f hf => (by cases hf), fun ph hph => ?_, fun q hq => (by cases hq)⟩, ?_⟩
      · cases hph.mem
      · rw [List.append_nil]
        rfl
  | append_singleton pre x ih =>
      rw [List.foldlM_append]
      rcases ih (fun ph hph => hfit ph (List.mem_append_left _ hph))
          (fun ph hph => hfind ph (List.mem_append_left _ hph)) with
        ⟨made, hinv, hfold⟩ | ⟨⟨ph, hph, hstop⟩, hfold⟩
      · rw [hfold, Option.bind_eq_bind, Option.bind_some, List.foldlM_cons]
        have hws : ∀ w ∈ segments data c ++ made, w.stop ≤ c.outSize.toNat := by
          intro w hw
          rcases List.mem_append.1 hw with hw | hw
          · exact hseg w hw
          · exact (hinv.sound w hw).1
        have hxfit := hfit x (by simp)
        by_cases hx : Candidate data c x
        · rcases copyHeader_candidate hlen hout hmax hws hxfit hx with
            ⟨hcov, hstep⟩ | ⟨hcov, hstop, hstep⟩ | ⟨hcov, hstop, hstep⟩
          · rw [hstep]
            exact .inl ⟨made, secondPass_covered hlen hinv hx hcov, rfl⟩
          · rw [hstep]
            refine .inl ⟨_, secondPass_copy hinv (fallsBack_of_uncovered hinv hx hcov) hstop, ?_⟩
            rw [← List.append_assoc]
            rfl
          · rw [hstep]
            have hback := fallsBack_of_uncovered hinv hx hcov
            exact .inr ⟨⟨x, fallsIn_snoc.2 (.inr ⟨rfl, hback⟩), hstop⟩, rfl⟩
        · rw [copyHeader_other hlen _ (hfind x (by simp)) hxfit hx]
          exact .inl ⟨made, secondPass_skip hinv hx, rfl⟩
      · rw [hfold]
        exact .inr ⟨⟨ph, fallsIn_snoc.2 (.inl hph), hstop⟩, rfl⟩

/-! ### the extraction -/

/-- The entry whose bytes a header gets. -/
def entryOf (data : Bytes) (phdrIndex : ℕ) (entries : List SelfEntry) : Option SelfEntry :=
  entries.find? fun e => e.hasBlocks && decide (e.segmentIndex.toNat = phdrIndex) &&
    decide (e.offset < len64 data) && decide (e.fileSize ≠ 0)

/-- The bytes of an entry cannot be taken where its end passes 64 bits. -/
theorem findSELFSegment_eq_none (hlen : data.length < 2 ^ 63) {index : ℕ} {filesz : BitVec 64}
    {entries : List SelfEntry} : findSELFSegment data index filesz entries = none ↔
      ∃ e, entryOf data index entries = some e ∧ 2 ^ 64 ≤ e.offset.toNat + e.fileSize.toNat := by
  have hlen64 : (len64 data).toNat = data.length := len64_toNat (by omega)
  induction entries with
  | nil =>
      constructor
      · intro h
        cases h
      · rintro ⟨e, he, -⟩
        cases he
  | cons e es ih =>
      rw [findSELFSegment, entryOf, List.find?_cons]
      by_cases hindex : e.hasBlocks = false ∨ e.segmentIndex.toNat ≠ index
      · have htest : (e.hasBlocks && decide (e.segmentIndex.toNat = index) &&
            decide (e.offset < len64 data) && decide (e.fileSize ≠ 0)) = false := by
          rcases hindex with hb | hi
          · simp [hb]
          · simp [hi]
        rw [if_pos hindex, htest]
        exact ih
      · rw [if_neg hindex]
        by_cases hbytes : len64 data ≤ e.offset ∨ e.fileSize = 0
        · have htest : (e.hasBlocks && decide (e.segmentIndex.toNat = index) &&
              decide (e.offset < len64 data) && decide (e.fileSize ≠ 0)) = false := by
            rcases hbytes with ho | hz
            · simp [BitVec.not_lt.2 ho]
            · simp [hz]
          rw [if_pos hbytes, htest]
          exact ih
        · rw [not_or] at hindex hbytes
          have htest : (e.hasBlocks && decide (e.segmentIndex.toNat = index) &&
              decide (e.offset < len64 data) && decide (e.fileSize ≠ 0)) = true := by
            rw [ne_eq, not_not] at hindex
            rw [Bool.and_eq_true, Bool.and_eq_true, Bool.and_eq_true, decide_eq_true_iff, decide_eq_true_iff,
              decide_eq_true_iff]
            exact ⟨⟨⟨Bool.not_eq_false _ ▸ hindex.1, hindex.2⟩, BitVec.not_le.1 hbytes.1⟩, hbytes.2⟩
          rw [if_neg (by rw [not_or]; exact hbytes), htest]
          have hoff : e.offset.toNat < data.length := by
            have hlt := BitVec.not_le.1 hbytes.1
            rwa [BitVec.lt_def, hlen64] at hlt
          rw [Option.map_eq_none_iff, slice_eq_none]
          have hsum : (e.offset + e.fileSize).toNat = (e.offset.toNat + e.fileSize.toNat) % 2 ^ 64 :=
            BitVec.toNat_add ..
          have hstop : (if len64 data < e.offset + e.fileSize then len64 data
              else e.offset + e.fileSize).toNat =
                min data.length ((e.offset.toNat + e.fileSize.toNat) % 2 ^ 64) := by
            split
            · rename_i hlt
              rw [BitVec.lt_def, hlen64, hsum] at hlt
              omega
            · rename_i hge
              rw [BitVec.lt_def, hlen64, hsum] at hge
              omega
          rw [hstop]
          have hsize := e.fileSize.isLt
          constructor
          · intro h
            exact ⟨e, rfl, by omega⟩
          · rintro ⟨e', he', hwrap⟩
            cases he'
            omega

/-- What keeps the extraction from panicking. -/
structure ExtractSafe (data : Bytes) (c : Container) : Prop where
  size : c.outSize.toNat ≤ maxAlloc
  entries : ∀ ph ∈ c.phdrs, active c ph = true → ∀ e, entryOf data ph.index c.entries = some e →
    e.offset.toNat + e.fileSize.toNat < 2 ^ 64
  segments : ∀ w ∈ segments data c, w.stop ≤ c.outSize.toNat
  raw : ∀ ph, FallsIn data c c.phdrs ph → (rawPatch data c ph).stop ≤ c.outSize.toNat

theorem copyRange_total (dst src : Bytes) {lo hi : BitVec 64} (hle : lo ≤ hi)
    (hhi : hi.toNat ≤ dst.length) : ∃ out, copyRange dst lo hi src = some out ∧ out.length = dst.length :=
  ⟨_, if_pos ⟨hle, hhi⟩, Bytes.length_put ..⟩

theorem headers_eq (hc : c.Checked data) :
    (c.outSize.toNat ≤ maxAlloc ∧ ∃ out0, headers c = some out0 ∧ out0.length = c.outSize.toNat) ∨
      (¬ c.outSize.toNat ≤ maxAlloc ∧ headers c = none) := by
  rw [headers, makeBytes]
  by_cases hmax : c.outSize.toNat ≤ maxAlloc
  · refine .inl ⟨hmax, ?_⟩
    rw [if_pos hmax, Option.bind_some]
    have hsize := hc.size
    have htable := hc.table
    have hword := c.outSize.isLt
    obtain ⟨a, ha, hlen⟩ := copyRange_total (List.replicate c.outSize.toNat 0) c.ehdr
      (by decide : (0 : BitVec 64) ≤ 64) (by rw [List.length_replicate]; exact hsize)
    rw [List.length_replicate] at hlen
    have hlen64 : (len64 a).toNat = c.outSize.toNat := by rw [len64_toNat (by omega), hlen]
    have hphdrs : ∃ b, (if c.phoff + len64 c.phdrTable ≤ c.outSize then
        copyRange a c.phoff (len64 a) c.phdrTable else some a) = some b ∧ b.length = c.outSize.toNat := by
      split
      · obtain ⟨b, hb, hblen⟩ := copyRange_total a c.phdrTable
          (by rw [BitVec.le_def]; omega : c.phoff ≤ len64 a) (by omega)
        exact ⟨b, hb, by omega⟩
      · exact ⟨a, rfl, hlen⟩
    obtain ⟨b, hb, hblen⟩ := hphdrs
    obtain ⟨d, hd, hdlen⟩ := copyRange_total b (toLE 8 0) (by decide : (40 : BitVec 64) ≤ 48)
      (by rw [hblen]; exact Nat.le_trans (by decide) hsize)
    obtain ⟨e, he, helen⟩ := copyRange_total d (toLE 2 0) (by decide : (60 : BitVec 64) ≤ 62)
      (by rw [hdlen, hblen]; exact Nat.le_trans (by decide) hsize)
    obtain ⟨f, hf, hflen⟩ := copyRange_total e (toLE 2 0) (by decide : (62 : BitVec 64) ≤ 64)
      (by rw [helen, hdlen, hblen]; exact hsize)
    refine ⟨f, ?_, by rw [hflen, helen, hdlen, hblen]⟩
    rw [ha, Option.bind_some, hb, Option.bind_some, hd, Option.bind_some, he, Option.bind_some, hf]
  · rw [if_neg hmax]
    exact .inr ⟨hmax, rfl⟩

/-- **The copies** are those of the segments and of headers that fall back, or one of them panics. -/
theorem copies_made (hlen : data.length < 2 ^ 63) (hc : c.Checked data)
    (hout : out0.length = c.outSize.toNat) (hmax : c.outSize.toNat ≤ maxAlloc) :
    (ExtractSafe data c ∧ ∃ made, SecondPass data c c.phdrs made ∧
        copies data c out0 = some (Made out0 (segments data c ++ made))) ∨
      (¬ ExtractSafe data c ∧ copies data c out0 = none) := by
  have hstart : ({ out := out0 } : Copying) = Made out0 [] := rfl
  rw [copies, hstart]
  rcases firstPass_made hlen hout hmax c.phdrs hc.fits [] with ⟨hfirst, hfold⟩ | ⟨⟨ph, hph, hbad⟩, hfold⟩
  · have hseg : ∀ w ∈ segments data c, w.stop ≤ c.outSize.toNat := by
      intro w hw
      obtain ⟨ph, hph, hsome⟩ := List.mem_filterMap.1 hw
      exact (hfirst ph hph).2 w hsome
    have hfind : ∀ ph ∈ c.phdrs, active c ph = true →
        findSELFSegment data ph.index ph.filesz c.entries ≠ none := fun ph hph => (hfirst ph hph).1
    have hentries : ∀ ph ∈ c.phdrs, active c ph = true → ∀ e, entryOf data ph.index c.entries = some e →
        e.offset.toNat + e.fileSize.toNat < 2 ^ 64 := by
      intro ph hph hactive e he
      by_contra hwrap
      exact hfind ph hph hactive ((findSELFSegment_eq_none hlen).2 ⟨e, he, Nat.le_of_not_lt hwrap⟩)
    have hsegments : [] ++ c.phdrs.filterMap (segPatch data c) = segments data c := List.nil_append _
    rw [hfold, Option.bind_some, hsegments]
    rcases secondPass_made hlen hout hmax hseg c.phdrs hc.fits hfind with
      ⟨made, hinv, hfold'⟩ | ⟨⟨ph, hph, hstop⟩, hfold'⟩
    · refine .inl ⟨⟨hmax, hentries, hseg, fun ph hph => ?_⟩, made, hinv, hfold'⟩
      obtain ⟨f, hf, -, hstop⟩ := hinv.whole ph hph
      exact Nat.le_trans hstop (hinv.sound f hf).1
    · exact .inr ⟨fun h => absurd (h.raw ph hph) (Nat.not_le_of_lt hstop), hfold'⟩
  · rw [hfold]
    refine .inr ⟨fun h => hbad ⟨fun hactive hnone => ?_, fun w hw => ?_⟩, rfl⟩
    · obtain ⟨e, he, hwrap⟩ := (findSELFSegment_eq_none hlen).1 hnone
      exact absurd (h.entries ph hph hactive e he) (Nat.not_lt_of_le hwrap)
    · exact h.segments w (List.mem_filterMap.2 ⟨ph, hph, hw⟩)

/-- What keeps the bytes of the entries in the image. -/
structure Kept (data : Bytes) (c : Container) : Prop where
  whole : ∀ ph ∈ c.phdrs, ph.filesz ≠ 0 → ∀ seg,
    findSELFSegment data ph.index ph.filesz c.entries = some (some seg) →
      seg.length = ph.filesz.toNat ∧ Tame ph
  agree : ∀ w ∈ segments data c, ∀ w' ∈ segments data c, w.Agree w'
  raw : ∀ w ∈ segments data c, ∀ ph, FallsIn data c c.phdrs ph → w.Agree (rawPatch data c ph)

/-- The bytes of the image at a header with an entry are exactly those of the entry. -/
def EntryBytes (data : Bytes) (c : Container) (out : Bytes) : Prop :=
  ∀ ph ∈ c.phdrs, ∀ seg, findSELFSegment data ph.index ph.filesz c.entries = some (some seg) →
    ∀ k < ph.filesz.toNat, k < seg.length ∧ ph.offset.toNat + k < out.length ∧
      out.get (ph.offset.toNat + k) = seg.get k

theorem segPatch_eq_some {w : Patch} : segPatch data c ph = some w ↔ active c ph = true ∧
    ∃ seg, findSELFSegment data ph.index ph.filesz c.entries = some (some seg) ∧
      w = { off := ph.offset.toNat, bytes := seg } := by
  rw [segPatch]
  cases hactive : active c ph with
  | false => exact iff_of_false (fun h => by cases h) fun h => by cases h.1
  | true =>
      rw [if_pos rfl, and_iff_right rfl]
      cases hseg : findSELFSegment data ph.index ph.filesz c.entries with
      | none => exact iff_of_false (fun h => by cases h) fun ⟨_, h, _⟩ => by cases h
      | some src =>
          cases src with
          | none => exact iff_of_false (fun h => by cases h) fun ⟨_, h, _⟩ => by cases h
          | some seg =>
              constructor
              · intro h
                cases h
                exact ⟨seg, rfl, rfl⟩
              · rintro ⟨seg', h, rfl⟩
                cases h
                rfl

/-- The bytes that headers fall back on come from one place. -/
theorem rawPatch_byte {i : ℕ} (h : (rawPatch data c ph).Has i) :
    (rawPatch data c ph).byte i = data.get (c.elfOff + i) := by
  obtain ⟨hlow, hhigh⟩ := h
  have hoff : ph.offset.toNat ≤ i := hlow
  rw [rawPatch_stop] at hhigh
  show Bytes.get ((data.drop (c.elfOff + ph.offset.toNat)).take ph.filesz.toNat) (i - ph.offset.toNat) = _
  rw [Bytes.get, Bytes.get, List.getD_eq_getElem?_getD, List.getD_eq_getElem?_getD,
    List.getElem?_take_of_lt (by omega), List.getElem?_drop]
  congr 2
  omega

theorem entryBytes_iff (hlen : data.length < 2 ^ 63) (hc : c.Checked data)
    (hout : out0.length = c.outSize.toNat) (hsafe : ExtractSafe data c)
    (h : SecondPass data c c.phdrs made) :
    EntryBytes data c (overlay out0 (segments data c ++ made)) ↔ Kept data c := by
  have hmax := hsafe.size
  rw [maxAlloc] at hmax
  -- the copies of headers that fall back agree, and agree with a segment where the second pass says so
  have hraws : ∀ f ∈ made, ∀ f' ∈ made, f.Agree f' := by
    intro f hf f' hf' i hi hi'
    obtain ⟨-, q, -, rfl⟩ := h.sound f hf
    obtain ⟨-, q', -, rfl⟩ := h.sound f' hf'
    rw [rawPatch_byte hi, rawPatch_byte hi']
  have hboth : (∀ w ∈ segments data c, ∀ f ∈ made, w.Agree f) ↔
      ∀ w ∈ segments data c, ∀ ph, FallsIn data c c.phdrs ph → w.Agree (rawPatch data c ph) := by
    constructor
    · intro hagree w hw ph hph i hi hi'
      obtain ⟨f, hf, hoff, hstop⟩ := h.whole ph hph
      have hif : f.Has i := ⟨Nat.le_trans hoff hi'.1, Nat.lt_of_lt_of_le hi'.2 hstop⟩
      obtain ⟨-, q, -, rfl⟩ := h.sound f hf
      rw [hagree w hw _ hf i hi hif, rawPatch_byte hif, rawPatch_byte hi']
    · intro hagree w hw f hf
      obtain ⟨-, q, hq, rfl⟩ := h.sound f hf
      exact hagree w hw q hq
  have hsegs : ∀ w ∈ segments data c, w.stop ≤ out0.length := fun w hw => by
    rw [hout]
    exact hsafe.segments w hw
  have hmade : ∀ f ∈ made, f.stop ≤ out0.length := fun f hf => by
    rw [hout]
    exact (h.sound f hf).1
  have hkept := overlay_kept hsegs hmade hraws
  rw [hboth] at hkept
  have hlenout : (overlay out0 (segments data c ++ made)).length = c.outSize.toNat := by
    rw [length_overlay, hout]
  rw [overlay_append] at hlenout ⊢
  constructor
  · intro hbytes
    have hwhole : ∀ ph ∈ c.phdrs, ph.filesz ≠ 0 → ∀ seg,
        findSELFSegment data ph.index ph.filesz c.entries = some (some seg) →
          seg.length = ph.filesz.toNat ∧ Tame ph := by
      intro ph hph hsize seg hseg
      have hpos := Nat.pos_of_ne_zero fun hz => hsize (BitVec.eq_of_toNat_eq hz)
      obtain ⟨hlast, hin, -⟩ := hbytes ph hph seg hseg (ph.filesz.toNat - 1) (by omega)
      have hle := (findSELFSegment_length hlen hsize hseg).1
      rw [hlenout] at hin
      exact ⟨by omega, by rw [Tame]; omega⟩
    obtain ⟨hagree, hraw⟩ := hkept.1 fun w hw i hi => by
      obtain ⟨ph, hph, hsome⟩ := List.mem_filterMap.1 hw
      obtain ⟨hactive, seg, hseg, rfl⟩ := segPatch_eq_some.1 hsome
      have hlow : ph.offset.toNat ≤ i := hi.1
      have hhigh : i < ph.offset.toNat + seg.length := hi.2
      have hsize : ph.filesz ≠ 0 := fun hz => active_iff.1 hactive (.inl hz)
      have hle := (findSELFSegment_length hlen hsize hseg).1
      obtain ⟨-, -, heq⟩ := hbytes ph hph seg hseg (i - ph.offset.toNat) (by omega)
      rwa [Nat.add_sub_cancel' hlow] at heq
    exact ⟨hwhole, hagree, hraw⟩
  · rintro ⟨hwhole, hagree, hraw⟩ ph hph seg hseg k hk
    have hsize : ph.filesz ≠ 0 := fun hz => by
      rw [hz] at hk
      exact absurd hk (Nat.not_lt_zero _)
    obtain ⟨hlast, htame⟩ := hwhole ph hph hsize seg hseg
    have hfit := hc.fits ph hph
    rw [BitVec.le_def, BitVec.toNat_add_of_lt htame] at hfit
    have hactive : active c ph = true := by
      rw [active_iff, not_or, BitVec.not_le, BitVec.lt_def]
      exact ⟨hsize, by omega⟩
    have hw : ({ off := ph.offset.toNat, bytes := seg } : Patch) ∈ segments data c :=
      List.mem_filterMap.2 ⟨ph, hph, segPatch_eq_some.2 ⟨hactive, seg, hseg, rfl⟩⟩
    have hhas : ({ off := ph.offset.toNat, bytes := seg } : Patch).Has (ph.offset.toNat + k) :=
      ⟨Nat.le_add_right _ _, by show ph.offset.toNat + k < ph.offset.toNat + seg.length; omega⟩
    have hget := hkept.2 ⟨hagree, hraw⟩ _ hw _ hhas
    rw [Patch.byte, Nat.add_sub_cancel_left] at hget
    exact ⟨by omega, by rw [hlenout]; omega, hget⟩

theorem finish_total {st : Copying} (hlen : 64 ≤ st.out.length) : finish st ≠ none := by
  obtain ⟨machine, hmachine⟩ := readLE_total 2 st.out (by omega : 18 + 2 ≤ st.out.length)
  rw [finish, hmachine]
  split
  · exact fun h => by cases h
  · split
    · exact fun h => by cases h
    · exact fun h => by cases h

theorem finish_eq_ok {st : Copying} {out : Bytes} (h : finish st = some (.ok out)) : out = st.out := by
  rw [finish] at h
  split at h
  · cases h
  · split at h
    · cases h
    · obtain ⟨machine, -, heq⟩ := Option.map_eq_some_iff.1 h
      split at heq
      · cases heq
      · cases heq
        rfl

/-- The image behind the copies, where the extraction is safe. -/
theorem extract_cases (hlen : data.length < 2 ^ 63) (hc : c.Checked data) :
    (ExtractSafe data c ∧ ∃ st, (headers c).bind (copies data c) = some st ∧
        st.out.length = c.outSize.toNat ∧ (EntryBytes data c st.out ↔ Kept data c)) ∨
      (¬ ExtractSafe data c ∧ (headers c).bind (copies data c) = none) := by
  rcases headers_eq hc with ⟨hmax, out0, hheaders, hout⟩ | ⟨hmax, hheaders⟩
  · rw [hheaders, Option.bind_some]
    rcases copies_made hlen hc hout hmax with ⟨hsafe, made, hinv, hcopies⟩ | ⟨hsafe, hcopies⟩
    · refine .inl ⟨hsafe, _, hcopies, ?_, entryBytes_iff hlen hc hout hsafe hinv⟩
      rw [Made, length_overlay, hout]
    · exact .inr ⟨hsafe, hcopies⟩
  · rw [hheaders]
    exact .inr ⟨fun h => hmax h.size, rfl⟩

/-- **The extraction.**  It panics exactly where it is not safe, and an image that it returns carries the
bytes of the entries exactly where they are kept. -/
theorem extract_exact (data : Bytes) (hlen : data.length < 2 ^ 63) :
    (extractELFFromSELF data = none ↔
      isSELF data = true ∧ ∃ c, readContainer data = some (.ok c) ∧ ¬ ExtractSafe data c) ∧
    ∀ c out, isSELF data = true → readContainer data = some (.ok c) →
      extractELFFromSELF data = some (.ok out) → (EntryBytes data c out ↔ Kept data c) := by
  obtain ⟨r, hr, hspec⟩ := readContainer_total hlen
  rw [extractELFFromSELF, hr]
  cases hself : isSELF data with
  | false =>
      refine ⟨iff_of_false (fun h => (by cases h)) fun h => (by cases h.1), fun c out h => ?_⟩
      cases h
  | true =>
      rw [if_neg (by decide)]
      cases r with
      | error e =>
          refine ⟨iff_of_false (fun h => by cases h) ?_, fun c out _ h => ?_⟩
          · rintro ⟨-, c, h, -⟩
            cases h
          · cases h
      | ok c =>
          have hc := hspec c rfl
          dsimp only
          rcases extract_cases hlen hc with ⟨hsafe, st, hst, hall⟩ | ⟨hsafe, hnone⟩
          · rw [hst]
            refine ⟨iff_of_false (fun h => finish_total (by rw [hall.1]; exact hc.size) h) ?_,
              fun c' out _ hc' hout => ?_⟩
            · rintro ⟨-, c', hc', hbad⟩
              cases hc'
              exact hbad hsafe
            · cases hc'
              rw [finish_eq_ok hout]
              exact hall.2
          · rw [hnone]
            refine ⟨iff_of_true rfl ⟨rfl, c, rfl, hsafe⟩, fun c' out _ _ hout => ?_⟩
            cases hout

/-- The 64 bytes of an ELF header for x86-64 with program headers behind it. -/
def ehdrBytes (phnum : ℕ) : Bytes :=
  elfMagic ++ [2] ++ List.replicate 13 0 ++ toLE 2 62 ++ List.replicate 12 0 ++ toLE 8 64 ++
    List.replicate 14 0 ++ toLE 2 0x38 ++ toLE 2 phnum ++ List.replicate 6 0

/-- The bytes of a program header, of its offset and file size. -/
def phdrBytes (ph : ℕ × ℕ) : Bytes :=
  List.replicate 8 0 ++ toLE 8 ph.1 ++ List.replicate 16 0 ++ toLE 8 ph.2 ++ List.replicate 16 0

/-- A container with one entry, for the header 0. -/
def selfFile (offset fileSize : ℕ) (phdrs : List (ℕ × ℕ)) (body : Bytes) : Bytes :=
  selfMagic ++ List.replicate 20 0 ++ toLE 2 1 ++ List.replicate 6 0 ++ toLE 8 0x800 ++ toLE 8 offset ++
    toLE 8 fileSize ++ toLE 8 0 ++ ehdrBytes phdrs.length ++ phdrs.flatMap phdrBytes ++ body

/-- What is read of it. -/
def selfFileContainer (offset fileSize : ℕ) (phdrs : List (ℕ × ℕ)) (outSize : BitVec 64) : Container where
  entries := [{ props := 0x800, offset := BitVec.ofNat 64 offset, fileSize := BitVec.ofNat 64 fileSize
                memorySize := 0 }]
  elfOff := 0x40
  ehdr := ehdrBytes phdrs.length
  phoff := 64
  phdrTable := phdrs.flatMap phdrBytes
  phdrs := phdrs.mapIdx fun i ph =>
    { index := i, type := 0, offset := BitVec.ofNat 64 ph.1, filesz := BitVec.ofNat 64 ph.2 }
  outSize := outSize

/-- A container with two headers that overlap, the second one without an entry. -/
def halfFile (offset fileSize : ℕ) (body : Bytes) : Bytes :=
  selfFile offset fileSize [(0xb0, 4), (0xb2, 4)] body

def halfContainer (offset fileSize : ℕ) : Container :=
  selfFileContainer offset fileSize [(0xb0, 4), (0xb2, 4)] 0xb6

/-- An image of that container. -/
def halfImage (body : Bytes) : Bytes :=
  ehdrBytes 2 ++ phdrBytes (0xb0, 4) ++ phdrBytes (0xb2, 4) ++ body

theorem copyRange_eq {dst src : Bytes} {lo hi : BitVec 64} (hle : lo ≤ hi) (hhi : hi.toNat ≤ dst.length)
    (hsrc : src.length ≤ hi.toNat - lo.toNat) : copyRange dst lo hi src =
      some (dst.take lo.toNat ++ src ++ dst.drop (lo.toNat + src.length)) := by
  rw [BitVec.le_def] at hle
  rw [copyRange, if_pos ⟨BitVec.le_def.2 hle, hhi⟩, List.take_of_length_le hsrc, Bytes.put_eq _ (by omega)]

theorem headers_halfContainer (offset fileSize : ℕ) :
    headers (halfContainer offset fileSize) = some (halfImage (List.replicate 6 0)) := by
  show headers (halfContainer 0 0) = _
  rw [headers, show makeBytes (halfContainer 0 0).outSize = some (List.replicate 0xb6 0) by decide +kernel,
    Option.bind_some, copyRange_eq (by decide) (by decide +kernel) (by decide +kernel), Option.bind_some,
    if_pos (by decide +kernel), copyRange_eq (by decide +kernel) (by decide +kernel) (by decide +kernel),
    Option.bind_some, copyRange_eq (by decide) (by decide +kernel) (by decide +kernel), Option.bind_some,
    copyRange_eq (by decide) (by decide +kernel) (by decide +kernel), Option.bind_some,
    copyRange_eq (by decide) (by decide +kernel) (by decide +kernel)]
  decide +kernel

/-- The image that is returned, from what the copies come to. -/
theorem extract_halfFile {offset fileSize : ℕ} {body : Bytes} {st : Copying} {out : Bytes}
    (hself : isSELF (halfFile offset fileSize body) = true)
    (hc : readContainer (halfFile offset fileSize body) = some (.ok (halfContainer offset fileSize)))
    (hcopies : copies (halfFile offset fileSize body) (halfContainer offset fileSize)
      (halfImage (List.replicate 6 0)) = some st) (hfinish : finish st = some (.ok out)) :
    extractELFFromSELF (halfFile offset fileSize body) = some (.ok out) := by
  rw [extractELFFromSELF, if_neg (by rw [hself]; decide), hc]
  dsimp only
  rw [headers_halfContainer, Option.bind_some, hcopies, Option.bind_some, hfinish]

/-- The file has the bytes of the entry where the second header falls back, so they are kept. -/
theorem extract_exact_half : ∃ c out, readContainer (halfFile 0xf0 4 [1, 2, 3, 4, 5, 6]) = some (.ok c) ∧
    extractELFFromSELF (halfFile 0xf0 4 [1, 2, 3, 4, 5, 6]) = some (.ok out) ∧
    EntryBytes (halfFile 0xf0 4 [1, 2, 3, 4, 5, 6]) c out := by
  generalize hdata : halfFile 0xf0 4 [1, 2, 3, 4, 5, 6] = data
  generalize hcont : halfContainer 0xf0 4 = c
  have hself : isSELF data = true := by
    rw [← hdata]
    decide +kernel
  have hc : readContainer data = some (.ok c) := by
    rw [← hdata, ← hcont]
    decide +kernel
  have hcopies : copies data c (halfImage (List.replicate 6 0)) =
      some { out := halfImage [1, 2, 3, 4, 5, 6], covered := [(0xb0, 0xb4), (0xb2, 0xb6)], copied := 2 } := by
    rw [← hdata, ← hcont]
    decide +kernel
  have hout : extractELFFromSELF data = some (.ok (halfImage [1, 2, 3, 4, 5, 6])) := by
    subst hdata hcont
    exact extract_halfFile hself hc hcopies (by decide +kernel)
  have hsegments : segments data c = [{ off := 0xb0, bytes := [1, 2, 3, 4] }] := by
    rw [← hdata, ← hcont]
    decide +kernel
  have hfind : ∀ ph ∈ c.phdrs, ph.filesz = 4 ∧ ph.offset.toNat ≤ 0xb2 ∧
      (ph.index = 0 ∧ findSELFSegment data ph.index ph.filesz c.entries = some (some [1, 2, 3, 4]) ∨
        findSELFSegment data ph.index ph.filesz c.entries = some none) := by
    rw [← hdata, ← hcont]
    decide +kernel
  have hlen : data.length < 2 ^ 63 := by
    rw [← hdata]
    decide +kernel
  refine ⟨c, _, hc, hout, ((extract_exact data hlen).2 c _ hself hc hout).2
    ⟨fun ph hph _ seg hseg => ?_, fun w hw w' hw' i _ _ => ?_, fun w hw ph hph i hi hi' => ?_⟩⟩
  · obtain ⟨hsize, hoff, ⟨-, hsome⟩ | hnone⟩ := hfind ph hph
    · rw [hsome] at hseg
      cases hseg
      rw [Tame, hsize]
      exact ⟨rfl, by show ph.offset.toNat + 4 < _; omega⟩
    · rw [hnone] at hseg
      cases hseg
  · rw [hsegments] at hw hw'
    rw [List.mem_singleton.1 hw, List.mem_singleton.1 hw']
  · have hraw : ∀ k < 4, Bytes.get [1, 2, 3, 4] k = data.get (c.elfOff + (0xb0 + k)) := by
      rw [← hdata, ← hcont]
      decide +kernel
    rw [hsegments] at hw
    rw [List.mem_singleton.1 hw] at hi ⊢
    have hlow : 0xb0 ≤ i := hi.1
    have hhigh : i < 0xb0 + 4 := hi.2
    have hbyte := hraw (i - 0xb0) (by omega)
    rw [Nat.add_sub_cancel' hlow] at hbyte
    rw [rawPatch_byte hi', ← hbyte, Patch.byte]

/-- An entry that goes past 64 bits panics; and half of the first header's bytes are overwritten. -/
theorem extract_clobbers :
    extractELFFromSELF (halfFile 0xf8 0xffffffffffffffff (List.replicate 12 0xee)) = none ∧
    ∃ c out, readContainer (halfFile 0xf8 4 (List.replicate 8 0xee ++ [1, 2, 3, 4])) = some (.ok c) ∧
      extractELFFromSELF (halfFile 0xf8 4 (List.replicate 8 0xee ++ [1, 2, 3, 4])) = some (.ok out) ∧
      ¬ EntryBytes (halfFile 0xf8 4 (List.replicate 8 0xee ++ [1, 2, 3, 4])) c out := by
  have hc : readContainer (halfFile 0xf8 4 (List.replicate 8 0xee ++ [1, 2, 3, 4])) =
      some (.ok (halfContainer 0xf8 4)) := by
    decide +kernel
  have hcopies : copies (halfFile 0xf8 4 (List.replicate 8 0xee ++ [1, 2, 3, 4])) (halfContainer 0xf8 4)
      (halfImage (List.replicate 6 0)) = some { out := halfImage [1, 2, 0xee, 0xee, 0xee, 0xee]
                                                covered := [(0xb0, 0xb4), (0xb2, 0xb6)], copied := 2 } := by
    decide +kernel
  have hout := extract_halfFile (by decide +kernel) hc hcopies
    (show finish _ = some (.ok (halfImage [1, 2, 0xee, 0xee, 0xee, 0xee])) by decide +kernel)
  refine ⟨?_, _, _, hc, hout, fun h => ?_⟩
  · have hc' : readContainer (halfFile 0xf8 0xffffffffffffffff (List.replicate 12 0xee)) =
        some (.ok (halfContainer 0xf8 0xffffffffffffffff)) := by
      decide +kernel
    have hpanic : copies (halfFile 0xf8 0xffffffffffffffff (List.replicate 12 0xee))
        (halfContainer 0xf8 0xffffffffffffffff) (halfImage (List.replicate 6 0)) = none := by
      decide +kernel
    rw [extractELFFromSELF, if_neg (by decide +kernel), hc']
    dsimp only
    rw [headers_halfContainer, Option.bind_some, hpanic, Option.bind_none]
  · have hfind : findSELFSegment (halfFile 0xf8 4 (List.replicate 8 0xee ++ [1, 2, 3, 4])) 0 4
        (halfContainer 0xf8 4).entries = some (some [1, 2, 3, 4]) := by
      decide +kernel
    have hbyte := (h { index := 0, type := 0, offset := 0xb0, filesz := 4 } List.mem_cons_self _ hfind 2
      (by decide)).2.2
    revert hbyte
    decide +kernel

end PS4Recomp.Elf
