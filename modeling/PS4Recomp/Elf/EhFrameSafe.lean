import PS4Recomp.Elf.EhFrame

/-!
# Unwind tables are read safely

* `Fde.Decoded` — an extent is what the fields of its record come to;
* `parseCIE_total`, `recordFde_spec`, `walkRecord_spec`, `walkEHFrame_spec` — the records are read without a
  panic, and every extent is decoded from one;
* `scanFrom_spec`, `scanFrom_panics` — the search for their start, from 4 on and below;
* `findHdr_spec`, `Attach.Recorded` — a header, and what stays true of the image;
* `Steady`, `Steady.orElse`, `parseEHFrameWindow_steady` — a window is searched without a panic, and whether
  anything is found depends on the bytes of the image alone;
* `WindowMisses`, `ScanMisses`, `ReachesLow` — a program header that leads nowhere, and one that leads to a
  search below the address 4;
* `attachUnwind_spec`, `Fde.Only`, `Fde.Fits`, **`attachUnwind_exact`** — the panics, and the extents that are
  decoded only from their records;
* **`attachUnwind_beyond`** — a record that is too short, and a program header at the address 0.
-/

namespace PS4Recomp.Elf

open Library

variable {img : Bytes} {w : Walk} {f : Fde}

/-- An extent is what the two fields of its record come to. -/
structure Fde.Decoded (img : Bytes) (f : Fde) : Prop where
  fields : ∃ size, readFDERange f.enc img (f.body.toNat + 4) = some (some ((f.range.start, size), f.next)) ∧
    f.range.stop = f.range.start + size
  record : f.body.toNat + 4 ≤ f.recEnd.toNat
  inside : f.recEnd.toNat ≤ img.length

/-! ### the records -/

theorem getElem?_total {i : ℕ} (h : i < img.length) : ∃ b, img[i]? = some b :=
  ⟨img[i], List.getElem?_eq_getElem h⟩

theorem parseAug_total (hlen : img.length < 2 ^ 63) {dataEnd : ℕ} (hend : dataEnd ≤ img.length)
    (aug : List (BitVec 8)) (i : ℕ) (info : CieInfo) : ∃ r, parseAug img dataEnd aug i info = some r := by
  induction aug generalizing i info with
  | nil => exact ⟨_, rfl⟩
  | cons ch chs ih =>
      rw [parseAug]
      split
      · exact ⟨_, rfl⟩
      · obtain ⟨b, hb⟩ := getElem?_total (by omega : i < img.length)
        rw [hb]
        split
        · exact ih _ _
        split
        · exact ih _ _
        split
        · split
          · exact ⟨_, rfl⟩
          · obtain ⟨r, hr⟩ := ehRead_total 0 b hlen (i + 1)
            rw [Option.bind_some, hr, Option.bind_some]
            cases r with
            | none => exact ⟨_, rfl⟩
            | some taken =>
                dsimp only
                split
                · exact ⟨_, rfl⟩
                · exact ih _ _
        · exact ⟨_, rfl⟩

theorem readULEB_total (img : Bytes) (i limit : ℕ) : ∃ r, readULEB img i limit = some r := by
  obtain ⟨r, hr, -⟩ := readLEB_total false img limit 10 i 0 0
  exact ⟨r, hr⟩

theorem skipFactors_total (img : Bytes) (ver : BitVec 8) (i stop : ℕ) :
    ∃ r, skipFactors img ver i stop = some r := by
  obtain ⟨r, hr⟩ := readULEB_total img i stop
  rw [skipFactors, hr, Option.bind_some]
  cases r with
  | none => exact ⟨_, rfl⟩
  | some taken =>
      obtain ⟨r', hr', -⟩ := readLEB_total true img stop 10 taken.2 0 0
      dsimp only
      rw [readSLEB, hr', Option.bind_some]
      cases r' with
      | none => exact ⟨_, rfl⟩
      | some taken' =>
          dsimp only
          split
          · split
            · exact ⟨_, rfl⟩
            · exact ⟨_, rfl⟩
          · obtain ⟨r'', hr''⟩ := readULEB_total img taken'.2 stop
            rw [hr'']
            exact ⟨_, rfl⟩

theorem parseCIE_total (hlen : img.length < 2 ^ 63) (start stop : BitVec 64) :
    ∃ r, parseCIE img start stop = some r := by
  rw [parseCIE]
  split
  · exact ⟨_, rfl⟩
  · rename_i hfit
    rw [not_or, BitVec.not_lt, BitVec.not_lt] at hfit
    have hstop := hfit.2
    rw [BitVec.le_def, len64_toNat_lt hlen] at hstop
    dsimp only
    split
    · exact ⟨_, rfl⟩
    · rename_i hi
      obtain ⟨ver, hver⟩ := getElem?_total (by omega : start.toNat + 8 < img.length)
      obtain ⟨rest, hrest, -⟩ := slice_total img (by omega : start.toNat + 8 + 1 ≤ stop.toNat) hstop
      rw [hver, Option.bind_some, hrest, Option.bind_some]
      split
      · exact ⟨_, rfl⟩
      · obtain ⟨r, hr⟩ := skipFactors_total img ver
          (start.toNat + 8 + 1 + (rest.takeWhile (· ≠ 0)).length + 1) stop.toNat
        rw [hr, Option.bind_some]
        cases r with
        | none => exact ⟨_, rfl⟩
        | some i =>
            dsimp only
            split
            · exact ⟨_, rfl⟩
            · obtain ⟨r', hr'⟩ := readULEB_total img i stop.toNat
              rw [hr', Option.bind_some]
              cases r' with
              | none => exact ⟨_, rfl⟩
              | some taken =>
                  dsimp only
                  split
                  · exact ⟨_, rfl⟩
                  · rename_i hend
                    rw [BitVec.not_lt, BitVec.le_def] at hend
                    exact parseAug_total hlen (Nat.le_trans hend hstop) _ _ _

theorem cieRecordEnd_total (hlen : img.length < 2 ^ 63) {cieVA : BitVec 64} (limit : BitVec 64)
    (hcie : cieVA.toNat ≤ img.length) : ∃ r, cieRecordEnd img cieVA limit = some r := by
  rw [cieRecordEnd]
  split
  · exact ⟨_, rfl⟩
  · rename_i hfit
    rw [not_or, BitVec.not_lt, BitVec.le_def, len64_toNat_lt hlen, toNat_add_word (n := 4) rfl (by omega)] at hfit
    obtain ⟨length, hlength⟩ := readLE_total 4 img hfit.1
    rw [hlength]
    exact ⟨_, rfl⟩

theorem recordFde_spec (hlen : img.length < 2 ^ 63) (frameVA : BitVec 64) {body recEnd : BitVec 64}
    (info : CieInfo) (w : Walk) (hrec : body.toNat + 4 ≤ recEnd.toNat) (hend : recEnd.toNat ≤ img.length)
    (hw : ∀ f ∈ w.fdes, f.Decoded img) :
    ∃ w', recordFde img frameVA body recEnd info w = some w' ∧ ∀ f ∈ w'.fdes, f.Decoded img := by
  have hbody : (body + 4).toNat = body.toNat + 4 := toNat_add_word rfl (by omega)
  obtain ⟨r, hr⟩ := readFDERange_total info.enc hlen (body.toNat + 4)
  rw [recordFde, hbody, hr, Option.bind_some]
  cases r with
  | none => exact ⟨w, rfl, hw⟩
  | some taken =>
      obtain ⟨⟨start, size⟩, fdeOff⟩ := taken
      have hnew : ∀ f ∈ w.fdes ++ [{ body, recEnd, enc := info.enc
                                     range := { start, stop := start + size }, next := fdeOff }],
          f.Decoded img := by
        intro f hf
        rcases List.mem_append.1 hf with hf | hf
        · exact hw f hf
        · rw [List.mem_singleton.1 hf]
          exact ⟨⟨size, hr, rfl⟩, hrec, hend⟩
      dsimp only
      split
      · obtain ⟨r', hr'⟩ := readULEB_total img fdeOff recEnd.toNat
        rw [hr', Option.bind_some]
        cases r' with
        | none => exact ⟨_, rfl, hnew⟩
        | some aug =>
            dsimp only
            split
            · obtain ⟨r'', hr''⟩ := ehRead_total frameVA info.lsdaEnc hlen aug.2
              rw [hr'', Option.map_some]
              cases r'' with
              | none => exact ⟨_, rfl, hnew⟩
              | some lsda =>
                  refine ⟨_, rfl, ?_⟩
                  dsimp only
                  split
                  · exact hnew
                  · exact hnew
            · exact ⟨_, rfl, hnew⟩
      · exact ⟨_, rfl, hnew⟩

theorem walkRecord_spec (hlen : img.length < 2 ^ 63) (frameVA limit : BitVec 64) {pos recEnd : BitVec 64}
    (w : Walk) (hrec : pos.toNat + 8 ≤ recEnd.toNat) (hend : recEnd.toNat ≤ img.length)
    (hw : ∀ f ∈ w.fdes, f.Decoded img) :
    ∃ w', walkRecord img frameVA limit pos recEnd w = some w' ∧ ∀ f ∈ w'.fdes, f.Decoded img := by
  have hbody : (pos + 4).toNat = pos.toNat + 4 := toNat_add_word rfl (by omega)
  obtain ⟨id32, hid⟩ := readLE_total 4 img (by omega : (pos + 4).toNat + 4 ≤ img.length)
  rw [walkRecord]
  dsimp only
  rw [hid, Option.bind_some]
  split
  · obtain ⟨info, hinfo⟩ := parseCIE_total hlen pos recEnd
    rw [hinfo]
    exact ⟨_, rfl, hw⟩
  · split
    · exact ⟨w, rfl, hw⟩
    · rename_i hle
      have hrecord : ∀ info w', (∀ f ∈ w'.fdes, f.Decoded img) → ∃ w'',
          (if CieInfo.ok info then recordFde img frameVA (pos + 4) recEnd info w' else some w') = some w'' ∧
            ∀ f ∈ w''.fdes, f.Decoded img := by
        intro info w' hw'
        split
        · exact recordFde_spec hlen frameVA info w' (by omega) hend hw'
        · exact ⟨w', rfl, hw'⟩
      split
      · exact hrecord _ _ hw
      · rw [BitVec.not_lt, BitVec.le_def] at hle
        have hcie : (pos + 4 - id32.setWidth 64).toNat ≤ img.length := by
          rw [BitVec.toNat_sub_of_le (BitVec.le_def.2 hle)]
          omega
        obtain ⟨stop, hstop⟩ := cieRecordEnd_total hlen limit hcie
        obtain ⟨info, hinfo⟩ := parseCIE_total hlen (pos + 4 - id32.setWidth 64) stop
        rw [hstop, Option.bind_some, hinfo, Option.map_some, Option.bind_some]
        exact hrecord _ _ hw

theorem walkFrom_spec (hlen : img.length < 2 ^ 63) (frameVA : BitVec 64) {limit : BitVec 64}
    (hlimit : limit.toNat ≤ img.length) (n : ℕ) (pos : BitVec 64) (w : Walk) (hpos : pos ≤ limit)
    (hw : ∀ f ∈ w.fdes, f.Decoded img) :
    ∃ stop w', walkFrom img frameVA limit n pos w = some (stop, w') ∧ ∀ f ∈ w'.fdes, f.Decoded img := by
  induction n generalizing pos w with
  | zero => exact ⟨pos, w, rfl, hw⟩
  | succ n ih =>
      rw [BitVec.le_def] at hpos
      have hbody : (pos + 4).toNat = pos.toNat + 4 := toNat_add_word rfl (by omega)
      have hlong : (pos + 12).toNat = pos.toNat + 12 := toNat_add_word rfl (by omega)
      rw [walkFrom]
      split
      · exact ⟨pos, w, rfl, hw⟩
      · rename_i hfit
        rw [BitVec.not_lt, BitVec.le_def, hbody] at hfit
        obtain ⟨length32, hlength⟩ := readLE_total 4 img (by omega : pos.toNat + 4 ≤ img.length)
        rw [hlength, Option.bind_some]
        dsimp only
        split
        · exact ⟨_, w, rfl, hw⟩
        split
        · split
          · exact ⟨pos, w, rfl, hw⟩
          · rename_i hfit12
            rw [BitVec.not_lt, BitVec.le_def, hlong] at hfit12
            obtain ⟨longLen, hlongLen⟩ := readLE_total 8 img (by omega : (pos + 4).toNat + 8 ≤ img.length)
            rw [hlongLen, Option.bind_some]
            split
            · exact ⟨pos, w, rfl, hw⟩
            · rename_i hend
              rw [not_or, not_or] at hend
              exact ih _ w (BitVec.not_lt.1 hend.2.2) hw
        · split
          · exact ⟨pos, w, rfl, hw⟩
          · split
            · exact ⟨pos, w, rfl, hw⟩
            · rename_i hend hbody4
              rw [not_or, BitVec.not_lt, BitVec.not_lt] at hend
              rw [BitVec.not_lt, BitVec.le_def] at hbody4
              have hrecEnd := BitVec.le_def.1 hend.2
              have hbody8 : (pos + 4 + 4).toNat = pos.toNat + 8 := by
                rw [toNat_add_word (n := 4) rfl (by omega), hbody]
              rw [hbody8] at hbody4
              obtain ⟨w', hw', hdecoded⟩ := walkRecord_spec hlen frameVA limit w hbody4 (by omega) hw
              rw [hw', Option.bind_some]
              exact ih _ w' hend.2 hdecoded

/-- **The records** are read without a panic, and every extent is decoded from one. -/
theorem walkEHFrame_spec (hlen : img.length < 2 ^ 63) (frameVA limit : BitVec 64) :
    ∃ stop w, walkEHFrame img frameVA limit = some (stop, w) ∧ ∀ f ∈ w.fdes, f.Decoded img := by
  rw [walkEHFrame]
  split
  · exact ⟨_, _, rfl, fun f hf => (by cases hf)⟩
  · rename_i hargs
    rw [not_or, not_or, BitVec.not_lt, BitVec.not_le] at hargs
    have hlimit := hargs.2.1
    rw [BitVec.le_def, len64_toNat_lt hlen] at hlimit
    exact walkFrom_spec hlen frameVA hlimit _ frameVA {} (BitVec.le_of_lt (BitVec.not_le.1 hargs.2.2))
      fun f hf => (by cases hf)

/-! ### the search -/

theorem scanAt_spec (hlen : img.length < 2 ^ 63) {limit pos : BitVec 64} (hlimit : limit.toNat ≤ img.length)
    (hpos : pos.toNat + 16 ≤ limit.toNat) (found : Scan) (hfound : ∀ f ∈ found.walk.fdes, f.Decoded img) :
    ∃ s, scanAt img limit pos found = some s ∧ ∀ f ∈ s.walk.fdes, f.Decoded img := by
  have hmay : ∃ may, mayStart img pos = some may := by
    have h4 : (pos + 4).toNat = pos.toNat + 4 := toNat_add_word rfl (by omega)
    have h8 : (pos + 8).toNat = pos.toNat + 8 := toNat_add_word rfl (by omega)
    obtain ⟨len32, hlen32⟩ := readLE_total 4 img (by omega : pos.toNat + 4 ≤ img.length)
    obtain ⟨id, hid⟩ := readLE_total 4 img (by omega : (pos + 4).toNat + 4 ≤ img.length)
    obtain ⟨version, hversion⟩ := getElem?_total (by omega : (pos + 8).toNat < img.length)
    rw [mayStart, hlen32, Option.bind_some, hid, Option.bind_some, hversion]
    split
    · exact ⟨_, rfl⟩
    · exact ⟨_, rfl⟩
  obtain ⟨may, hmay⟩ := hmay
  rw [scanAt, hmay, Option.bind_some]
  split
  · obtain ⟨stop, w, hw, hdecoded⟩ := walkEHFrame_spec hlen pos limit
    rw [hw]
    refine ⟨_, rfl, ?_⟩
    dsimp only
    split
    · exact hdecoded
    · exact hfound
  · exact ⟨found, rfl, hfound⟩

theorem scanFrom_spec (hlen : img.length < 2 ^ 63) {limit : BitVec 64} (minAddr : BitVec 64)
    (hlimit : limit.toNat ≤ img.length) (n : ℕ) (pos : BitVec 64) (found : Scan) (hn : pos.toNat = n)
    (hpos : pos.toNat ≤ limit.toNat) (hfound : ∀ f ∈ found.walk.fdes, f.Decoded img) :
    ∃ s, scanFrom img limit minAddr pos found = some s ∧ ∀ f ∈ s.walk.fdes, f.Decoded img := by
  induction n using Nat.strongRecOn generalizing pos found with
  | ind n ih =>
      have hnext : ∀ found : Scan, (∀ f ∈ found.walk.fdes, f.Decoded img) →
          ∃ s, (if pos < 4 then some found else scanFrom img limit minAddr (pos - 4) found) = some s ∧
            ∀ f ∈ s.walk.fdes, f.Decoded img := by
        intro found hfound
        split
        · exact ⟨found, rfl, hfound⟩
        · rename_i hlow
          have hless := toNat_sub_four_lt hlow
          exact ih _ (by omega) (pos - 4) found rfl (by omega) hfound
      rw [scanFrom]
      split
      · exact ⟨found, rfl, hfound⟩
      · split
        · exact hnext found hfound
        · rename_i hfit
          rw [BitVec.not_lt, BitVec.le_def, toNat_add_word (n := 16) rfl (by omega)] at hfit
          obtain ⟨s, hs, hdecoded⟩ := scanAt_spec hlen hlimit hfit found hfound
          rw [hs, Option.bind_some]
          exact hnext s hdecoded

theorem not_lt_zero64 {pos : BitVec 64} : ¬ pos < 0 := by
  rw [BitVec.lt_def]
  exact Nat.not_lt_zero _

theorem scanFrom_skip {limit pos : BitVec 64} (found : Scan) (hfit : limit < pos + 16) (hpos : ¬ pos < 4) :
    scanFrom img limit 0 pos found = scanFrom img limit 0 (pos - 4) found := by
  rw [scanFrom, if_neg not_lt_zero64, if_pos hfit, dif_neg hpos]

/-- Below the address 4 the search begins at the other end of the address space, and panics. -/
theorem scanFrom_panics (hlen : img.length < 2 ^ 63) {limit : BitVec 64} (hlimit : limit.toNat < 4)
    (found : Scan) : scanFrom img limit 0 (limit - 4) found = none := by
  -- the first three positions are too close to the limit, the fourth one is 16 bytes away
  have hpos : ∀ k : ℕ, 0 < k → k ≤ 4 → (limit - BitVec.ofNat 64 (4 * k)).toNat =
      2 ^ 64 + limit.toNat - 4 * k := by
    intro k hk hk4
    rw [BitVec.toNat_sub, BitVec.toNat_ofNat]
    omega
  have hnext : ∀ k : ℕ, limit - BitVec.ofNat 64 (4 * k) - 4 = limit - BitVec.ofNat 64 (4 * (k + 1)) := by
    intro k
    rw [BitVec.sub_sub, Nat.mul_succ, BitVec.ofNat_add]
    rfl
  have hsum : ∀ k : ℕ, 0 < k → k ≤ 4 → (limit - BitVec.ofNat 64 (4 * k) + 16).toNat =
      limit.toNat + 16 - 4 * k := by
    intro k hk hk4
    rw [BitVec.toNat_add, hpos k hk hk4]
    show (2 ^ 64 + limit.toNat - 4 * k + 16) % 2 ^ 64 = _
    omega
  have hskip : ∀ k : ℕ, 0 < k → k ≤ 3 → scanFrom img limit 0 (limit - BitVec.ofNat 64 (4 * k)) found =
      scanFrom img limit 0 (limit - BitVec.ofNat 64 (4 * (k + 1))) found := by
    intro k hk hk3
    rw [← hnext k]
    refine scanFrom_skip found ?_ ?_
    · rw [BitVec.lt_def, hsum k hk (by omega)]
      omega
    · rw [BitVec.lt_def, hpos k hk (by omega)]
      show ¬ 2 ^ 64 + limit.toNat - 4 * k < 4
      omega
  have hfar : scanAt img limit (limit - BitVec.ofNat 64 (4 * 4)) found = none := by
    rw [scanAt, mayStart, readLE, hpos 4 (by decide) (by decide), if_neg (by omega)]
    rfl
  have hfirst := hskip 1 (by decide) (by decide)
  rw [hskip 2 (by decide) (by decide), hskip 3 (by decide) (by decide)] at hfirst
  refine hfirst.trans ?_
  rw [scanFrom, if_neg not_lt_zero64, if_neg (by
    rw [BitVec.lt_def, hsum 4 (by decide) (by decide)]
    omega), hfar]
  rfl

/-- **The search** panics exactly where there is no room for a word in front of its limit. -/
theorem scanBackwardEHFrame_spec (hlen : img.length < 2 ^ 63) (limit : BitVec 64) :
    (4 ≤ limit.toNat ∧ 4 ≤ img.length ∧ ∃ s, scanBackwardEHFrame img limit = some s ∧
        ∀ f ∈ s.walk.fdes, f.Decoded img) ∨
      (¬ (4 ≤ limit.toNat ∧ 4 ≤ img.length) ∧ scanBackwardEHFrame img limit = none) := by
  have hmin : (if len64 img < limit then len64 img else limit).toNat = min limit.toNat img.length := by
    split
    · rename_i hlt
      rw [BitVec.lt_def, len64_toNat_lt hlen] at hlt
      rw [len64_toNat_lt hlen]
      omega
    · rename_i hge
      rw [BitVec.lt_def, len64_toNat_lt hlen] at hge
      omega
  rw [scanBackwardEHFrame]
  generalize (if len64 img < limit then len64 img else limit) = stop at hmin ⊢
  by_cases hroom : 4 ≤ limit.toNat ∧ 4 ≤ img.length
  · have hpos : (stop - 4).toNat ≤ stop.toNat := by
      rw [BitVec.toNat_sub_of_le (by rw [BitVec.le_def]; show 4 ≤ stop.toNat; omega)]
      exact Nat.sub_le _ _
    exact .inl ⟨hroom.1, hroom.2, scanFrom_spec hlen _ (by omega) _ (stop - 4) {} rfl hpos
      fun f hf => (by cases hf)⟩
  · refine .inr ⟨hroom, ?_⟩
    have hlow : stop.toNat < 4 := by omega
    rw [if_neg (by
      rw [BitVec.lt_def]
      show ¬ 33554432 < stop.toNat
      omega)]
    exact scanFrom_panics hlen hlow {}

/-! ### the headers -/

theorem findHdr_spec (hlen : img.length < 2 ^ 63) (hdrVA hdrSize pcrelBias : BitVec 64) :
    ∃ r, findHdr img hdrVA hdrSize pcrelBias = some r ∧
      ∀ g, r = some g → ∀ f ∈ g.walk.fdes, f.Decoded img := by
  have hnone : ∃ r : Option Found, some none = some r ∧
      ∀ g, r = some g → ∀ f ∈ g.walk.fdes, f.Decoded img := ⟨none, rfl, fun g h => (by cases h)⟩
  rw [findHdr]
  split
  · exact hnone
  · rename_i hargs
    rw [not_or, not_or, BitVec.not_le, BitVec.not_lt, BitVec.not_lt, BitVec.lt_def, BitVec.le_def,
      BitVec.le_def, len64_toNat_lt hlen] at hargs
    have hfit : hdrVA.toNat + 4 ≤ img.length := by
      have hsum := hargs.2.2
      rwa [toNat_add_word (n := 4) rfl (by omega)] at hsum
    obtain ⟨version, hversion⟩ := getElem?_total (by omega : hdrVA.toNat < img.length)
    obtain ⟨enc, henc⟩ := getElem?_total (by omega : hdrVA.toNat + 1 < img.length)
    obtain ⟨countEnc, hcountEnc⟩ := getElem?_total (by omega : hdrVA.toNat + 2 < img.length)
    rw [hversion, Option.bind_some, henc, Option.bind_some]
    split
    · exact hnone
    · obtain ⟨r, hr⟩ := ehRead_total hdrVA enc hlen (hdrVA.toNat + 4)
      rw [hr, Option.bind_some]
      split
      · exact hnone
      · rename_i frameVA off
        split
        · exact hnone
        · split
          · exact hnone
          · obtain ⟨r', hr'⟩ := ehRead_total hdrVA countEnc hlen off
            rw [hcountEnc, Option.bind_some, hr', Option.bind_some]
            split
            · exact hnone
            · rename_i frameVA _ _ _ _
              dsimp only
              obtain ⟨stop, w, hw, hdecoded⟩ := walkEHFrame_spec hlen frameVA
                (if frameVA < hdrVA ∧ hdrVA < len64 img then hdrVA else len64 img)
              rw [hw, Option.map_some]
              refine ⟨_, rfl, fun g hg => ?_⟩
              dsimp only at hg
              split at hg
              · cases hg
              · cases hg
                exact hdecoded

/-- What stays true of the image: its bytes, and that every new extent is the one of a record. -/
structure Attach.Recorded (l : LoadedELF) (st : Attach) : Prop where
  image : st.elf.memoryImage = l.memoryImage
  decoded : ∀ f ∈ st.fdes, f.Decoded l.memoryImage
  bounds : ∀ r ∈ st.elf.funcBounds, r ∈ l.funcBounds ∨ ∃ f ∈ st.fdes, f.range = r

variable {l : LoadedELF} {st : Attach}

theorem Attach.recorded_of_walk (himage : st.elf.memoryImage = l.memoryImage)
    (hdecoded : ∀ f ∈ st.fdes, f.Decoded l.memoryImage)
    (hbounds : st.elf.funcBounds = normalizeBounds (st.fdes.map Fde.range)) : st.Recorded l := by
  refine ⟨himage, hdecoded, fun r hr => .inr ?_⟩
  rw [hbounds] at hr
  exact List.mem_map.1 ((normalizeBounds_normal _).of_mem r hr).1

theorem Attach.recorded_of_nil (himage : st.elf.memoryImage = l.memoryImage)
    (hdecoded : ∀ f ∈ st.fdes, f.Decoded l.memoryImage) (hbounds : st.elf.funcBounds = []) :
    st.Recorded l :=
  ⟨himage, hdecoded, fun r hr => by rw [hbounds] at hr; cases hr⟩

/-- A step that does not panic and finds something or not by the bytes of the image alone. -/
def Steady (l : LoadedELF) (step : Attach → Option (Attach × Bool)) : Prop :=
  ∃ ok, ∀ st, st.Recorded l → ∃ st', step st = some (st', ok) ∧ st'.Recorded l

theorem steady_false (l : LoadedELF) : Steady l fun st => some (st, false) :=
  ⟨false, fun st hst => ⟨st, rfl, hst⟩⟩

theorem Steady.orElse {step next : Attach → Option (Attach × Bool)} (h : Steady l step)
    (hnext : Steady l next) :
    Steady l fun st => (step st).bind fun (st, ok) => if ok then some (st, true) else next st := by
  obtain ⟨ok, h⟩ := h
  obtain ⟨ok', hnext⟩ := hnext
  refine ⟨ok || ok', fun st hst => ?_⟩
  obtain ⟨st', hstep, hst'⟩ := h st hst
  dsimp only
  rw [hstep, Option.bind_some]
  cases ok with
  | true => exact ⟨st', rfl, hst'⟩
  | false => exact hnext st' hst'

theorem tryHdr_steady (hlen : l.memoryImage.length < 2 ^ 63) (winVA stop hdr : BitVec 64) :
    Steady l fun st => tryHdr st winVA stop hdr := by
  by_cases hout : hdr < winVA ∨ stop < hdr + 4
  · refine ⟨false, fun st hst => ⟨st, ?_, hst⟩⟩
    exact if_pos hout
  · obtain ⟨r, hr, hdecoded⟩ := findHdr_spec hlen hdr (stop - hdr) (hdr - winVA)
    cases r with
    | none =>
        refine ⟨false, fun st hst => ?_⟩
        dsimp only
        rw [tryHdr, if_neg hout, parseEHFrameHdr, hst.image, hr]
        exact ⟨_, rfl, Attach.recorded_of_nil hst.image (fun f hf => (by cases hf)) rfl⟩
    | some g =>
        refine ⟨decide (normalizeBounds g.walk.bounds ≠ []), fun st hst => ?_⟩
        dsimp only
        rw [tryHdr, if_neg hout, parseEHFrameHdr, hst.image, hr]
        exact ⟨_, rfl, Attach.recorded_of_walk hst.image (hdecoded g rfl) rfl⟩

theorem windowFrom_steady (hlen : l.memoryImage.length < 2 ^ 63) (winVA : BitVec 64) {stop : BitVec 64}
    (hstop : stop.toNat ≤ l.memoryImage.length) (n i : ℕ) (hn : stop.toNat - i = n) :
    Steady l (windowFrom winVA stop i) := by
  induction n generalizing i with
  | zero =>
      refine ⟨false, fun st hst => ⟨st, ?_, hst⟩⟩
      rw [windowFrom, dif_neg (by omega)]
  | succ n ih =>
      by_cases hfit : i + 4 ≤ stop.toNat
      · obtain ⟨bytes, hbytes, -⟩ := slice_total l.memoryImage (by omega : i ≤ i + 4) (by omega)
        have hfirst : Steady l fun st => if bytes = [1, 0x1b, 0x03, 0x3b] then
            tryHdr st winVA stop (BitVec.ofNat 64 i) else some (st, false) := by
          by_cases hmagic : bytes = [1, 0x1b, 0x03, 0x3b]
          · simp only [if_pos hmagic]
            exact tryHdr_steady hlen winVA stop _
          · simp only [if_neg hmagic]
            exact steady_false l
        obtain ⟨ok, h⟩ := hfirst.orElse (ih (i + 1) (by omega))
        refine ⟨ok, fun st hst => ?_⟩
        rw [windowFrom, dif_pos hfit, hst.image, hbytes, Option.bind_some]
        exact h st hst
      · refine ⟨false, fun st hst => ⟨st, ?_, hst⟩⟩
        rw [windowFrom, dif_neg hfit]

theorem parseEHFrameWindow_steady (hlen : l.memoryImage.length < 2 ^ 63) (winVA winSize : BitVec 64) :
    Steady l fun st => parseEHFrameWindow st winVA winSize := by
  by_cases hout : len64 l.memoryImage ≤ winVA
  · refine ⟨false, fun st hst => ⟨st, ?_, hst⟩⟩
    dsimp only
    rw [parseEHFrameWindow, hst.image, if_pos hout]
  · have hva : winVA.toNat < l.memoryImage.length := by
      rw [BitVec.not_le, BitVec.lt_def, len64_toNat_lt hlen] at hout
      exact hout
    obtain ⟨version, hversion⟩ := getElem?_total hva
    have hstop : (if len64 l.memoryImage < winVA + winSize then len64 l.memoryImage
        else winVA + winSize).toNat ≤ l.memoryImage.length := by
      split
      · exact Nat.le_of_eq (len64_toNat_lt hlen)
      · rename_i hle
        rwa [BitVec.not_lt, BitVec.le_def, len64_toNat_lt hlen] at hle
    have hfirst : ∀ stop, Steady l fun st => if version = 1 then tryHdr st winVA stop winVA
        else some (st, false) := by
      intro stop
      by_cases hone : version = 1
      · simp only [if_pos hone]
        exact tryHdr_steady hlen winVA stop _
      · simp only [if_neg hone]
        exact steady_false l
    obtain ⟨ok, h⟩ := (hfirst _).orElse (windowFrom_steady hlen winVA hstop _ winVA.toNat rfl)
    refine ⟨ok, fun st hst => ?_⟩
    dsimp only
    rw [parseEHFrameWindow, hst.image, if_neg hout]
    rw [hversion, Option.bind_some]
    exact h st hst

/-! ### `attachUnwind` -/

/-- A program header in whose window there is no header of unwind information. -/
def WindowMisses (l : LoadedELF) (p : ProgHeader) : Prop :=
  (parseEHFrameWindow { elf := l } p.vaddr p.filesz).map Prod.snd = some false

/-- A program header in front of which there are no records. -/
def ScanMisses (l : LoadedELF) (p : ProgHeader) : Prop :=
  (scanBackwardEHFrame l.memoryImage p.vaddr).map (fun s => s.walk.bounds) = some []

/-- A program header that is passed over. -/
def Passed (l : LoadedELF) (p : ProgHeader) : Prop := p.unwind → WindowMisses l p ∧ ScanMisses l p

/-- A program header that leads to a search below the address 4. -/
structure ScansLow (l : LoadedELF) (p : ProgHeader) : Prop where
  unwind : p.unwind
  misses : WindowMisses l p
  low : p.vaddr.toNat < 4 ∨ l.memoryImage.length < 4

/-- The first program header that is not passed over leads to a search below the address 4. -/
inductive ReachesLow (l : LoadedELF) : List ProgHeader → Prop
  | here {p : ProgHeader} {ps : List ProgHeader} : ScansLow l p → ReachesLow l (p :: ps)
  | later {p : ProgHeader} {ps : List ProgHeader} : Passed l p → ReachesLow l ps → ReachesLow l (p :: ps)

theorem reachesLow_cons {p : ProgHeader} {ps : List ProgHeader} :
    ReachesLow l (p :: ps) ↔ ScansLow l p ∨ Passed l p ∧ ReachesLow l ps := by
  constructor
  · intro h
    cases h with
    | here hlow => exact .inl hlow
    | later hpassed hlow => exact .inr ⟨hpassed, hlow⟩
  · rintro (hlow | ⟨hpassed, hlow⟩)
    · exact .here hlow
    · exact .later hpassed hlow

theorem Attach.recorded_self (l : LoadedELF) : ({ elf := l } : Attach).Recorded l :=
  ⟨rfl, fun f hf => (by cases hf), fun r hr => .inl hr⟩

theorem Attach.Recorded.scoped (h : st.Recorded l) : ({ st with elf := st.elf.scoped } : Attach).Recorded l :=
  ⟨h.image, h.decoded, h.bounds⟩

theorem Attach.Recorded.cleared (h : st.Recorded l) : ({ elf := st.elf.cleared } : Attach).Recorded l :=
  Attach.recorded_of_nil h.image (fun f hf => (by cases hf)) rfl

theorem attachProgs_spec (hlen : l.memoryImage.length < 2 ^ 63) (progs : List ProgHeader) (st : Attach)
    (hst : st.Recorded l) :
    (ReachesLow l progs ∧ attachProgs progs st = none) ∨
      (¬ ReachesLow l progs ∧ ∃ st' ok, attachProgs progs st = some (st', ok) ∧ st'.Recorded l) := by
  induction progs generalizing st with
  | nil => exact .inr ⟨fun h => (by cases h), st, false, rfl, hst⟩
  | cons p ps ih =>
      rw [reachesLow_cons, attachProgs]
      by_cases hunwind : p.unwind = true
      · obtain ⟨ok, hwindow⟩ := parseEHFrameWindow_steady hlen p.vaddr p.filesz
        dsimp only at hwindow
        obtain ⟨_, hself, -⟩ := hwindow _ (Attach.recorded_self l)
        have hmisses : WindowMisses l p ↔ ok = false := by
          rw [WindowMisses, hself]
          exact ⟨Option.some.inj, congrArg some⟩
        obtain ⟨st', hstep, hst'⟩ := hwindow st hst
        rw [if_pos hunwind, hstep, Option.bind_some]
        cases ok with
        | true =>
            refine .inr ⟨?_, _, true, rfl, hst'.scoped⟩
            rintro (hlow | ⟨hpassed, -⟩)
            · cases hmisses.1 hlow.misses
            · cases hmisses.1 (hpassed hunwind).1
        | false =>
            have hmiss := hmisses.2 rfl
            dsimp only
            rw [if_neg Bool.false_ne_true, hst'.image]
            rcases scanBackwardEHFrame_spec hlen p.vaddr with ⟨hva, himg, s, hs, hdecoded⟩ | ⟨hlow, hnone⟩
            · have hhigh : ¬ ScansLow l p := fun h => (by have hlow := h.low; omega)
              have hscan : ScanMisses l p ↔ s.walk.bounds = [] := by
                rw [ScanMisses, hs]
                exact ⟨Option.some.inj, congrArg some⟩
              rw [hs, Option.bind_some]
              by_cases hbounds : s.walk.bounds = []
              · have hpassed : Passed l p := fun _ => ⟨hmiss, hscan.2 hbounds⟩
                rw [if_neg (not_not.2 hbounds), or_iff_right hhigh, and_iff_right hpassed]
                exact ih _ hst'.cleared
              · rw [if_pos hbounds]
                refine .inr ⟨?_, _, true, rfl, Attach.recorded_of_walk hst'.image hdecoded rfl⟩
                rintro (hlow | ⟨hpassed, -⟩)
                · exact hhigh hlow
                · exact hbounds (hscan.1 (hpassed hunwind).2)
            · rw [hnone]
              exact .inl ⟨.inl ⟨hunwind, hmiss, by omega⟩, rfl⟩
      · have hhigh : ¬ ScansLow l p := fun h => hunwind h.unwind
        have hpassed : Passed l p := fun h => absurd h hunwind
        rw [if_neg hunwind, or_iff_right hhigh, and_iff_right hpassed]
        exact ih st hst

theorem attachHdrSection_spec (hlen : l.memoryImage.length < 2 ^ 63) (hst : st.Recorded l) :
    ∃ st' ok, attachHdrSection st = some (st', ok) ∧ st'.Recorded l := by
  rw [attachHdrSection]
  split
  · exact ⟨st, false, rfl, hst⟩
  · rename_i sec _
    split
    · obtain ⟨r, hr, hdecoded⟩ := findHdr_spec hlen sec.addr sec.size 0
      rw [parseEHFrameHdr, hst.image, hr]
      cases r with
      | none => exact ⟨_, false, rfl, hst.cleared⟩
      | some g =>
          have hfound : ({ elf := g.store st.elf, fdes := g.walk.fdes } : Attach).Recorded l :=
            Attach.recorded_of_walk hst.image (hdecoded g rfl) rfl
          exact ⟨_, true, rfl, hfound.scoped⟩
    · exact ⟨st, false, rfl, hst⟩

theorem attachFrameSection_spec (hlen : l.memoryImage.length < 2 ^ 63) (hst : st.Recorded l) :
    ∃ st', attachFrameSection st = some st' ∧ st'.Recorded l := by
  rw [attachFrameSection]
  split
  · exact ⟨st, rfl, hst⟩
  · rename_i sec _
    split
    · obtain ⟨stop, w, hw, hdecoded⟩ := walkEHFrame_spec hlen sec.addr (sec.addr + sec.size)
      rw [hst.image, hw, Option.map_some]
      refine ⟨_, rfl, ?_⟩
      dsimp only
      split
      · exact Attach.recorded_of_walk hst.image hdecoded rfl
      · exact hst
    · exact ⟨st, rfl, hst⟩

/-- `attachUnwind` panics exactly where it reaches a search below the address 4, and its extents are those
of records. -/
theorem attachUnwind_spec (progs : List ProgHeader) (hlen : l.memoryImage.length < 2 ^ 63) :
    ((l.memoryImage ≠ [] ∧ ReachesLow l progs) ∧ attachUnwind l progs = none) ∨
      (¬ (l.memoryImage ≠ [] ∧ ReachesLow l progs) ∧
        ∃ st, attachUnwind l progs = some st ∧ st.Recorded l) := by
  rw [attachUnwind]
  by_cases hnil : l.memoryImage = []
  · rw [if_pos hnil]
    exact .inr ⟨fun h => h.1 hnil, _, rfl, Attach.recorded_self l⟩
  · rw [if_neg hnil, and_iff_right hnil]
    rcases attachProgs_spec hlen progs _ (Attach.recorded_self l) with ⟨hlow, hnone⟩ | ⟨hhigh, hsome⟩
    · exact .inl ⟨hlow, by rw [hnone]; rfl⟩
    · refine .inr ⟨hhigh, ?_⟩
      obtain ⟨st, ok, hprogs, hst⟩ := hsome
      rw [hprogs, Option.bind_some]
      dsimp only
      split
      · exact ⟨st, rfl, hst⟩
      · obtain ⟨st', ok', hhdr, hst'⟩ := attachHdrSection_spec hlen hst
        rw [hhdr, Option.bind_some]
        dsimp only
        split
        · exact ⟨st', rfl, hst'⟩
        · exact attachFrameSection_spec hlen hst'

/-- The range of an extent is decoded only from the bytes between the length of its record and its end. -/
def Fde.Only (img : Bytes) (f : Fde) : Prop :=
  OnlyFrom f.body.toNat f.recEnd.toNat f.enc img (f.body.toNat + 4)

/-- A record in which the fields of an extent end, and with them the pointer of an indirect encoding. -/
def Fde.Fits (img : Bytes) (f : Fde) : Prop :=
  FieldsIn f.body.toNat f.recEnd.toNat f.enc img (f.body.toNat + 4) f.next

theorem Fde.Decoded.only_iff (hlen : img.length < 2 ^ 63) (h : f.Decoded img) : f.Only img ↔ f.Fits img := by
  obtain ⟨size, hrange, -⟩ := h.fields
  obtain ⟨raw, mid, p, hfields⟩ := readFDERange_eq_some.1 hrange
  exact extentAt_onlyFrom hfields hlen (Nat.le_add_right _ _)

/-- Every new extent is the one of a record, and decoded only from it. -/
structure Attach.Inside (l : LoadedELF) (st : Attach) : Prop where
  bounds : ∀ r ∈ st.elf.funcBounds, r ∈ l.funcBounds ∨ ∃ f ∈ st.fdes, f.range = r
  only : ∀ f ∈ st.fdes, f.range ∈ st.elf.funcBounds → f.Only l.memoryImage

/-- **Unwind information** is attached without a panic, and its extents are decoded only from their records,
exactly where no search below the address 4 is reached and the fields of every record behind an extent end
in it. -/
theorem attachUnwind_exact (l : LoadedELF) (progs : List ProgHeader)
    (hlen : l.memoryImage.length < 2 ^ 63) :
    (∃ st, attachUnwind l progs = some st ∧ st.Inside l) ↔
      ¬ (l.memoryImage ≠ [] ∧ ReachesLow l progs) ∧
        ∀ st, attachUnwind l progs = some st →
          ∀ f ∈ st.fdes, f.range ∈ st.elf.funcBounds → f.Fits l.memoryImage := by
  rcases attachUnwind_spec progs hlen with ⟨hlow, hnone⟩ | ⟨hhigh, st, hst, hrecorded⟩
  · exact iff_of_false (fun ⟨st, hst, _⟩ => (by rw [hnone] at hst; cases hst)) fun h => h.1 hlow
  · have hfits : ∀ f ∈ st.fdes, f.Only l.memoryImage ↔ f.Fits l.memoryImage := fun f hf =>
      (hrecorded.decoded f hf).only_iff hlen
    constructor
    · rintro ⟨st', hst', hinside⟩
      refine ⟨hhigh, fun st'' hst'' f hf hbound => ?_⟩
      rw [hst] at hst' hst''
      cases hst'
      cases hst''
      exact (hfits f hf).1 (hinside.only f hf hbound)
    · rintro ⟨-, h⟩
      exact ⟨st, hst, hrecorded.bounds, fun f hf hbound => (hfits f hf).2 (h st hst f hf hbound)⟩

/-- An image with a common record and one that names it, of the given length: the addresses of a function
are 64 and those behind it, 16 in all, and their words end 12 bytes behind the length. -/
def framed (length : BitVec 8) : LoadedELF where
  memoryImage := [0, 0, 0, 0, 13, 0, 0, 0, 0, 0, 0, 0, 1, 0x7a, 0x52, 0, 1, 1, 16, 1, 3,
    length, 0, 0, 0, 21, 0, 0, 0, 64, 0, 0, 0, 16, 0, 0, 0]
  sections := fun name =>
    if name = ".eh_frame" then some { addr := 4, size := 21 + length.setWidth 64 } else none

/-- What is kept of the records: from where to where they reach, the encoding, and the end of the fields. -/
def Attach.places (st : Attach) : List (BitVec 64 × BitVec 64 × BitVec 8 × ℕ) :=
  st.fdes.map fun f => (f.body, f.recEnd, f.enc, f.next)

theorem framed_places : (attachUnwind (framed 12) []).map Attach.places = some [(25, 37, 3, 37)] := by
  decide +kernel

theorem attachUnwind_exact_framed :
    ∃ st, attachUnwind (framed 12) [] = some st ∧ st.Inside (framed 12) := by
  refine (attachUnwind_exact (framed 12) [] (by decide)).2 ⟨fun h => (by cases h.2), fun st hst f hf _ => ?_⟩
  have hplaces := framed_places
  rw [hst, Option.map_some, Option.some.injEq] at hplaces
  have hplace := List.mem_map_of_mem (f := fun f : Fde => (f.body, f.recEnd, f.enc, f.next)) hf
  rw [← Attach.places, hplaces, List.mem_singleton, Prod.mk.injEq, Prod.mk.injEq, Prod.mk.injEq] at hplace
  obtain ⟨hbody, hend, henc, hnext⟩ := hplace
  rw [Fde.Fits, hbody, hend, henc, hnext]
  exact ⟨by decide, fun hind => absurd rfl hind⟩

/-- **Unwind information** of a record that ends before the second of its fields is still attached; a
program header at the address 0, with nothing in its window, is followed by a panic. -/
theorem attachUnwind_beyond :
    (∃ st, attachUnwind (framed 8) [] = some st ∧ ¬ st.Inside (framed 8)) ∧
      attachUnwind { memoryImage := [0, 0, 0, 0] } [{ type := ptGnuEhFrame, vaddr := 0, filesz := 4 }] =
        none := by
  constructor
  · have hplaces : (attachUnwind (framed 8) []).map (fun st => (st.elf.funcBounds, st.fdes)) =
        some ([{ start := 64, stop := 80 }], [{ body := 25, recEnd := 33, enc := 3, next := 37
                                                range := { start := 64, stop := 80 } }]) := by
      rfl
    obtain ⟨st, hst, hparts⟩ := Option.map_eq_some_iff.1 hplaces
    obtain ⟨hbounds, hfdes⟩ := Prod.mk.inj hparts
    refine ⟨st, hst, fun hinside => ?_⟩
    have honly := hinside.only _ (by rw [hfdes]; exact List.mem_singleton.2 rfl)
      (by rw [hbounds]; exact List.mem_singleton.2 rfl)
    -- the last byte of the size lies behind the record
    have hsame := honly ((framed 8).memoryImage.set 33 17) (sameOn_set _ _ (.inr (by decide)))
    revert hsame
    decide +kernel
  · have himage : (LoadedELF.memoryImage { memoryImage := [0, 0, 0, 0] }).length < 2 ^ 63 := by decide
    have hlow : ReachesLow { memoryImage := [0, 0, 0, 0] }
        [{ type := ptGnuEhFrame, vaddr := 0, filesz := 4 }] := by
      refine .here ⟨rfl, ?_, .inl (by decide)⟩
      rw [WindowMisses, parseEHFrameWindow]
      have hend : windowFrom 0 4 1 { elf := { memoryImage := [0, 0, 0, 0] } } =
          some ({ elf := { memoryImage := [0, 0, 0, 0] } }, false) := by
        rw [windowFrom, dif_neg (by decide)]
      have hwindow : windowFrom 0 4 0 { elf := { memoryImage := [0, 0, 0, 0] } } =
          some ({ elf := { memoryImage := [0, 0, 0, 0] } }, false) := by
        rw [windowFrom, dif_pos (by decide)]
        exact hend
      exact congrArg (Option.map Prod.snd) hwindow
    rcases attachUnwind_spec _ himage with ⟨-, hnone⟩ | ⟨hhigh, -⟩
    · exact hnone
    · exact absurd ⟨List.cons_ne_nil _ _, hlow⟩ hhigh

end PS4Recomp.Elf
