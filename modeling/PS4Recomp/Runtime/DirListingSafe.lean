import PS4Recomp.Runtime.DirListing

/-!
# A directory is listed once

* `nextRecord_encode`, `walkRecords_encode` — the records of a buffer are read back;
* `fillBuf_eq` — a buffer gets the records that fit; `readEntries_names` — the listing has the visible entries;
* `Holds`, `slotOf_holds` — the only slot of a descriptor, and that it is found;
* `Inv` — the slot stands where the replies so far end; `Inv.exec` — one step;
* **`listing_listed`** — in every run of proper calls the replies are pages of the directory.
-/

namespace PS4Recomp.Runtime.DirListing

open Library Library.Paging Library.Transition

/-! ### Records -/

theorem Dirent.reclen_le (r : Dirent) : 9 + r.name.length ≤ r.reclen ∧ r.reclen ≤ 264 ∧ 4 ∣ r.reclen := by
  have hshort := r.short
  unfold reclen
  omega

theorem Dirent.length_encode (r : Dirent) : r.encode.length = r.reclen := by
  have hlen := r.reclen_le
  simp only [encode, List.length_append, length_toLE, List.length_cons, List.length_replicate]
  omega

/-- **A record is read back, and its length field reaches what follows it.** -/
theorem nextRecord_encode (r : Dirent) (tail : List (BitVec 8)) : nextRecord (r.encode ++ tail) = some (r, tail) := by
  obtain ⟨hname, hle, -⟩ := r.reclen_le
  have hshort := r.short
  have hlen : (r.encode ++ tail).length = r.reclen + tail.length := by rw [List.length_append, r.length_encode]
  have htail : (r.encode ++ tail).drop r.reclen = tail := List.drop_left' r.length_encode
  have hbuf : r.encode ++ tail = toLE 4 r.ino.toNat ++ (toLE 2 r.reclen ++ (r.type :: BitVec.ofNat 8 r.name.length ::
      (r.name ++ (List.replicate (r.reclen - 8 - r.name.length) 0 ++ tail)))) := by
    simp only [Dirent.encode, List.append_assoc, List.cons_append]
  generalize hrest : List.replicate (r.reclen - 8 - r.name.length) 0 ++ tail = rest at hbuf
  have hfour : (r.encode ++ tail).drop 4 = toLE 2 r.reclen ++ (r.type :: BitVec.ofNat 8 r.name.length :: (r.name ++ rest)) := by
    rw [hbuf, List.drop_left' (length_toLE 4 _)]
  have hsix : (r.encode ++ tail).drop 6 = r.type :: BitVec.ofNat 8 r.name.length :: (r.name ++ rest) := by
    rw [show 6 = 4 + 2 from rfl, ← List.drop_drop, hfour, List.drop_left' (length_toLE 2 _)]
  have hsmall : r.ino.toNat < 256 ^ 4 := r.ino.isLt
  have hino : BitVec.ofNat 32 (leNat ((r.encode ++ tail).take 4)) = r.ino := by
    rw [hbuf, List.take_left' (length_toLE 4 _), leNat_toLE, Nat.mod_eq_of_lt hsmall, BitVec.ofNat_toNat,
      BitVec.setWidth_eq]
  have hreclen : leNat (((r.encode ++ tail).drop 4).take 2) = r.reclen := by
    rw [hfour, List.take_left' (length_toLE 2 _), leNat_toLE]
    omega
  have hget : ∀ k, (r.encode ++ tail).getD (6 + k) 0 = ((r.encode ++ tail).drop 6).getD k 0 := by
    intro k
    rw [List.getD_eq_getElem?_getD, List.getD_eq_getElem?_getD, List.getElem?_drop]
  have htype : (r.encode ++ tail).getD 6 0 = r.type := by
    rw [show 6 = 6 + 0 from rfl, hget, hsix]
    rfl
  have hnamlen : ((r.encode ++ tail).getD 7 0).toNat = r.name.length := by
    rw [show 7 = 6 + 1 from rfl, hget, hsix]
    exact Nat.mod_eq_of_lt (by omega)
  have hnamed : ((r.encode ++ tail).drop 8).take r.name.length = r.name := by
    have height : (r.encode ++ tail).drop 8 = ((r.encode ++ tail).drop 6).drop 2 := by rw [List.drop_drop]
    rw [height, hsix]
    exact List.take_left
  rw [nextRecord]
  simp only [hreclen, hnamlen, hino, htype, hnamed, htail]
  rw [if_pos ⟨hname, by omega⟩]

theorem walkRecords_encode (rs : List Dirent) : walkRecords (rs.flatMap Dirent.encode) = some rs := by
  induction rs with
  | nil => rw [List.flatMap_nil, walkRecords, if_pos rfl]
  | cons r rs ih =>
      have hne : r.encode ++ rs.flatMap Dirent.encode ≠ [] := by
        intro hnil
        have hzero := congrArg List.length hnil
        have hlen := r.reclen_le
        rw [List.length_append, r.length_encode, List.length_nil] at hzero
        omega
      rw [List.flatMap_cons, walkRecords, if_neg hne]
      split
      · rename_i hnone
        rw [nextRecord_encode] at hnone
        cases hnone
      · rename_i hsome
        rw [nextRecord_encode] at hsome
        cases hsome
        rw [ih]
        rfl

/-! ### A buffer -/

/-- **A buffer gets the records that fit into what is left of it.** -/
theorem fillBuf_eq {nbytes : ℕ} (rs : List Dirent) {off : ℕ} (hoff : off ≤ nbytes) :
    fillBuf nbytes off rs = ((takeFitting Dirent.reclen (nbytes - off) rs).flatMap Dirent.encode,
      (takeFitting Dirent.reclen (nbytes - off) rs).length) := by
  induction rs generalizing off with
  | nil => rfl
  | cons r rs ih =>
      rw [fillBuf, takeFitting]
      by_cases hfits : nbytes < off + r.reclen
      · rw [if_pos hfits, if_pos (by omega)]
        rfl
      · rw [if_neg hfits, if_neg (by omega), ih (by omega), Nat.sub_add_eq]
        rfl

theorem length_flatMap_encode (rs : List Dirent) :
    (rs.flatMap Dirent.encode).length = (rs.map Dirent.reclen).sum := by
  rw [List.length_flatMap]
  exact congrArg List.sum (List.map_congr_left fun r _ => r.length_encode)

theorem readEntries_names (es : List HostEntry) (count : ℕ) :
    (readEntries count es).map Dirent.name = (es.filter (Visible ·)).map HostEntry.name := by
  induction es generalizing count with
  | nil => rfl
  | cons e es ih =>
      rw [readEntries]
      split
      · rename_i hvisible
        rw [List.map_cons, ih, List.filter_cons, if_pos (decide_eq_true hvisible), List.map_cons]
      · rename_i hhidden
        rw [ih, List.filter_cons, if_neg (fun h => hhidden (of_decide_eq_true h))]

/-! ### Slots -/

/-- The only slot of a descriptor. -/
structure Holds (caches : DirCaches) (fd : Int) (i : Fin 64) (c : GuestDirCache) : Prop where
  slot : caches i = some c
  own : c.fd = fd
  only : ∀ j c', caches j = some c' → c'.fd = fd → j = i

/-- No slot is of the descriptor. -/
def HasNone (caches : DirCaches) (fd : Int) : Prop := ∀ i c, caches i = some c → c.fd ≠ fd

variable {caches : DirCaches} {fd other : Int} {i : Fin 64} {c : GuestDirCache}

theorem slotOf_some {j : Fin 64} {c' : GuestDirCache} (h : slotOf caches fd = some (j, c')) :
    caches j = some c' ∧ c'.fd = fd := by
  obtain ⟨k, -, hk⟩ := List.exists_of_findSome?_eq_some h
  obtain ⟨x, hx, hif⟩ := Option.bind_eq_some_iff.1 hk
  split at hif
  · rename_i hfd
    cases hif
    exact ⟨hx, hfd⟩
  · cases hif

theorem slotOf_none (h : slotOf caches fd = none) : HasNone caches fd := by
  intro k x hx hfd
  have hk := List.findSome?_eq_none_iff.1 h k (List.mem_finRange k)
  rw [hx, Option.bind_some, if_pos hfd] at hk
  cases hk

/-- **The slot of a descriptor is found.** -/
theorem slotOf_holds (h : Holds caches fd i c) : slotOf caches fd = some (i, c) := by
  cases hslot : slotOf caches fd with
  | none => exact absurd h.own (slotOf_none hslot i c h.slot)
  | some found =>
      obtain ⟨j, c'⟩ := found
      obtain ⟨hj, hfd⟩ := slotOf_some hslot
      obtain rfl := h.only j c' hj hfd
      rw [h.slot] at hj
      cases hj
      rfl

theorem slotOf_hasNone (h : HasNone caches fd) : slotOf caches fd = none := by
  cases hslot : slotOf caches fd with
  | none => rfl
  | some found =>
      obtain ⟨hj, hfd⟩ := slotOf_some hslot
      exact absurd hfd (h _ _ hj)

/-- A slot written for the descriptor is its only one, where it had this one or none. -/
theorem Holds.update (h : HasNone caches fd ∨ ∃ c', Holds caches fd i c') (hc : c.fd = fd) :
    Holds (Function.update caches i (some c)) fd i c where
  slot := Function.update_self i (some c) caches
  own := hc
  only j c' hj hfd := by
    by_contra hne
    rw [Function.update_of_ne hne] at hj
    rcases h with hnone | ⟨c'', hholds⟩
    · exact hnone j c' hj hfd
    · exact hne (hholds.only j c' hj hfd)

/-- The slot that a call on another descriptor writes is not that of `fd`. -/
theorem slot_other (h : Holds caches fd i c) (hne : other ≠ fd)
    (hevict : ¬((∀ i, ∃ c, caches i = some c ∧ c.fd ≠ other) ∧ ∃ c, caches 0 = some c ∧ c.fd = fd))
    {target : Option HostFd} {j : Fin 64} {c' : GuestDirCache}
    (hget : guestDirCacheGet caches other target = .ok (j, c')) : j ≠ i := by
  unfold guestDirCacheGet at hget
  split at hget
  · cases hget
  · cases hget
  · rename_i d
    dsimp only at hget
    split at hget
    · rename_i k x hslot
      obtain ⟨hk, hfd⟩ := slotOf_some hslot
      cases hget
      rintro rfl
      rw [h.slot] at hk
      cases hk
      exact hne (hfd.symm.trans h.own)
    · rename_i hslot
      have hnone := slotOf_none hslot
      cases hget
      rw [freeSlot]
      cases hfree : (List.finRange 64).find? fun i => (caches i).isNone with
      | some k =>
          have hempty := List.find?_some hfree
          rintro rfl
          have hslot := h.slot
          rw [Option.getD_some] at hslot
          rw [hslot] at hempty
          cases hempty
      | none =>
          -- every slot is in use: the first one is given away
          have hused : ∀ i, ∃ c, caches i = some c ∧ c.fd ≠ other := by
            intro k
            have hk := List.find?_eq_none.1 hfree k (List.mem_finRange k)
            obtain ⟨x, hx⟩ := Option.ne_none_iff_exists'.1 (by simpa using hk)
            exact ⟨x, hx, hnone k x hx⟩
          rintro rfl
          exact hevict ⟨hused, c, h.slot, h.own⟩

theorem guestDirCacheGet_fd {target : Option HostFd} (hget : guestDirCacheGet caches fd target = .ok (i, c)) :
    c.fd = fd := by
  unfold guestDirCacheGet at hget
  split at hget
  · cases hget
  · cases hget
  · dsimp only at hget
    split at hget
    · rename_i hslot
      have hfd := (slotOf_some hslot).2
      cases hget
      split
      · exact hfd
      · rfl
    · cases hget
      rfl

/-- The slot of `fd` stays when another slot is written for another descriptor. -/
theorem Holds.keep (h : Holds caches fd i c) {j : Fin 64} {c' : GuestDirCache} (hj : j ≠ i) (hc : c'.fd ≠ fd) :
    Holds (Function.update caches j (some c')) fd i c where
  slot := by rw [Function.update_of_ne hj.symm, h.slot]
  own := h.own
  only k x hk hfd := by
    by_cases hkj : k = j
    · rw [hkj, Function.update_self] at hk
      cases hk
      exact absurd hfd hc
    · rw [Function.update_of_ne hkj] at hk
      exact h.only k x hk hfd

theorem HasNone.keep (h : HasNone caches fd) {j : Fin 64} {c' : GuestDirCache} (hc : c'.fd ≠ fd) :
    HasNone (Function.update caches j (some c')) fd := by
  intro k x hk
  by_cases hkj : k = j
  · rw [hkj, Function.update_self] at hk
    cases hk
    exact hc
  · rw [Function.update_of_ne hkj] at hk
    exact h k x hk

theorem hasNone_dropFd (caches : DirCaches) (fd : Int) : HasNone (guestDirCacheDropFd caches fd) fd := by
  intro k x hk
  have hfilter := Option.filter_eq_some_iff.1 hk
  exact of_decide_eq_true hfilter.2

theorem HasNone.dropFd (h : HasNone caches fd) (other : Int) : HasNone (guestDirCacheDropFd caches other) fd := by
  intro k x hk
  exact h k x (Option.filter_eq_some_iff.1 hk).1

theorem Holds.dropFd (h : Holds caches fd i c) (hne : other ≠ fd) :
    Holds (guestDirCacheDropFd caches other) fd i c where
  slot := by
    refine Option.filter_eq_some_iff.2 ⟨h.slot, decide_eq_true ?_⟩
    rw [h.own]
    exact hne.symm
  own := h.own
  only k x hk := h.only k x (Option.filter_eq_some_iff.1 hk).1

/-! ### The invariant -/

/-- The slot of a session stands where the replies so far end. -/
structure Serving (caches : DirCaches) (target : Option HostFd) (fd : Int) (session : Session) (i : Fin 64)
    (c : GuestDirCache) : Prop where
  holds : Holds caches fd i c
  host : ∃ d, target = some (.dir d) ∧ c.dev = d.dev ∧ c.ino = d.ino
  dirents : c.dirents = readEntries 0 session.snapshot
  pages : ∃ pages, Pages c.dirents pages (c.dirents.drop c.pos) ∧ List.Forall₂ Delivers session.calls pages

def Inv (fd : Int) (s : State) : Prop :=
  match s.sessions fd with
  | none => HasNone s.caches fd
  | some session => ∃ i c, Serving s.caches (s.host fd) fd session i c

theorem inv_none {s : State} (h : s.sessions fd = none) : Inv fd s ↔ HasNone s.caches fd := by rw [Inv, h]

theorem inv_some {s : State} {session : Session} (h : s.sessions fd = some session) :
    Inv fd s ↔ ∃ i c, Serving s.caches (s.host fd) fd session i c := by rw [Inv, h]

/-- **One page more**: the records that fit, and no error. -/
theorem guestGetdirentries_page {nbytes : ℕ} {base : Option Int} (hstart : startPos c base = c.pos)
    (hfits : ∀ r ∈ c.dirents, r.reclen ≤ nbytes) :
    guestGetdirentries c nbytes base =
      ({ c with pos := c.pos + (takeFitting Dirent.reclen nbytes (c.dirents.drop c.pos)).length },
        .ok ((takeFitting Dirent.reclen nbytes (c.dirents.drop c.pos)).flatMap Dirent.encode)) := by
  have hrest : ∀ r ∈ c.dirents.drop c.pos, r.reclen ≤ nbytes := fun r hr => hfits r (List.mem_of_mem_drop hr)
  have hfill := fillBuf_eq (c.dirents.drop c.pos) (Nat.zero_le nbytes)
  rw [Nat.sub_zero] at hfill
  simp only [guestGetdirentries, hstart, hfill]
  refine if_neg ?_
  rintro ⟨hempty, hmore⟩
  have hpage : takeFitting Dirent.reclen nbytes (c.dirents.drop c.pos) = [] := by
    by_contra hne
    obtain ⟨r, rs, hcons⟩ := List.exists_cons_of_ne_nil hne
    have hlen := r.reclen_le
    rw [length_flatMap_encode, hcons, List.map_cons, List.sum_cons] at hempty
    omega
  have hdrop := List.drop_eq_nil_iff.1 (takeFitting_eq_nil hrest hpage)
  rw [hpage, List.length_nil] at hmore
  omega

theorem asInt_of_lt {n : ℕ} (h : n < 2 ^ 31) : asInt n = n := by
  apply Int.bmod_eq_of_le_mul_two
  · show -((4294967296 : ℕ) : Int) ≤ (n : Int) * 2
    omega
  · show (n : Int) * 2 < ((4294967296 : ℕ) : Int)
    omega

theorem delivers_page {call : ListCall} {errno : Errno} {pos : ℕ} {rs : List Dirent} {nbytes : ℕ}
    (hsmall : ((takeFitting Dirent.reclen nbytes rs).map Dirent.reclen).sum < 2 ^ 31) :
    Delivers (nbytes, replyOf call errno pos (.ok ((takeFitting Dirent.reclen nbytes rs).flatMap Dirent.encode)))
      (takeFitting Dirent.reclen nbytes rs) := by
  have hlen := length_flatMap_encode (takeFitting Dirent.reclen nbytes rs)
  have hint := asInt_of_lt hsmall
  rw [← hlen] at hint
  have hreply : replyOf call errno pos (.ok ((takeFitting Dirent.reclen nbytes rs).flatMap Dirent.encode)) =
      { rax := ((takeFitting Dirent.reclen nbytes rs).flatMap Dirent.encode).length
        written := (takeFitting Dirent.reclen nbytes rs).flatMap Dirent.encode
        base := call.base.map fun _ => pos } := by
    rw [replyOf, hint, if_neg (by omega)]
    rfl
  rw [hreply]
  exact ⟨rfl, rfl, hlen.trans_le (takeFitting_size nbytes rs), fun r _ => r.reclen_le.2.2, walkRecords_encode _⟩

theorem takeFitting_sum_le (nbytes pos : ℕ) (rs : List Dirent) :
    ((takeFitting Dirent.reclen nbytes (rs.drop pos)).map Dirent.reclen).sum ≤ (rs.map Dirent.reclen).sum := by
  have hsub : List.Sublist (takeFitting Dirent.reclen nbytes (rs.drop pos)) rs :=
    (takeFitting_isPrefix nbytes (rs.drop pos)).sublist.trans (List.drop_sublist pos rs)
  exact (hsub.map Dirent.reclen).sum_le_sum fun _ _ => Nat.zero_le _

/-- What a call on `fd` itself finds: the slot of its session, or a new one that begins it. -/
structure Found (s : State) (fd : Int) (call : ListCall) (i : Fin 64) (c : GuestDirCache) : Prop where
  slot : HasNone s.caches fd ∨ ∃ c', Holds s.caches fd i c'
  own : c.fd = fd
  host : ∃ d, s.host fd = some (.dir d) ∧ c.dev = d.dev ∧ c.ino = d.ino
  dirents : c.dirents = readEntries 0 (s.session fd).snapshot
  start : startPos c call.base = c.pos
  pages : ∃ pages, Pages c.dirents pages (c.dirents.drop c.pos) ∧ List.Forall₂ Delivers (s.session fd).calls pages

theorem base_cases (call : ListCall) : call.base = none ∨ call.base = some (-2) := by
  rw [ListCall.base]
  split
  · exact .inl rfl
  · exact .inr rfl

variable {s s' : State} {call : ListCall} {d : HostDir}

theorem found_begin (h : HasNone s.caches fd) (hsession : s.sessions fd = none) (hhost : s.host fd = some (.dir d)) :
    ∃ i c, guestDirCacheGet s.caches fd (s.host fd) = .ok (i, c) ∧ Found s fd call i c := by
  have hentries : s.session fd = { snapshot := d.entries } := by
    rw [State.session, hsession, Option.getD_none, State.entries, hhost]
  rw [hhost, guestDirCacheGet, slotOf_hasNone h]
  refine ⟨_, _, rfl, .inl h, rfl, ⟨d, hhost, rfl, rfl⟩, by rw [hentries], ?_, [], ?_, ?_⟩
  · rcases base_cases call with hbase | hbase
    · rw [hbase]
      rfl
    · rw [hbase]
      rfl
  · exact Pages.start _
  · rw [hentries]
    exact .nil

theorem found_continue {session : Session} {i : Fin 64} {c : GuestDirCache} (h : Serving s.caches (s.host fd) fd session i c)
    (hsession : s.sessions fd = some session) (hbase : call.base = none) :
    guestDirCacheGet s.caches fd (s.host fd) = .ok (i, c) ∧ Found s fd call i c := by
  have hcurrent : s.session fd = session := by rw [State.session, hsession, Option.getD_some]
  obtain ⟨d, hhost, hdev, hino⟩ := h.host
  constructor
  · rw [hhost, guestDirCacheGet, slotOf_holds h.holds]
    simp only [hdev, hino, and_self, if_true]
  · refine ⟨.inr ⟨c, h.holds⟩, h.holds.own, h.host, ?_, ?_, ?_⟩
    · rw [hcurrent]
      exact h.dirents
    · rw [hbase]
      rfl
    · rw [hcurrent]
      exact h.pages

/-- **One call on the descriptor.** -/
theorem serving_listDir {i : Fin 64} {c : GuestDirCache} (hfd : call.fd = fd)
    (hget : guestDirCacheGet s.caches fd (s.host fd) = .ok (i, c)) (h : Found s fd call i c)
    (hfits : ∀ r ∈ readEntries 0 (s.session fd).snapshot, r.reclen ≤ call.nbytes)
    (hsmall : call.nbytes < 2 ^ 31 ∨ ((readEntries 0 (s.session fd).snapshot).map Dirent.reclen).sum < 2 ^ 31) :
    Inv fd (listDir s call).1 := by
  obtain ⟨pages, hpages, hcalls⟩ := h.pages
  rw [← h.dirents] at hfits hsmall
  have hpage := guestGetdirentries_page h.start hfits
  have hsum : ((takeFitting Dirent.reclen call.nbytes (c.dirents.drop c.pos)).map Dirent.reclen).sum < 2 ^ 31 := by
    rcases hsmall with hbuf | hall
    · exact Nat.lt_of_le_of_lt (takeFitting_size _ _) hbuf
    · exact Nat.lt_of_le_of_lt (takeFitting_sum_le _ _ _) hall
  subst hfd
  rw [listDir, hget]
  simp only [hpage]
  rw [inv_some (Function.update_self ..)]
  refine ⟨i, _, Holds.update h.slot h.own, h.host, h.dirents,
    pages ++ [takeFitting Dirent.reclen call.nbytes (c.dirents.drop c.pos)], ?_, ?_⟩
  · rw [← List.drop_drop]
    exact hpages.next fun r hr => hfits r (List.mem_of_mem_drop hr)
  · exact List.rel_append hcalls (.cons (delivers_page hsum) .nil)

theorem inv_listDir_error {e : Errno} (h : Inv fd s) (hget : guestDirCacheGet s.caches call.fd (s.host call.fd) = .error e) :
    Inv fd (listDir s call).1 := by
  rw [listDir, hget]
  exact h

theorem inv_listDir_own (h : Inv fd s) (hfd : call.fd = fd) (hbase : call.base = none ∨ s.sessions fd = none)
    (hfits : ∀ r ∈ readEntries 0 (s.session fd).snapshot, r.reclen ≤ call.nbytes)
    (hsmall : call.nbytes < 2 ^ 31 ∨ ((readEntries 0 (s.session fd).snapshot).map Dirent.reclen).sum < 2 ^ 31) :
    Inv fd (listDir s call).1 := by
  cases hsession : s.sessions fd with
  | none =>
      rw [inv_none hsession] at h
      cases hhost : s.host fd with
      | none =>
          apply inv_listDir_error ((inv_none hsession).2 h)
          rw [hfd, hhost]
          rfl
      | some target =>
          cases target with
          | other =>
              apply inv_listDir_error ((inv_none hsession).2 h)
              rw [hfd, hhost]
              rfl
          | dir d =>
              obtain ⟨i, c, hget, hfound⟩ :
                  ∃ i c, guestDirCacheGet s.caches fd (s.host fd) = .ok (i, c) ∧ Found s fd call i c :=
                found_begin h hsession hhost
              exact serving_listDir hfd hget hfound hfits hsmall
  | some session =>
      obtain ⟨i, c, hserving⟩ := (inv_some hsession).1 h
      have hnone : call.base = none := hbase.resolve_right (by rw [hsession]; nofun)
      obtain ⟨hget, hfound⟩ := found_continue hserving hsession hnone
      exact serving_listDir hfd hget hfound hfits hsmall

theorem guestGetdirentries_fd (c : GuestDirCache) (nbytes : ℕ) (base : Option Int) :
    (guestGetdirentries c nbytes base).1.fd = c.fd := by
  simp only [guestGetdirentries]
  split
  · rfl
  · rfl

/-- A call on another descriptor that does not take the slot. -/
theorem inv_listDir_other (h : Inv fd s) (hne : call.fd ≠ fd) (hevict : ¬Evicts s call.fd fd) :
    Inv fd (listDir s call).1 := by
  cases hget : guestDirCacheGet s.caches call.fd (s.host call.fd) with
  | error e => exact inv_listDir_error h hget
  | ok found =>
      obtain ⟨j, c'⟩ := found
      obtain ⟨c₁, session', hfd, hcaches, hhost, hsessions⟩ : ∃ c₁ session', c₁.fd = c'.fd ∧
          (listDir s call).1.caches = Function.update s.caches j (some c₁) ∧ (listDir s call).1.host = s.host ∧
          (listDir s call).1.sessions = Function.update s.sessions call.fd (some session') := by
        rw [listDir, hget]
        exact ⟨_, _, guestGetdirentries_fd c' call.nbytes call.base, rfl, rfl, rfl⟩
      have hsession : (listDir s call).1.sessions fd = s.sessions fd := by
        rw [hsessions, Function.update_of_ne hne.symm]
      have hother : c₁.fd ≠ fd := by
        rw [hfd, guestDirCacheGet_fd hget]
        exact hne
      cases hold : s.sessions fd with
      | none =>
          rw [inv_none hold] at h
          rw [inv_none (hsession.trans hold), hcaches]
          exact h.keep hother
      | some session =>
          obtain ⟨i, c, hserving⟩ := (inv_some hold).1 h
          have hj := slot_other hserving.holds hne hevict hget
          rw [inv_some (hsession.trans hold)]
          refine ⟨i, c, ?_, ?_, hserving.dirents, hserving.pages⟩
          · rw [hcaches]
            exact hserving.holds.keep hj hother
          · rw [hhost]
            exact hserving.host

/-- **Every step of a proper run keeps the invariant.** -/
theorem Inv.exec (h : Inv fd s) {step : Step} (hproper : Proper fd s step)
    (hs : DirListing.exec s step = some s') : Inv fd s' := by
  cases step with
  | list call =>
      cases hs
      by_cases hfd : call.fd = fd
      · rw [Proper, if_pos hfd] at hproper
        obtain ⟨hbase, hfits, hsmall⟩ := hproper
        exact inv_listDir_own h hfd hbase hfits hsmall
      · rw [Proper, if_neg hfd] at hproper
        exact inv_listDir_other h hfd hproper
  | «open» other target =>
      simp only [DirListing.exec] at hs
      split at hs
      · rename_i hfree
        cases hs
        cases hold : s.sessions fd with
        | none =>
            refine (inv_none ?_).2 ((inv_none hold).1 h)
            exact hold
        | some session =>
            obtain ⟨i, c, hserving⟩ := (inv_some hold).1 h
            obtain ⟨d, hhost, hids⟩ := hserving.host
            have hne : fd ≠ other := by
              rintro rfl
              rw [hfree] at hhost
              cases hhost
            refine (inv_some ?_).2 ⟨i, c, hserving.holds, ⟨d, ?_, hids⟩, hserving.dirents, hserving.pages⟩
            · exact hold
            · show Function.update s.host other (some target) fd = _
              rw [Function.update_of_ne hne, hhost]
      · cases hs
  | change other entries =>
      simp only [DirListing.exec] at hs
      split at hs
      · rename_i d hdir
        cases hs
        cases hold : s.sessions fd with
        | none =>
            refine (inv_none ?_).2 ((inv_none hold).1 h)
            exact hold
        | some session =>
            obtain ⟨i, c, hserving⟩ := (inv_some hold).1 h
            obtain ⟨d', hhost, hids⟩ := hserving.host
            -- the directory keeps its device and inode
            have hstill : ∃ d₁, Function.update s.host other (some (.dir { d with entries })) fd = some (.dir d₁) ∧
                c.dev = d₁.dev ∧ c.ino = d₁.ino := by
              by_cases hfd : fd = other
              · subst hfd
                rw [hdir] at hhost
                cases hhost
                exact ⟨_, Function.update_self .., hids⟩
              · exact ⟨d', by rw [Function.update_of_ne hfd, hhost], hids⟩
            refine (inv_some ?_).2 ⟨i, c, hserving.holds, hstill, hserving.dirents, hserving.pages⟩
            exact hold
      · cases hs
  | close other =>
      cases hs
      by_cases hfd : other = fd
      · subst hfd
        exact (inv_none (Function.update_self ..)).2 (hasNone_dropFd s.caches other)
      · have hsame : Function.update s.sessions other none fd = s.sessions fd := Function.update_of_ne (Ne.symm hfd) _ _
        cases hold : s.sessions fd with
        | none => exact (inv_none (hsame.trans hold)).2 (((inv_none hold).1 h).dropFd other)
        | some session =>
            obtain ⟨i, c, hserving⟩ := (inv_some hold).1 h
            obtain ⟨d, hhost, hids⟩ := hserving.host
            refine (inv_some (hsame.trans hold)).2
              ⟨i, c, hserving.holds.dropFd hfd, ⟨d, ?_, hids⟩, hserving.dirents, hserving.pages⟩
            show Function.update s.host other none fd = _
            rw [Function.update_of_ne (Ne.symm hfd), hhost]

/-! ### Runs -/

theorem Inv.listed (h : Inv fd s) : Listed s fd := by
  intro session hsession
  obtain ⟨i, c, hserving⟩ := (inv_some hsession).1 h
  obtain ⟨pages, hpages, hcalls⟩ := hserving.pages
  refine ⟨c.dirents, pages, c.dirents.drop c.pos, ?_, hpages, hcalls, ?_⟩
  · rw [hserving.dirents]
    exact readEntries_names session.snapshot 0
  · intro hlen
    have hwhole := hpages.whole
    rwa [hpages.complete hlen, List.append_nil] at hwhole

/-- **In every run of proper calls the replies on a descriptor are pages of its directory.** -/
theorem listing_listed (fd : Int) {s : State} (h : Reachable (dirSystem.restrict (Proper fd)) s) : Listed s fd := by
  refine Inv.listed (h.invariant (P := Inv fd) ?_ ?_)
  · intro s hs
    rw [show s = {} from hs]
    exact (inv_none rfl).2 nofun
  · intro s step s' _ hinv hs
    exact hinv.exec hs.1 hs.2

/-- The state after a directory was opened as descriptor 3 and listed in two calls. -/
def listedTwice (entries : List HostEntry) : State :=
  let call : ListCall := { entry := .getdents, fd := 3, nbytes := 512 }
  let s : State := { host := Function.update (fun _ => none) 3 (some (.dir { dev := 1, ino := 2, entries })) }
  (listDir (listDir s call).1 call).1

theorem reachable_listedTwice (entries : List HostEntry) :
    Reachable (dirSystem.restrict (Proper 3)) (listedTwice entries) := by
  have hproper : ∀ s, Proper 3 s (.list { entry := .getdents, fd := 3, nbytes := 512 }) := by
    intro s
    rw [Proper, if_pos rfl]
    exact ⟨.inl rfl, fun r _ => r.reclen_le.2.1.trans (by decide), .inl (by decide)⟩
  have hstep : exec {} (.open 3 (.dir { dev := 1, ino := 2, entries })) = some _ := rfl
  have hfirst : Proper 3 {} (.open 3 (.dir { dev := 1, ino := 2, entries })) := trivial
  have hopen : Reachable (dirSystem.restrict (Proper 3)) _ := .step (.init rfl) ⟨hfirst, hstep⟩
  exact .step (.step hopen ⟨hproper _, rfl⟩) ⟨hproper _, rfl⟩

theorem listing_listed_twice :
    ((listedTwice [⟨[0x62], 7, 8⟩]).sessions 3).map (fun session => session.calls.map fun call => call.2.rax) =
        some [12, 0] ∧ Listed (listedTwice [⟨[0x62], 7, 8⟩]) 3 :=
  ⟨by decide +kernel, listing_listed 3 (reachable_listedTwice _)⟩

/-- **A hidden entry is in no record**, though a call returned 0. -/
theorem hidden_not_listed : ∃ s session e, Reachable dirSystem s ∧ s.sessions 3 = some session ∧
    e ∈ session.snapshot ∧ e.name.length ≤ 255 ∧ (∃ call ∈ session.calls, call.2.rax = 0) ∧
    ∀ call ∈ session.calls, walkRecords call.2.written = some [] := by
  have hsession : (listedTwice [⟨[0x2e, 0x5f, 0x61], 7, 8⟩]).sessions 3 =
      some ⟨[⟨[0x2e, 0x5f, 0x61], 7, 8⟩], [(512, { rax := 0 }), (512, { rax := 0 })]⟩ := by decide +kernel
  refine ⟨_, _, ⟨[0x2e, 0x5f, 0x61], 7, 8⟩, (reachable_listedTwice _).of_restrict, hsession, List.mem_singleton_self _,
    by decide, ⟨_, List.mem_cons_self, rfl⟩, ?_⟩
  intro call hcall
  have hwritten : call.2.written = [] := by
    rcases List.mem_cons.1 hcall with rfl | hcall
    · rfl
    · rw [List.mem_singleton.1 hcall]
  rw [hwritten, walkRecords, if_pos rfl]

end PS4Recomp.Runtime.DirListing
