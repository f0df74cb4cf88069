import PS4Recomp.Runtime.MountTable

/-!
# When the mount table behaves as a map

* `covers_of_longer` — of two prefixes of a path the shorter covers the longer;
* `caseInsensitiveLookup_covers` — a lookup below a host path that exists stays below it;
* `Inv` — the active slots are the map, none covers a later one; `Inv.exec` — its step lemma;
* `behaves_of_inv` — then the first match is the longest;
* **`mountTable_behaves`** — every state of a run whose mounts meet `MountOk` behaves as the map.
-/

namespace PS4Recomp.Runtime.MountTable

open Library.Transition

/-! ### Paths and prefixes -/

theorem covers_iff {p path : Path} : Covers p path ↔
    ∃ rest, path = p ++ rest ∧ (rest = [] ∨ rest.head? = some '/' ∨ p.getLast? = some '/') := by
  constructor
  · rintro ⟨⟨rest, rfl⟩, h⟩
    rw [List.drop_left] at h
    exact ⟨rest, rfl, h⟩
  · rintro ⟨rest, rfl, h⟩
    refine ⟨List.prefix_append p rest, ?_⟩
    rw [List.drop_left]
    exact h

theorem covers_refl (p : Path) : Covers p p :=
  covers_iff.2 ⟨[], (List.append_nil p).symm, .inl rfl⟩

theorem covers_fit {p path : Path} {size : Nat} (h : Covers p path) (hp : p.length < size) :
    Covers p (fit size path) := by
  obtain ⟨rest, rfl, hrest⟩ := covers_iff.1 h
  refine covers_iff.2 ⟨rest.take (size - 1 - p.length), ?_, ?_⟩
  · rw [fit, List.take_append, List.take_of_length_le (by omega)]
  · rcases hrest with rfl | hhead | hlast
    · exact .inl List.take_nil
    · cases rest with
      | nil => cases hhead
      | cons c rest =>
        cases size - 1 - p.length with
        | zero => exact .inl rfl
        | succ n => exact .inr (.inl hhead)
    · exact .inr (.inr hlast)

theorem matchesPrefix_iff {p path : Path} (hp : p.getLast? ≠ some '/') :
    matchesPrefix p path = true ↔ Covers p path := by
  rw [matchesPrefix, Bool.and_eq_true, List.isPrefixOf_iff_prefix, Bool.or_eq_true, decide_eq_true_iff,
    decide_eq_true_iff, List.head?_eq_none_iff]
  constructor
  · rintro ⟨hpre, hnil | hhead⟩
    · exact ⟨hpre, .inl hnil⟩
    · exact ⟨hpre, .inr (.inl hhead)⟩
  · rintro ⟨hpre, hnil | hhead | hlast⟩
    · exact ⟨hpre, .inl hnil⟩
    · exact ⟨hpre, .inr hhead⟩
    · exact absurd hlast hp

/-- **Of two prefixes of a path, the shorter one covers the longer.** -/
theorem covers_of_longer {a b path : Path} (ha : Covers a path) (hb : Covers b path)
    (hlen : a.length ≤ b.length) : Covers a b := by
  obtain ⟨rest, rfl⟩ := List.prefix_of_prefix_length_le ha.1 hb.1 hlen
  obtain ⟨tail, rfl, -⟩ := covers_iff.1 hb
  obtain ⟨more, hmore, hcase⟩ := covers_iff.1 ha
  rw [List.append_assoc] at hmore
  have hmore : rest ++ tail = more := List.append_cancel_left hmore
  refine covers_iff.2 ⟨rest, rfl, ?_⟩
  rcases hcase with hnil | hhead | hlast
  · rw [hnil] at hmore
    exact .inl (List.append_eq_nil_iff.1 hmore).1
  · cases rest with
    | nil => exact .inl rfl
    | cons c rest =>
      rw [← hmore] at hhead
      exact .inr (.inl hhead)
  · exact .inr (.inr hlast)

/-- A path is `host`, or goes on with a slash. -/
def Below (host path : Path) : Prop := ∃ rest, path = host ++ rest ∧ (rest = [] ∨ rest.head? = some '/')

theorem Below.covers {host path : Path} (h : Below host path) : Covers host path := by
  obtain ⟨rest, hpath, hnil | hhead⟩ := h
  · exact covers_iff.2 ⟨rest, hpath, .inl hnil⟩
  · exact covers_iff.2 ⟨rest, hpath, .inr (.inl hhead)⟩

theorem fit_length_lt {size : Nat} (hsize : 0 < size) (s : Path) : (fit size s).length < size := by
  rw [fit, List.length_take]
  omega

theorem fit_eq {size : Nat} {s : Path} (h : s.length < size) : fit size s = s := by
  rw [fit, List.take_of_length_le (by omega)]

theorem below_mountedPath {host : Path} (hhost : host.length < 1024) (rest : Path) :
    Below host (mountedPath host rest) := by
  rw [mountedPath]
  split
  · exact ⟨[], by rw [fit_eq hhost, List.append_nil], .inl rfl⟩
  · refine ⟨List.take (1024 - 1 - host.length)
      ('/' :: normalizeChrootSubpath (rest.dropWhile (· = '/')) 1024), ?_, ?_⟩
    · rw [fit, List.take_append, List.take_of_length_le (by omega)]
    · cases 1024 - 1 - host.length with
      | zero => exact .inl rfl
      | succ n => exact .inr rfl

theorem mountedPath_length_lt (host rest : Path) : (mountedPath host rest).length < 1024 := by
  rw [mountedPath]
  split
  · exact fit_length_lt (by decide) _
  · exact fit_length_lt (by decide) _

/-! ### The lookup on disk -/

theorem splitLast_name {p dir name : Path} (h : splitLast p = some (dir, name)) : '/' ∉ name := by
  unfold splitLast at h
  split at h
  · cases h
  · cases h
    intro hmem
    have hne := List.mem_takeWhile_imp (List.mem_reverse.1 hmem)
    exact absurd rfl (of_decide_eq_true hne)

theorem below_splitLast {host p dir name : Path} (h : Below host p) (hne : p ≠ host)
    (hsplit : splitLast p = some (dir, name)) : Below host dir := by
  obtain ⟨rest, rfl, hrest⟩ := h
  have hname := splitLast_name hsplit
  have heq := splitLast_eq hsplit
  rcases hrest with rfl | hhead
  · exact absurd (List.append_nil host) hne
  · -- the slash behind `host` is not in the last name
    have hle : host.length ≤ dir.length := by
      by_contra hlt
      obtain ⟨tail, rfl⟩ : dir <+: host :=
        List.prefix_of_prefix_length_le ⟨_, heq.symm⟩ (List.prefix_append host rest) (by omega)
      rw [List.append_assoc] at heq
      have htail : tail ++ rest = '/' :: name := List.append_cancel_left heq
      cases tail with
      | nil => exact hlt (by rw [List.append_nil])
      | cons c tail =>
        have hname' : tail ++ rest = name := (List.cons.inj htail).2
        refine hname ?_
        rw [← hname']
        exact List.mem_append_right _ (List.mem_of_mem_head? hhead)
    obtain ⟨tail, rfl⟩ : host <+: dir :=
      List.prefix_of_prefix_length_le (List.prefix_append host rest) ⟨_, heq.symm⟩ hle
    rw [List.append_assoc] at heq
    have hrest : rest = tail ++ '/' :: name := List.append_cancel_left heq
    refine ⟨tail, rfl, ?_⟩
    cases tail with
    | nil => exact .inl rfl
    | cons c tail =>
      rw [hrest] at hhead
      exact .inr hhead

theorem splitLast_of_mem {p : Path} (h : '/' ∈ p) : splitLast p ≠ none := by
  unfold splitLast
  split
  · next hdrop =>
    have hall := List.dropWhile_eq_nil_iff.1 hdrop
    exact absurd rfl (of_decide_eq_true (hall '/' (List.mem_reverse.2 h)))
  · nofun

theorem missingParts_below {d : Disk} {host : Path} (hhost : d.access host = true) (hne : host ≠ [])
    (curr : Path) (parts : List Path) (h : Below host curr) :
    Below host (missingParts d curr parts).1 ∧ (missingParts d curr parts).1.length ≤ curr.length := by
  fun_induction missingParts d curr parts with
  | case1 curr parts hstop => exact ⟨h, Nat.le_refl _⟩
  | case2 curr parts hstop hsplit =>
    obtain ⟨rest, rfl, rfl | hhead⟩ := h
    · rw [List.append_nil] at hstop
      exact absurd (.inr hhost) hstop
    · exact absurd hsplit (splitLast_of_mem (List.mem_append_right _ (List.mem_of_mem_head? hhead)))
  | case3 curr parts hstop name hsplit =>
    have hcurr : curr ≠ host := fun heq => hstop (.inr (heq ▸ hhost))
    obtain ⟨rest, hnil, -⟩ := below_splitLast h hcurr hsplit
    exact absurd (List.append_eq_nil_iff.1 hnil.symm).1 hne
  | case4 curr parts hstop c dir name hsplit ih =>
    have hcurr : curr ≠ host := fun heq => hstop (.inr (heq ▸ hhost))
    obtain ⟨hbelow, hlen⟩ := ih (below_splitLast h hcurr hsplit)
    refine ⟨hbelow, Nat.le_trans hlen ?_⟩
    rw [splitLast_eq hsplit, List.length_append]
    exact Nat.le_add_right _ _

theorem covers_joined {host resolved : Path} (hne : host ≠ []) (hhost : host.length < 1024)
    (h : Covers host resolved) (part : Path) : Covers host (joined resolved part) := by
  refine covers_fit ?_ hhost
  obtain ⟨rest, rfl, hrest⟩ := covers_iff.1 h
  by_cases hroot : host ++ rest = ['/']
  · rw [if_pos hroot, List.append_nil]
    have hlast : host.getLast? = some '/' := by
      cases host with
      | nil => exact absurd rfl hne
      | cons c host =>
        obtain ⟨hc, htail⟩ := List.cons.inj hroot
        rw [(List.append_eq_nil_iff.1 htail).1, hc]
        rfl
    exact covers_iff.2 ⟨rest ++ part, by rw [List.append_assoc], .inr (.inr hlast)⟩
  · rw [if_neg hroot]
    refine covers_iff.2 ⟨rest ++ ['/'] ++ part, by simp only [List.append_assoc], ?_⟩
    cases rest with
    | nil => exact .inr (.inl rfl)
    | cons c rest =>
      rcases hrest with hnil | hhead | hlast
      · cases hnil
      · exact .inr (.inl hhead)
      · exact .inr (.inr hlast)

theorem resolveParts_covers {d : Disk} {host : Path} (hne : host ≠ []) (hhost : host.length < 1024)
    (parts : List Path) (resolved : Path) (h : Covers host resolved) (hlen : resolved.length < 1024) :
    Covers host (parts.foldl (resolvePart d) resolved) ∧
      (parts.foldl (resolvePart d) resolved).length < 1024 := by
  induction parts generalizing resolved with
  | nil => exact ⟨h, hlen⟩
  | cons part parts ih =>
    have hjoined : ∀ name, (joined resolved name).length < 1024 := fun name => fit_length_lt (by decide) _
    rw [List.foldl_cons]
    unfold resolvePart
    split
    · exact ih resolved h hlen
    · split
      · exact ih _ (covers_joined hne hhost h part) (hjoined part)
      · split
        · next name _ => exact ih _ (covers_joined hne hhost h name) (hjoined name)
        · exact ih _ (covers_joined hne hhost h part) (hjoined part)

/-- **The lookup of a path below a host path that exists stays below it.** -/
theorem caseInsensitiveLookup_covers {d : Disk} {host raw : Path} (hexists : d.access host = true)
    (hne : host ≠ []) (hhost : host.length < 1024) (h : Below host raw) (hraw : raw.length < 1024)
    {size : Nat} (hsize : 1024 ≤ size) :
    ∃ resolved, caseInsensitiveLookup d raw size = .ok resolved ∧ Covers host resolved := by
  unfold caseInsensitiveLookup
  split
  · rw [if_neg (by omega)]
    exact ⟨raw, rfl, h.covers⟩
  · rw [if_neg (by omega)]
    obtain ⟨hbelow, hlen⟩ := missingParts_below hexists hne raw [] h
    have hcurr : (missingParts d raw []).1 ≠ [] := by
      obtain ⟨rest, heq, -⟩ := hbelow
      rw [heq]
      exact List.append_ne_nil_of_left_ne_nil hne rest
    obtain ⟨hcovers, hshort⟩ := resolveParts_covers (d := d) hne hhost (missingParts d raw []).2.reverse
      (missingParts d raw []).1 hbelow.covers (by omega)
    simp only [if_neg hcurr]
    rw [if_neg (by omega)]
    exact ⟨_, rfl, hcovers⟩

/-! ### The slots -/

/-- The slot is that of `p`. -/
def SlotOf (p : Path) (m : VfsMount) : Prop := m.active = true ∧ m.guestPrefix = p

theorem updateFirst_none {f : VfsMount → VfsMount} {p : Path} {mounts : List VfsMount}
    (h : updateFirst f p mounts = none) : ∀ m ∈ mounts, ¬SlotOf p m := by
  induction mounts with
  | nil => exact fun m hm => (List.not_mem_nil hm).elim
  | cons m mounts ih =>
    unfold updateFirst at h
    split at h
    · cases h
    · next hslot =>
      intro x hx
      rcases List.mem_cons.1 hx with rfl | hx
      · exact hslot
      · exact ih (Option.map_eq_none_iff.1 h) x hx

theorem updateFirst_some {f : VfsMount → VfsMount} {p : Path} {mounts mounts' : List VfsMount}
    (h : updateFirst f p mounts = some mounts') :
    ∃ before m after, mounts = before ++ m :: after ∧ mounts' = before ++ f m :: after ∧ SlotOf p m := by
  induction mounts generalizing mounts' with
  | nil => cases h
  | cons m mounts ih =>
    unfold updateFirst at h
    split at h
    · next hslot =>
      cases h
      exact ⟨[], m, mounts, rfl, rfl, hslot⟩
    · obtain ⟨tail, htail, rfl⟩ := Option.map_eq_some_iff.1 h
      obtain ⟨before, x, after, rfl, rfl, hx⟩ := ih htail
      exact ⟨m :: before, x, after, rfl, rfl, hx⟩

/-- No active slot covers a later one. -/
def Ordered (mounts : List VfsMount) : Prop :=
  mounts.Pairwise fun a b => a.active = true → b.active = true → ¬Covers a.guestPrefix b.guestPrefix

theorem Ordered.unique {before after : List VfsMount} {m x : VfsMount} {p : Path}
    (h : Ordered (before ++ m :: after)) (hm : SlotOf p m) (hx : x ∈ before ∨ x ∈ after) : ¬SlotOf p x := by
  rintro ⟨hactive, rfl⟩
  obtain ⟨hmactive, hmp⟩ := hm
  obtain ⟨-, hcons, hcross⟩ := List.pairwise_append.1 h
  have hcovers : Covers m.guestPrefix x.guestPrefix := hmp ▸ covers_refl _
  have hcovers' : Covers x.guestPrefix m.guestPrefix := hmp ▸ covers_refl _
  rcases hx with hx | hx
  · exact hcross x hx m List.mem_cons_self hactive hmactive hcovers'
  · exact (List.pairwise_cons.1 hcons).1 x hx hmactive hactive hcovers

/-- A slot that keeps its prefix, and becomes active only if it was, keeps the order. -/
theorem Ordered.replace {before after : List VfsMount} {m m' : VfsMount} (h : Ordered (before ++ m :: after))
    (hpre : m'.guestPrefix = m.guestPrefix) (hactive : m'.active = true → m.active = true) :
    Ordered (before ++ m' :: after) := by
  obtain ⟨hbefore, hcons, hcross⟩ := List.pairwise_append.1 h
  obtain ⟨hafter, hrest⟩ := List.pairwise_cons.1 hcons
  refine List.pairwise_append.2 ⟨hbefore, List.pairwise_cons.2 ⟨?_, hrest⟩, ?_⟩
  · intro b hb ha hb'
    rw [hpre]
    exact hafter b hb (hactive ha) hb'
  · intro a ha b hb haa hba
    rcases List.mem_cons.1 hb with rfl | hb
    · rw [hpre]
      exact hcross a ha m List.mem_cons_self haa (hactive hba)
    · exact hcross a ha b (List.mem_cons_of_mem _ hb) haa hba

theorem mem_replace_iff {before after : List VfsMount} {m m' x : VfsMount} {p : Path}
    (h : Ordered (before ++ m :: after)) (hm : SlotOf p m) (hx : x.active = true) :
    x ∈ before ++ m' :: after ↔ x = m' ∨ x.guestPrefix ≠ p ∧ x ∈ before ++ m :: after := by
  have hother : x ∈ before ∨ x ∈ after → x.guestPrefix ≠ p := fun hmem hp => h.unique hm hmem ⟨hx, hp⟩
  rw [List.mem_append, List.mem_cons, List.mem_append, List.mem_cons]
  constructor
  · rintro (hmem | rfl | hmem)
    · exact .inr ⟨hother (.inl hmem), .inl hmem⟩
    · exact .inl rfl
    · exact .inr ⟨hother (.inr hmem), .inr (.inr hmem)⟩
  · rintro (rfl | ⟨hne, hmem | rfl | hmem⟩)
    · exact .inr (.inl rfl)
    · exact .inl hmem
    · exact absurd hm.2 hne
    · exact .inr (.inr hmem)

/-! ### The invariant -/

/-- The slot of a prefix and its host path, in use. -/
def slot (p host : Path) : VfsMount := ⟨p, host, true⟩

/-- The active slots are the map. -/
structure Represents (mounts : List VfsMount) (map : MountMap) : Prop where
  lookup : ∀ p host, map.lookup p = some host ↔ slot p host ∈ mounts
  ordered : Ordered mounts
  fits : ∀ m ∈ mounts, m.active = true → Fits m.guestPrefix m.hostPath ∧ m.hostPath ≠ []

theorem eq_slot {m : VfsMount} {p : Path} (h : SlotOf p m) : m = slot p m.hostPath := by
  obtain ⟨hactive, rfl⟩ := h
  cases m
  cases hactive
  rfl

theorem mem_keys_iff {mounts : List VfsMount} {map : MountMap} (h : Represents mounts map) (p : Path) :
    p ∈ map.keys ↔ ∃ m ∈ mounts, SlotOf p m := by
  rw [Finmap.mem_keys, Finmap.mem_iff]
  constructor
  · rintro ⟨host, hlookup⟩
    exact ⟨_, (h.lookup p host).1 hlookup, rfl, rfl⟩
  · rintro ⟨m, hmem, hslot⟩
    refine ⟨m.hostPath, (h.lookup p _).2 ?_⟩
    rw [← eq_slot hslot]
    exact hmem

theorem card_le_length {mounts : List VfsMount} {map : MountMap} (h : Represents mounts map) :
    map.keys.card ≤ mounts.length := by
  have hsub : map.keys ⊆ (mounts.map VfsMount.guestPrefix).toFinset := by
    intro p hp
    obtain ⟨m, hmem, -, rfl⟩ := (mem_keys_iff h p).1 hp
    exact List.mem_toFinset.2 (List.mem_map_of_mem hmem)
  calc map.keys.card ≤ (mounts.map VfsMount.guestPrefix).toFinset.card := Finset.card_le_card hsub
    _ ≤ (mounts.map VfsMount.guestPrefix).length := List.toFinset_card_le _
    _ = mounts.length := List.length_map ..

theorem Represents.remount {before after : List VfsMount} {m : VfsMount} {map : MountMap} {p host : Path}
    (h : Represents (before ++ m :: after) map) (hm : SlotOf p m) (hfits : Fits p host) (hhost : host ≠ []) :
    Represents (before ++ { m with hostPath := fit 1024 host } :: after) (map.insert p host) where
  lookup q host' := by
    have hfit : fit 1024 host = host := fit_eq hfits.2.1
    have hslot : ({ m with hostPath := fit 1024 host } : VfsMount) = slot p host := by
      rw [hfit]
      exact eq_slot (m := { m with hostPath := host }) hm
    rw [hslot, mem_replace_iff h.ordered hm rfl]
    by_cases hq : q = p
    · subst hq
      rw [Finmap.lookup_insert]
      constructor
      · intro heq
        cases heq
        exact .inl rfl
      · rintro (heq | ⟨hne, -⟩)
        · cases heq
          rfl
        · exact absurd rfl hne
    · rw [Finmap.lookup_insert_of_ne _ hq, h.lookup]
      constructor
      · exact fun hmem => .inr ⟨hq, hmem⟩
      · rintro (heq | ⟨-, hmem⟩)
        · exact absurd (congrArg VfsMount.guestPrefix heq) hq
        · exact hmem
  ordered := h.ordered.replace rfl id
  fits := by
    intro x hx hactive
    rcases (mem_replace_iff h.ordered hm hactive).1 hx with rfl | ⟨-, hmem⟩
    · rw [fit_eq hfits.2.1]
      exact ⟨by rw [hm.2]; exact hfits, hhost⟩
    · exact h.fits x hmem hactive

theorem Represents.append {mounts : List VfsMount} {map : MountMap} {p host : Path} (h : Represents mounts map)
    (hfits : Fits p host) (hhost : host ≠ []) (hnew : ∀ m ∈ mounts, ¬SlotOf p m)
    (hcovers : ∀ mounted ∈ map.keys, ¬Covers mounted p) :
    Represents (mounts ++ [⟨fit 64 p, fit 1024 host, true⟩]) (map.insert p host) := by
  rw [fit_eq hfits.1, fit_eq hfits.2.1]
  refine ⟨?_, ?_, ?_⟩
  · intro q host'
    rw [List.mem_append, List.mem_singleton, ← h.lookup]
    by_cases hq : q = p
    · subst hq
      rw [Finmap.lookup_insert]
      constructor
      · intro heq
        cases heq
        exact .inr rfl
      · rintro (hmem | heq)
        · exact absurd ⟨rfl, rfl⟩ (hnew _ ((h.lookup q host').1 hmem))
        · cases heq
          rfl
    · rw [Finmap.lookup_insert_of_ne _ hq]
      refine ⟨.inl, ?_⟩
      rintro (hmem | heq)
      · exact hmem
      · exact absurd (congrArg VfsMount.guestPrefix heq) hq
  · refine List.pairwise_append.2 ⟨h.ordered, List.pairwise_singleton _ _, ?_⟩
    intro a ha b hb hactive _
    obtain rfl := List.mem_singleton.1 hb
    exact hcovers _ ((mem_keys_iff h _).2 ⟨a, ha, hactive, rfl⟩)
  · intro m hm hactive
    rcases List.mem_append.1 hm with hm | hm
    · exact h.fits m hm hactive
    · obtain rfl := List.mem_singleton.1 hm
      exact ⟨hfits, hhost⟩

theorem Represents.unmount {before after : List VfsMount} {m : VfsMount} {map : MountMap} {p : Path}
    (h : Represents (before ++ m :: after) map) (hm : SlotOf p m) :
    Represents (before ++ { m with active := false } :: after) (map.erase p) where
  lookup q host := by
    rw [mem_replace_iff h.ordered hm rfl]
    by_cases hq : q = p
    · subst hq
      rw [Finmap.lookup_erase]
      refine iff_of_false nofun ?_
      rintro (heq | ⟨hne, -⟩)
      · cases heq
      · exact hne rfl
    · rw [Finmap.lookup_erase_ne hq, h.lookup]
      constructor
      · exact fun hmem => .inr ⟨hq, hmem⟩
      · rintro (heq | ⟨-, hmem⟩)
        · cases heq
        · exact hmem
  ordered := h.ordered.replace rfl nofun
  fits := by
    intro x hx hactive
    rcases (mem_replace_iff h.ordered hm hactive).1 hx with rfl | ⟨-, hmem⟩
    · cases hactive
    · exact h.fits x hmem hactive

/-- A call under the condition: the map's reply, and the map's change. -/
def Simulates (mounts : List VfsMount) (map : MountMap) (call : MountCall) : Prop :=
  (tableStep mounts call).1 = (specStep map call).1 ∧
    Represents (tableStep mounts call).2 (specStep map call).2

theorem simulates_unmount {mounts : List VfsMount} {map : MountMap} (h : Represents mounts map) (p : Path) :
    Simulates mounts map (.unmount p) := by
  show (ps4VfsUnmount mounts p).1 = _ ∧ Represents (ps4VfsUnmount mounts p).2 _
  unfold ps4VfsUnmount specStep
  split
  · next mounts' hupdate =>
    obtain ⟨before, m, after, rfl, rfl, hm⟩ := updateFirst_some hupdate
    have hmem : p ∈ map.keys := (mem_keys_iff h p).2 ⟨m, List.mem_append_right _ List.mem_cons_self, hm⟩
    simp only [if_pos hmem]
    exact ⟨trivial, h.unmount hm⟩
  · next hupdate =>
    have hmem : p ∉ map.keys := by
      intro hp
      obtain ⟨m, hm, hslot⟩ := (mem_keys_iff h p).1 hp
      exact updateFirst_none hupdate m hm hslot
    simp only [if_neg hmem]
    exact ⟨trivial, h⟩

theorem simulates_mount {s : MountState} (h : Represents s.mounts s.map) (hlen : s.mounts.length ≤ maxVfsMounts)
    {p host : Path} (hok : MountOk s (.mount p host)) : Simulates s.mounts s.map (.mount p host) := by
  show (ps4VfsMount s.mounts p host).1 = _ ∧ Represents (ps4VfsMount s.mounts p host).2 _
  unfold ps4VfsMount specStep
  by_cases hempty : p = [] ∨ host = []
  · simp only [if_pos hempty]
    exact ⟨trivial, h⟩
  simp only [if_neg hempty]
  have hhost : host ≠ [] := fun heq => hempty (.inr heq)
  split
  · next mounts' hupdate =>
    obtain ⟨before, m, after, heq, rfl, hm⟩ := updateFirst_some hupdate
    have hmem : p ∈ s.map.keys :=
      (mem_keys_iff h p).2 ⟨m, heq ▸ List.mem_append_right _ List.mem_cons_self, hm⟩
    have hfits : Fits p host := by
      rcases hok with hp | hp | ⟨hp, -⟩ | ⟨hfits, -⟩
      · exact absurd (.inl hp) hempty
      · exact absurd (.inr hp) hempty
      · exact absurd hmem hp
      · exact hfits
    rw [if_pos (.inl hmem)]
    rw [heq] at h
    exact ⟨rfl, h.remount hm hfits hhost⟩
  · next hupdate =>
    have hnew := updateFirst_none hupdate
    have hmem : p ∉ s.map.keys := by
      intro hp
      obtain ⟨m, hm, hslot⟩ := (mem_keys_iff h p).1 hp
      exact hnew m hm hslot
    rcases hok with hp | hp | ⟨-, hfull⟩ | ⟨hfits, hp | ⟨hroom, hcovers⟩⟩
    · exact absurd (.inl hp) hempty
    · exact absurd (.inr hp) hempty
    · -- as many slots as prefixes
      have hle := card_le_length h
      rw [if_pos (by omega), if_neg (not_or.2 ⟨hmem, by omega⟩)]
      exact ⟨rfl, h⟩
    · exact absurd hp hmem
    · have hle := card_le_length h
      rw [if_neg (by omega), if_pos (.inr (by omega))]
      exact ⟨rfl, h.append hfits hhost hnew hcovers⟩

/-! ### Runs -/

structure Inv (s : MountState) : Prop where
  represents : Represents s.mounts s.map
  length : s.mounts.length ≤ maxVfsMounts
  replies : s.history.map Prod.snd = specReplies ∅ s.calls

theorem updateFirst_length {f : VfsMount → VfsMount} {p : Path} {mounts mounts' : List VfsMount}
    (h : updateFirst f p mounts = some mounts') : mounts'.length = mounts.length := by
  obtain ⟨before, m, after, rfl, rfl, -⟩ := updateFirst_some h
  rw [List.length_append, List.length_append, List.length_cons, List.length_cons]

theorem tableStep_length {mounts : List VfsMount} (h : mounts.length ≤ maxVfsMounts) (call : MountCall) :
    (tableStep mounts call).2.length ≤ maxVfsMounts := by
  cases call with
  | mount p host =>
    show (ps4VfsMount mounts p host).2.length ≤ _
    unfold ps4VfsMount
    split
    · exact h
    · split
      · next hupdate => exact (updateFirst_length hupdate).trans_le h
      · split
        · exact h
        · rw [List.length_append]
          show mounts.length + 1 ≤ _
          omega
  | unmount p =>
    show (ps4VfsUnmount mounts p).2.length ≤ _
    unfold ps4VfsUnmount
    split
    · next hupdate => exact (updateFirst_length hupdate).trans_le h
    · exact h

theorem specReplies_concat (calls : List MountCall) (call : MountCall) :
    ∀ m, specReplies m (calls ++ [call]) =
      specReplies m calls ++ [(specStep (calls.foldl (fun m c => (specStep m c).2) m) call).1] := by
  induction calls with
  | nil => exact fun m => rfl
  | cons c calls ih =>
    intro m
    show _ :: specReplies _ (calls ++ [call]) = _
    rw [ih]
    rfl

theorem exec_eq (s : MountState) (call : MountCall) : MountTable.exec s call =
    some ⟨(tableStep s.mounts call).2, s.history ++ [(call, (tableStep s.mounts call).1)]⟩ := rfl

theorem Inv.exec {s s' : MountState} (h : Inv s) {call : MountCall} (hok : MountOk s call)
    (hs : MountTable.exec s call = some s') : Inv s' := by
  obtain ⟨hreply, hrepr⟩ : Simulates s.mounts s.map call := by
    cases call with
    | mount p host => exact simulates_mount h.represents h.length hok
    | unmount p => exact simulates_unmount h.represents p
  rw [exec_eq] at hs
  cases hs
  have hcalls : (s.history ++ [(call, (tableStep s.mounts call).1)]).map Prod.fst = s.calls ++ [call] :=
    List.map_append
  have hmap : specMap (s.calls ++ [call]) = (specStep s.map call).2 := by
    rw [specMap, List.foldl_append]
    rfl
  refine ⟨?_, tableStep_length h.length call, ?_⟩
  · show Represents _ (specMap (List.map Prod.fst _))
    rw [hcalls, hmap]
    exact hrepr
  · show List.map Prod.snd (_ ++ _) = specReplies ∅ (List.map Prod.fst _)
    rw [hcalls, specReplies_concat, List.map_append, h.replies]
    exact congrArg (specReplies ∅ s.calls ++ [·]) hreply

/-- **Where the active slots are the map, the first match is the longest.** -/
theorem behaves_of_inv {s : MountState} (h : Inv s) : Behaves s := by
  have hrepr := h.represents
  have hmatch : ∀ {m : VfsMount} {path : Path}, m ∈ s.mounts →
      ((m.active && matchesPrefix m.guestPrefix path) = true ↔ m.active = true ∧ Covers m.guestPrefix path) := by
    intro m path hm
    rw [Bool.and_eq_true]
    exact and_congr_right fun hactive => matchesPrefix_iff (hrepr.fits m hm hactive).1.2.2
  refine ⟨h.replies, ?_, ?_⟩
  · intro root path p hp hcovers
    obtain ⟨e, he, heactive, rfl⟩ := (mem_keys_iff hrepr p).1 hp
    obtain ⟨m, hfind⟩ : ∃ m, s.mounts.find? (fun m => m.active && matchesPrefix m.guestPrefix path) = some m :=
      Option.isSome_iff_exists.1 (List.find?_isSome.2 ⟨e, he, (hmatch he).2 ⟨heactive, hcovers⟩⟩)
    obtain ⟨hmtrue, before, after, hmounts, hbefore⟩ := List.find?_eq_some_iff_append.1 hfind
    have hm : m ∈ s.mounts := List.mem_of_find?_eq_some hfind
    obtain ⟨hactive, hmcovers⟩ := (hmatch hm).1 hmtrue
    obtain ⟨hfits, hhost⟩ := hrepr.fits m hm hactive
    have hbelow := below_mountedPath hfits.2.1 (path.drop m.guestPrefix.length)
    have hne : mountedPath m.hostPath (path.drop m.guestPrefix.length) ≠ [] := by
      obtain ⟨rest, heq, -⟩ := hbelow
      rw [heq]
      exact List.append_ne_nil_of_left_ne_nil hhost rest
    have hraw : rawHost s.mounts root path = mountedPath m.hostPath (path.drop m.guestPrefix.length) := by
      rw [rawHost, hfind]
      exact if_neg hne
    refine ⟨m.guestPrefix, m.hostPath, (hrepr.lookup _ _).2 ?_, hmcovers, ?_, hraw, ?_⟩
    · rw [← eq_slot ⟨hactive, rfl⟩]
      exact hm
    · -- a longer one would stand behind, covered by this one
      intro q hq hqcovers
      obtain ⟨x, hx, hxactive, rfl⟩ := (mem_keys_iff hrepr q).1 hq
      by_contra hlt
      have hxtrue := (hmatch hx).2 ⟨hxactive, hqcovers⟩
      have hordered := hrepr.ordered
      rw [hmounts] at hx hordered
      rcases List.mem_append.1 hx with hx | hx
      · have hxfalse := hbefore x hx
        rw [hxtrue] at hxfalse
        cases hxfalse
      · rcases List.mem_cons.1 hx with rfl | hx
        · exact hlt (Nat.le_refl _)
        · have hcons := (List.pairwise_append.1 hordered).2.1
          exact (List.pairwise_cons.1 hcons).1 x hx hactive hxactive
            (covers_of_longer hmcovers hqcovers (by omega))
    · intro d size hsize hexists
      rw [ps4VfsResolve, if_neg (by omega), hraw]
      exact caseInsensitiveLookup_covers hexists hhost hfits.2.1 hbelow (mountedPath_length_lt _ _) hsize
  · intro root path hnone
    have hfind : s.mounts.find? (fun m => m.active && matchesPrefix m.guestPrefix path) = none := by
      rw [List.find?_eq_none]
      intro m hm htrue
      obtain ⟨hactive, hcovers⟩ := (hmatch hm).1 htrue
      exact hnone _ ((mem_keys_iff hrepr _).2 ⟨m, hm, hactive, rfl⟩) hcovers
    rw [rawHost, hfind]

theorem inv_init : Inv {} where
  represents := ⟨fun p host => iff_of_false (by rw [MountState.map]; exact nofun) nofun, List.Pairwise.nil, nofun⟩
  length := Nat.zero_le _
  replies := rfl

/-- **In every run whose mounts meet the condition, the table behaves as a finite map.** -/
theorem mountTable_behaves {s : MountState} (h : Reachable (mountSystem.restrict MountOk) s) : Behaves s := by
  refine behaves_of_inv (h.invariant (P := Inv) ?_ ?_)
  · intro s hs
    rw [show s = {} from hs]
    exact inv_init
  · intro s call s' _ hinv hs
    exact hinv.exec hs.1 hs.2

/-- Two mounts, a remount of the first, and its unmount. -/
def savedataRun : List MountCall :=
  [.mount "/s/b".toList "/h".toList, .mount "/s".toList "/k".toList, .mount "/s/b".toList "/m".toList,
    .unmount "/s/b".toList]

theorem mountTable_behaves_savedataRun : ∃ s,
    s.mounts = [⟨"/s/b".toList, "/m".toList, false⟩, ⟨"/s".toList, "/k".toList, true⟩] ∧ Behaves s := by
  have hlast : (execAll (guarded MountOk MountTable.exec) {} savedataRun).map MountState.mounts =
      some [⟨"/s/b".toList, "/m".toList, false⟩, ⟨"/s".toList, "/k".toList, true⟩] := by decide
  obtain ⟨s, hs, hmounts⟩ := Option.map_eq_some_iff.1 hlast
  have hreach : Reachable (mountSystem.restrict MountOk) s :=
    Reachable.guarded (fun _ _ _ hstep => hstep) savedataRun (.init rfl) hs
  exact ⟨s, hmounts, mountTable_behaves hreach⟩

/-- A mount below one that is there. -/
def nestedState : MountState where
  mounts := [⟨"/a".toList, "/h".toList, true⟩, ⟨"/a/b".toList, "/k".toList, true⟩]
  history := [(.mount "/a".toList "/h".toList, 0), (.mount "/a/b".toList "/k".toList, 0)]

/-- **The outer mount takes the paths of the inner one.** -/
theorem nested_mount_hidden : Reachable mountSystem nestedState ∧ ¬Behaves nestedState := by
  constructor
  · have hrun : execAll MountTable.exec {}
        [.mount "/a".toList "/h".toList, .mount "/a/b".toList "/k".toList] = some nestedState := by rfl
    exact Reachable.execAll (fun _ _ _ hstep => hstep) _ (.init rfl) hrun
  · intro h
    obtain ⟨longest, host, hlookup, -, hlongest, hraw, -⟩ :=
      h.resolves [] "/a/b".toList "/a/b".toList (by decide) (by decide)
    have hlen := hlongest "/a/b".toList (by decide) (by decide)
    have hkeys : longest ∈ nestedState.map.keys := Finmap.mem_keys.2 (Finmap.mem_of_lookup_eq_some hlookup)
    have hcases : ∀ p ∈ nestedState.map.keys, p = "/a/b".toList ∨ p.length < 4 := by decide
    rcases hcases longest hkeys with rfl | hshort
    · rw [show nestedState.map.lookup "/a/b".toList = some "/k".toList by decide] at hlookup
      cases hlookup
      exact absurd hraw (by decide)
    · exact absurd hlen (Nat.not_le.2 hshort)

end PS4Recomp.Runtime.MountTable
