import PS4Recomp.Library.PathNames
import PS4Recomp.Runtime.MountTableSafe

/-!
# Where a guest path lies on the host

A guest path goes below the host path of the first mount that takes it, below the application root, or below
the `data` directory there, by its components: `.` and empty ones dropped, `..` going up but not above.

* `components`, `rootOf` — the components of a path, and the base it goes below with the rest of it;
* `Respells` — a host path with components spelled as existing entries are;
* `Beneath`, `Confined` — plain names below the base, one for each component;
* `FitsBuffers`, `WithinLimits` — no buffer of the code cuts the path off, and the walk up finds a start;
* `mountedPath_below`, `missingParts_below` — the host path and the walk up;
* **`resolve_confined`** — then a path that is resolved is confined; `resolve_deep` — a path that is not.
-/

namespace PS4Recomp.Runtime.MountTable

open Library.Transition Library.PathNames

/-! ### The purpose -/

/-- The components of what follows a prefix. -/
def components (rest : Path) : List Path :=
  (tokens '/' rest).foldl (push (· = ['.']) (· = ['.', '.'])) []

/-- The base that a path goes below, and what follows the prefix. -/
def rootOf (mounts : List VfsMount) (root path : Path) : Option (Path × Path) :=
  match mounts.find? fun m => m.active && matchesPrefix m.guestPrefix path with
  | some m => some (m.hostPath, path.drop m.guestPrefix.length)
  | none =>
    if matchesPrefix "/app0".toList path then some (root, path.drop 5)
    else if matchesPrefix "/hostapp".toList path then some (root, path.drop 8)
    else if matchesPrefix "/data".toList path then some (root ++ "/data".toList, path.drop 5)
    else if path.head? ≠ some '/' then some (root, path)
    else none

/-- A path with a component behind it. -/
def beneath (resolved part : Path) : Path := resolved ++ (if resolved = ['/'] then [] else ['/']) ++ part

/-- The second path is the first, with components behind `start` spelled as entries of their directory. -/
inductive Respells (d : Disk) (start : Path) : Path → Path → Prop
  | refl {p : Path} : start <+: p → Respells d start p p
  | root : start = [] → Respells d start [] ['/']
  | skip {p q : Path} : Respells d start p q → Respells d start (p ++ ['/']) q
  | name {p q part n : Path} : Respells d start p q → '/' ∉ part → strcasecmp n part = true →
      n = part ∨ n ∈ d.readdir q → Respells d start (p ++ '/' :: part) (beneath q n)

/-- A name that stays in its directory. -/
def Plain (name : Path) : Prop := name ≠ [] ∧ '/' ∉ name ∧ name ≠ ['.'] ∧ name ≠ ['.', '.']

/-- A path below `host` by a plain name for each component, equal up to case. -/
def Beneath (host : Path) (cs : List Path) (resolved : Path) : Prop :=
  ∃ names, List.Forall₂ (fun name c => strcasecmp name c = true ∧ Plain name) names cs ∧
    (resolved = below '/' host names ∨ host = ['/'] ∧ names ≠ [] ∧ resolved = below '/' [] names)

/-- **A path below the base by exactly the components, up to how existing entries are spelled.**  The base
itself is matched that way only if it does not exist. -/
def Confined (d : Disk) (base : Path) (cs : List Path) (resolved : Path) : Prop :=
  ∃ host, (host = base ∨ d.access base = false ∧ Respells d [] base host) ∧
    Respells d host (below '/' host cs) resolved ∧ Beneath host cs resolved

/-! ### The condition -/

/-- The starts of a path that the walk up tries, the longest first. -/
def starts (p : Path) : List Path :=
  match h : splitLast p with
  | some (c :: dir, _) => p :: starts (c :: dir)
  | _ => [p]
termination_by p.length
decreasing_by
  rw [splitLast_eq h, List.length_append]
  exact Nat.lt_add_of_pos_right (Nat.succ_pos _)

/-- No buffer cuts the host path off. -/
structure FitsBuffers (base rest : Path) : Prop where
  subpath : (rest.dropWhile (· = '/')).length < 1024
  depth : ∀ front, front <+: tokens '/' rest →
    (front.foldl (push (· = ['.']) (· = ['.', '.'])) []).length ≤ 64
  length : (below '/' base (components rest)).length < 1024

instance (base rest : Path) : Decidable (FitsBuffers base rest) :=
  decidable_of_iff
    ((rest.dropWhile (· = '/')).length < 1024 ∧
      (∀ front ∈ (tokens '/' rest).inits, (front.foldl (push (· = ['.']) (· = ['.', '.'])) []).length ≤ 64) ∧
      (below '/' base (components rest)).length < 1024)
    ⟨fun ⟨hsub, hdepth, hlen⟩ => ⟨hsub, fun front hfront => hdepth front ((List.mem_inits _ _).2 hfront), hlen⟩,
      fun ⟨hsub, hdepth, hlen⟩ => ⟨hsub, fun front hfront => hdepth front ((List.mem_inits _ _).1 hfront), hlen⟩⟩

/-- **No limit of the code cuts the path off**: no buffer, and not the walk up to an existing start. -/
structure WithinLimits (d : Disk) (base rest : Path) : Prop extends FitsBuffers base rest where
  found : d.access (below '/' base (components rest)) = true ∨
    ((starts (below '/' base (components rest))).takeWhile fun s => !d.access s).length ≤ 64 ∧
      (base.head? = some '/' ∨ ∃ s ∈ starts (below '/' base (components rest)), d.access s = true)

/-! ### The host path -/

theorem pushSeg_eq : pushSeg = pushWithin (· = ['.']) (· = ['.', '.']) 64 := rfl

theorem plain_components {rest : Path} : ∀ c ∈ components rest, Plain c := by
  intro c hc
  rcases mem_foldl_push _ _ hc with hnil | ⟨hmem, hskip, hup⟩
  · cases hnil
  · obtain ⟨hne, hslash⟩ := mem_tokens hmem
    exact ⟨hne, hslash, hskip, hup⟩

theorem writeSegs_below {size : ℕ} (segs : List Path) {out : Path} (hout : out ≠ [])
    (h : (below '/' out segs).length + 1 < size) : writeSegs size segs out = below '/' out segs := by
  induction segs generalizing out with
  | nil => rw [writeSegs, below_nil]
  | cons seg segs ih =>
      rw [below_cons] at h
      have hle := (prefix_below (out ++ '/' :: seg) segs : _ <+: below '/' _ segs).length_le
      rw [List.length_append, List.length_cons] at hle
      rw [writeSegs, if_neg (by omega), if_neg hout, ih (by simp) h, below_cons]

/-- **Within the limits the host path is the base, with the components behind it.** -/
theorem mountedPath_below {base rest : Path} (hbase : base ≠ []) (h : FitsBuffers base rest) :
    mountedPath base rest = below '/' base (components rest) := by
  have htokens : ((fit 1024 (rest.dropWhile (· = '/'))).splitOn '/').filter (· ≠ []) = tokens '/' rest := by
    rw [fit_eq h.subpath]
    exact tokens_dropWhile rest
  have hsegs : (tokens '/' rest).foldl pushSeg [] = components rest := by
    rw [pushSeg_eq]
    exact foldl_pushWithin _ _ h.depth
  have hpos := List.length_pos_iff.2 hbase
  have hlength := h.length
  rw [mountedPath, normalizeChrootSubpath, htokens, hsegs]
  cases hcs : components rest with
  | nil =>
      rw [hcs, below_nil] at hlength
      rw [writeSegs, if_pos rfl, below_nil, fit_eq hlength]
  | cons seg segs =>
      have hseg : seg ≠ [] := (plain_components seg (hcs ▸ List.mem_cons_self)).1
      rw [hcs, below_cons] at hlength
      have hsplit : below '/' (base ++ '/' :: seg) segs = base ++ '/' :: below '/' seg segs := by
        rw [below, below, List.append_assoc, List.cons_append]
      rw [hsplit, List.length_append, List.length_cons] at hlength
      have hle := (prefix_below seg segs : _ <+: below '/' seg segs).length_le
      have hwrite : writeSegs 1024 (seg :: segs) [] = below '/' seg segs := by
        rw [writeSegs, if_neg (by rw [List.length_nil]; omega), if_pos rfl]
        exact writeSegs_below segs hseg (by omega)
      have hne : below '/' seg segs ≠ [] := fun hnil => hseg (List.append_eq_nil_iff.1 hnil).1
      rw [hwrite, if_neg hne, below_cons, hsplit, fit_eq (by rw [List.length_append, List.length_cons]; omega)]

theorem mountedPath_ne_nil {base : Path} (hbase : base ≠ []) (rest : Path) : mountedPath base rest ≠ [] := by
  obtain ⟨c, base, rfl⟩ := List.exists_cons_of_ne_nil hbase
  rw [mountedPath]
  split
  · exact List.cons_ne_nil _ _
  · exact List.cons_ne_nil _ _

theorem rawHost_eq {mounts : List VfsMount} (hmounts : ∀ m ∈ mounts, m.hostPath ≠ []) {root path base rest : Path}
    (h : rootOf mounts root path = some (base, rest)) : rawHost mounts root path = mountedPath base rest := by
  rw [rootOf] at h
  rw [rawHost]
  cases hfind : mounts.find? fun m => m.active && matchesPrefix m.guestPrefix path with
  | some m =>
      rw [hfind] at h
      cases h
      exact if_neg (mountedPath_ne_nil (hmounts m (List.mem_of_find?_eq_some hfind)) _)
  | none =>
      rw [hfind] at h
      dsimp only at h
      show fallbackHost root path = _
      rw [fallbackHost]
      split at h
      · rename_i happ
        cases h
        rw [if_pos happ]
      · rename_i happ
        rw [if_neg happ]
        split at h
        · rename_i hhost
          cases h
          rw [if_pos hhost]
        · rename_i hhost
          rw [if_neg hhost]
          split at h
          · rename_i hdata
            cases h
            rw [if_pos hdata]
          · rename_i hdata
            rw [if_neg hdata]
            split at h
            · rename_i hrel
              cases h
              rw [if_pos hrel]
            · cases h

/-! ### The walk up -/

theorem beneath_ne_root {q part : Path} (h : q ≠ ['/']) : beneath q part = q ++ '/' :: part := by
  rw [beneath, if_neg h, List.append_assoc, List.singleton_append]

theorem joined_eq {q part : Path} (h : (beneath q part).length < 1024) : joined q part = beneath q part :=
  fit_eq h

theorem strcasecmp_length {a b : Path} (h : strcasecmp a b = true) : a.length = b.length := by
  have hmap := congrArg List.length (of_decide_eq_true h)
  rwa [List.length_map, List.length_map] at hmap

theorem starts_cons {p dir name : Path} {c : Char} (h : splitLast p = some (c :: dir, name)) :
    starts p = p :: starts (c :: dir) := by
  rw [starts]
  split
  · rename_i heq
    rw [h] at heq
    cases heq
    rfl
  · rename_i hno
    exact absurd h (hno c dir name)

theorem starts_single {p : Path} (h : ∀ c dir name, splitLast p ≠ some (c :: dir, name)) : starts p = [p] := by
  rw [starts]
  split
  · rename_i heq
    exact absurd heq (h _ _ _)
  · rfl

theorem pushPart_eq {parts : List Path} (h : parts.length < 64) (part : Path) :
    pushPart parts part = parts ++ [part] := if_pos h

/-- **The walk up stops at a start of the path, with the components behind it**, if it has room for them
and the path is absolute or has a start that exists. -/
theorem missingParts_parts {d : Disk} (curr : Path) (parts : List Path)
    (hroom : parts.length + ((starts curr).takeWhile fun s => !d.access s).length ≤ 64)
    (hfound : curr.head? = some '/' ∨ ∃ s ∈ starts curr, d.access s = true) :
    ∃ new, (missingParts d curr parts).2 = parts ++ new ∧ (∀ name ∈ new, '/' ∉ name) ∧
      curr = below '/' (missingParts d curr parts).1 new.reverse := by
  fun_induction missingParts d curr parts with
  | case1 curr parts hstop =>
      exact ⟨[], (List.append_nil parts).symm, fun name hname => absurd hname List.not_mem_nil, (below_nil curr).symm⟩
  | case2 curr parts hstop hsplit =>
      -- no slash: the path is relative, and no start of it exists
      exfalso
      rw [starts_single (by simp [hsplit])] at hfound
      rcases hfound with hhead | ⟨s, hs, hexists⟩
      · exact splitLast_of_mem (List.mem_of_mem_head? hhead) hsplit
      · rw [List.mem_singleton.1 hs] at hexists
        exact hstop (.inr hexists)
  | case3 curr parts hstop name hsplit =>
      have haccess : (!d.access curr) = true := by
        simpa using (not_or.1 hstop).2
      rw [starts_single (by simp [hsplit]), List.takeWhile_cons, if_pos haccess, List.length_cons] at hroom
      refine ⟨[name], pushPart_eq (by omega) name, ?_, ?_⟩
      · intro n hn
        rw [List.mem_singleton.1 hn]
        exact splitLast_name hsplit
      · rw [List.reverse_singleton, below_cons, below_nil]
        exact splitLast_eq hsplit
  | case4 curr parts hstop c dir name hsplit ih =>
      have haccess : (!d.access curr) = true := by
        simpa using (not_or.1 hstop).2
      have hcurr := splitLast_eq hsplit
      rw [starts_cons hsplit, List.takeWhile_cons, if_pos haccess, List.length_cons] at hroom
      have hpush := pushPart_eq (show parts.length < 64 by omega) name
      obtain ⟨new, hparts, hslash, hbelow⟩ := ih (by rw [hpush, List.length_append, List.length_singleton]; omega) (by
        rcases hfound with hhead | ⟨s, hs, hexists⟩
        · rw [hcurr] at hhead
          exact .inl hhead
        · rw [starts_cons hsplit] at hs
          rcases List.mem_cons.1 hs with rfl | hs
          · exact absurd (.inr hexists) hstop
          · exact .inr ⟨s, hs, hexists⟩)
      refine ⟨name :: new, ?_, ?_, ?_⟩
      · rw [hparts, hpush, List.append_assoc, List.singleton_append]
      · intro n hn
        rcases List.mem_cons.1 hn with rfl | hn
        · exact splitLast_name hsplit
        · exact hslash n hn
      · rw [List.reverse_cons, below_concat, ← hbelow]
        exact hcurr

/-! ### The walk down -/

theorem Respells.start_prefix {d : Disk} {start p q : Path} (h : Respells d start p q) : start <+: p := by
  induction h with
  | refl hstart => exact hstart
  | root hstart => exact hstart ▸ List.nil_prefix
  | skip _ ih => exact ih.trans (List.prefix_append _ _)
  | name _ _ _ _ ih => exact ih.trans (List.prefix_append _ _)

theorem beneath_length {q part : Path} {n : ℕ} (h : q = ['/'] ∨ q.length ≤ n) :
    (beneath q part).length ≤ n + 1 + part.length := by
  by_cases hroot : q = ['/']
  · rw [beneath, if_pos hroot, hroot, List.append_nil, List.singleton_append, List.length_cons]
    omega
  · have hle := h.resolve_left hroot
    rw [beneath_ne_root hroot, List.length_append, List.length_cons]
    omega

theorem Respells.length_le {d : Disk} {start p q : Path} (h : Respells d start p q) :
    q = ['/'] ∨ q.length ≤ p.length := by
  induction h with
  | refl _ => exact .inr (Nat.le_refl _)
  | root _ => exact .inl rfl
  | skip _ ih =>
      refine ih.imp_right fun hle => ?_
      rw [List.length_append]
      omega
  | name _ _ hcase _ ih =>
      have hlen := strcasecmp_length hcase
      refine .inr (Nat.le_trans (beneath_length ih) ?_)
      rw [List.length_append, List.length_cons]
      omega

theorem respells_resolvePart {d : Disk} {start p q part : Path} (h : Respells d start p q) (hpart : '/' ∉ part)
    (hlen : (p ++ '/' :: part).length < 1024) :
    Respells d start (p ++ '/' :: part) (resolvePart d q part) := by
  have hself : strcasecmp part part = true := decide_eq_true rfl
  rw [List.length_append, List.length_cons] at hlen
  have hjoined : ∀ n : Path, n.length = part.length → joined q n = beneath q n := by
    intro n hn
    have hle : (beneath q n).length ≤ _ := beneath_length h.length_le
    exact joined_eq (by omega)
  unfold resolvePart
  split
  · rename_i hnil
    rw [hnil]
    exact .skip h
  · split
    · rw [hjoined part rfl]
      exact .name h hpart hself (.inl rfl)
    · split
      · rename_i n hfind
        have hcase := List.find?_some hfind
        rw [hjoined n (strcasecmp_length hcase)]
        exact .name h hpart hcase (.inr (List.mem_of_find?_eq_some hfind))
      · rw [hjoined part rfl]
        exact .name h hpart hself (.inl rfl)

/-- **The walk down puts the components back, spelled as existing entries are.** -/
theorem respells_resolveParts {d : Disk} {start p q : Path} (h : Respells d start p q) (parts : List Path)
    (hparts : ∀ part ∈ parts, '/' ∉ part) (hlen : (below '/' p parts).length < 1024) :
    Respells d start (below '/' p parts) (parts.foldl (resolvePart d) q) := by
  induction parts generalizing p q with
  | nil =>
      rw [below_nil]
      exact h
  | cons part parts ih =>
      rw [below_cons] at hlen ⊢
      have hle := (prefix_below (p ++ '/' :: part) parts : _ <+: below '/' _ parts).length_le
      rw [List.foldl_cons]
      apply ih
      · exact respells_resolvePart h (hparts part List.mem_cons_self) (by omega)
      · exact fun part hpart => hparts part (List.mem_cons_of_mem _ hpart)
      · exact hlen

/-! ### Confinement -/

/-- The last component is there as it is, or was put behind what the others are spelled as. -/
theorem Respells.last {d : Disk} {start p c q : Path} (h : Respells d start (p ++ '/' :: c) q) (hne : c ≠ [])
    (hslash : '/' ∉ c) : q = p ++ '/' :: c ∨
      ∃ q' n, Respells d start p q' ∧ q = beneath q' n ∧ strcasecmp n c = true ∧ (n = c ∨ n ∈ d.readdir q') := by
  generalize hall : p ++ '/' :: c = all at h
  cases h with
  | refl _ => exact .inl rfl
  | root _ => exact absurd hall (by simp)
  | skip hq => exact absurd (append_sep_inj hall hslash List.not_mem_nil).2 hne
  | name hq hpart hcase hentry =>
      obtain ⟨rfl, rfl⟩ := append_sep_inj hall hslash hpart
      exact .inr ⟨_, _, hq, rfl, hcase, hentry⟩

theorem Respells.eq_start {d : Disk} {start p q : Path} (h : Respells d start p q) (hp : p = start)
    (hne : start ≠ []) : q = start := by
  cases h with
  | refl _ => exact hp
  | root hnil => exact absurd hnil hne
  | skip hq =>
      have hle := hq.start_prefix.length_le
      rw [← hp, List.length_append, List.length_singleton] at hle
      omega
  | name hq _ _ _ =>
      have hle := hq.start_prefix.length_le
      rw [← hp, List.length_append, List.length_cons] at hle
      omega

theorem eq_of_toLower_eq {c d : Char} (hd : d.toNat < 65) (h : c.toLower = d) : c = d := by
  unfold Char.toLower at h
  split at h
  · -- an upper case letter goes to 97 or above
    rename_i hc
    have hle : 65 ≤ c.val.toNat ∧ c.val.toNat ≤ 90 :=
      ⟨UInt32.le_iff_toNat_le.1 hc.1, UInt32.le_iff_toNat_le.1 hc.2⟩
    have hsum : (c.val + ('a'.val - 'A'.val)).toNat = c.val.toNat + 32 := by
      rw [UInt32.toNat_add]
      exact Nat.mod_eq_of_lt (Nat.lt_of_le_of_lt (Nat.add_le_add_right hle.2 _) (by decide))
    have hcode : (c.val + ('a'.val - 'A'.val)).toNat = d.toNat := congrArg Char.toNat h
    omega
  · exact h

theorem eq_of_map_toLower {c name : Path} (h : c.map Char.toLower = name) (hname : ∀ x ∈ name, x.toNat < 65) :
    c = name := by
  induction c generalizing name with
  | nil => exact h
  | cons x c ih =>
      rw [List.map_cons] at h
      cases h
      exact congrArg₂ List.cons (eq_of_toLower_eq (hname _ List.mem_cons_self) rfl)
        (ih rfl fun y hy => hname y (List.mem_cons_of_mem _ hy))

theorem plain_of_strcasecmp {name c : Path} (h : strcasecmp name c = true) (hc : Plain c) : Plain name := by
  obtain ⟨hne, hslash, hdot, hdots⟩ := hc
  have hmap : name.map Char.toLower = c.map Char.toLower := of_decide_eq_true h
  refine ⟨?_, ?_, ?_, ?_⟩
  · rintro rfl
    exact hne (List.map_eq_nil_iff.1 hmap.symm)
  · intro hmem
    have hlower : '/' ∈ c.map Char.toLower := hmap ▸ List.mem_map_of_mem (f := Char.toLower) hmem
    obtain ⟨x, hx, hxslash⟩ := List.mem_map.1 hlower
    rw [eq_of_toLower_eq (by decide) hxslash] at hx
    exact hslash hx
  · rintro rfl
    exact hdot (eq_of_map_toLower (hmap.symm.trans (by decide)) (by simp))
  · rintro rfl
    exact hdots (eq_of_map_toLower (hmap.symm.trans (by decide)) (by simp))

theorem beneath_below {host q n : Path} {names : List Path} (hnames : ∀ name ∈ names, name ≠ [])
    (h : q = below '/' host names ∨ host = ['/'] ∧ names ≠ [] ∧ q = below '/' [] names) :
    beneath q n = below '/' host (names ++ [n]) ∨
      host = ['/'] ∧ names ++ [n] ≠ [] ∧ beneath q n = below '/' [] (names ++ [n]) := by
  have hcons : names ++ [n] ≠ [] := List.append_ne_nil_of_right_ne_nil names (List.cons_ne_nil n [])
  rcases h with rfl | ⟨hhost, hne, rfl⟩
  · by_cases hroot : below '/' host names = ['/']
    · -- only the root itself has no name
      have hnil : names = [] := by
        by_contra hne
        have hle : host.length + 2 * names.length ≤ (below '/' host names).length := length_below hnames host
        have hpos := List.length_pos_iff.2 hne
        rw [hroot, List.length_singleton] at hle
        omega
      rw [hnil, below_nil] at hroot
      refine .inr ⟨hroot, hcons, ?_⟩
      rw [hnil, below_nil, hroot, beneath, if_pos rfl, List.nil_append, below_cons, below_nil]
      rfl
    · rw [beneath_ne_root hroot, below_concat]
      exact .inl rfl
  · have hroot : below '/' [] names ≠ ['/'] := by
      intro hroot
      have hle : ([] : Path).length + 2 * names.length ≤ (below '/' [] names).length := length_below hnames []
      have hpos := List.length_pos_iff.2 hne
      rw [hroot, List.length_singleton] at hle
      omega
    rw [beneath_ne_root hroot, ← below_concat]
    exact .inr ⟨hhost, hcons, rfl⟩

theorem names_ne_nil {names cs : List Path}
    (h : List.Forall₂ (fun name c => strcasecmp name c = true ∧ Plain name) names cs) :
    ∀ name ∈ names, name ≠ [] := by
  induction h with
  | nil => exact fun name hname => absurd hname List.not_mem_nil
  | cons hhead _ ih =>
      intro name hname
      rcases List.mem_cons.1 hname with rfl | hname
      · exact hhead.2.1
      · exact ih name hname

/-- **A respelling of a path below a base is a path below a respelling of the base.** -/
theorem confined_of_respells {d : Disk} {start base : Path} (hstart : start <+: base) (cs : List Path)
    (hcs : ∀ c ∈ cs, Plain c) {q : Path} (h : Respells d start (below '/' base cs) q) :
    ∃ host, Respells d start base host ∧ Respells d host (below '/' host cs) q ∧ Beneath host cs q := by
  induction cs using List.reverseRecOn generalizing q with
  | nil =>
      rw [below_nil] at h
      refine ⟨q, h, ?_, [], .nil, .inl (below_nil q).symm⟩
      rw [below_nil]
      exact .refl (List.prefix_refl q)
  | append_singleton cs c ih =>
      obtain ⟨hne, hslash, -⟩ := hcs c (List.mem_append_right cs (List.mem_singleton_self c))
      rw [below_concat] at h
      rcases h.last hne hslash with rfl | ⟨q', n, hq', rfl, hcase, hentry⟩
      · refine ⟨base, .refl hstart, ?_, cs ++ [c], ?_, .inl (below_concat base c cs).symm⟩
        · rw [below_concat]
          exact .refl ((prefix_below base cs).trans (List.prefix_append _ _))
        · exact List.forall₂_same.2 fun c hc => ⟨decide_eq_true rfl, hcs c hc⟩
      · obtain ⟨host, hhost, hbelow, names, hnames, hcover⟩ :=
          ih (fun c hc => hcs c (List.mem_append_left [_] hc)) hq'
        have hplain := plain_of_strcasecmp hcase (hcs c (List.mem_append_right cs (List.mem_singleton_self c)))
        refine ⟨host, hhost, ?_, names ++ [n], ?_, ?_⟩
        · rw [below_concat]
          exact .name hbelow hslash hcase hentry
        · exact List.rel_append hnames (.cons ⟨hcase, hplain⟩ .nil)
        · exact beneath_below (names_ne_nil hnames) hcover

theorem walk_respells {d : Disk} {raw start top : Path}
    (hroom : ((starts raw).takeWhile fun s => !d.access s).length ≤ 64)
    (hfound : raw.head? = some '/' ∨ ∃ s ∈ starts raw, d.access s = true) (hlength : raw.length < 1024)
    (htop : Respells d start (missingParts d raw []).1 top) :
    Respells d start raw ((missingParts d raw []).2.reverse.foldl (resolvePart d) top) := by
  obtain ⟨new, hparts, hslash, hall⟩ := missingParts_parts raw [] (by rw [List.length_nil]; omega) hfound
  have hdown := respells_resolveParts htop new.reverse (fun part hpart => hslash part (List.mem_reverse.1 hpart))
    (hall ▸ hlength)
  rw [hparts, List.nil_append]
  rwa [← hall] at hdown

theorem eq_of_ok {p : Prop} [Decidable p] {e : Int} {a b : Path}
    (h : (if p then Except.error e else Except.ok a) = Except.ok b) : a = b := by
  split at h
  · cases h
  · exact Except.ok.inj h

/-- **The lookup of a path below a base within the limits is confined.** -/
theorem caseInsensitiveLookup_confined {d : Disk} {base rest : Path} (hbase : base ≠ [])
    (h : WithinLimits d base rest) {size : ℕ} {resolved : Path}
    (hlookup : caseInsensitiveLookup d (below '/' base (components rest)) size = .ok resolved) :
    Confined d base (components rest) resolved := by
  have hplain : ∀ c ∈ components rest, Plain c := plain_components
  -- a respelling of a base that exists keeps it
  have hconfined : ∀ start, start <+: base → (start = base ∨ d.access base = false ∧ start = []) →
      Respells d start (below '/' base (components rest)) resolved → Confined d base (components rest) resolved := by
    intro start hstart hcase hrespells
    obtain ⟨host, hhost, hbelow, hnames⟩ := confined_of_respells hstart (components rest) hplain hrespells
    refine ⟨host, ?_, hbelow, hnames⟩
    rcases hcase with rfl | ⟨hmissing, rfl⟩
    · exact .inl (hhost.eq_start rfl hbase)
    · exact .inr ⟨hmissing, hhost⟩
  unfold caseInsensitiveLookup at hlookup
  split at hlookup
  · split at hlookup
    · cases hlookup
    · cases hlookup
      exact hconfined base (List.prefix_refl base) (.inl rfl) (.refl (prefix_below base _))
  · rename_i hmissing
    split at hlookup
    · cases hlookup
    · obtain ⟨hroom, hfound⟩ := h.found.resolve_left hmissing
      have hlength := h.length
      have hbelow : Below base (below '/' base (components rest)) :=
        ⟨_, rfl, by cases components rest <;> simp⟩
      have habsolute : base.head? = some '/' → (below '/' base (components rest)).head? = some '/' := by
        intro hhead
        rw [below, List.head?_append, hhead]
        rfl
      generalize below '/' base (components rest) = raw at *
      have hwalk : ∀ {start top}, Respells d start (missingParts d raw []).1 top → Respells d start raw _ :=
        walk_respells hroom (hfound.imp_left habsolute) hlength
      obtain rfl := eq_of_ok hlookup
      cases hexists : d.access base with
      | true =>
          obtain ⟨⟨rest', hcurr, -⟩, -⟩ := missingParts_below hexists hbase raw [] hbelow
          have hprefix : base <+: (missingParts d raw []).1 := hcurr ▸ List.prefix_append base rest'
          have hne : (missingParts d raw []).1 ≠ [] := hcurr ▸ List.append_ne_nil_of_left_ne_nil hbase rest'
          refine hconfined base (List.prefix_refl base) (.inl rfl) (hwalk ?_)
          rw [if_neg hne]
          exact .refl hprefix
      | false =>
          refine hconfined [] List.nil_prefix (.inr ⟨hexists, rfl⟩) (hwalk ?_)
          split
          · rename_i hnil
            rw [hnil]
            exact .root rfl
          · exact .refl List.nil_prefix

/-! ### Runs -/

theorem updateFirst_hostPath {f : VfsMount → VfsMount} {p : Path} {mounts mounts' : List VfsMount}
    (h : updateFirst f p mounts = some mounts') (hf : ∀ m, m.hostPath ≠ [] → (f m).hostPath ≠ [])
    (hslots : ∀ m ∈ mounts, m.hostPath ≠ []) : ∀ m ∈ mounts', m.hostPath ≠ [] := by
  obtain ⟨before, m, after, rfl, rfl, -⟩ := updateFirst_some h
  intro x hx
  rcases List.mem_append.1 hx with hx | hx
  · exact hslots x (List.mem_append_left _ hx)
  · rcases List.mem_cons.1 hx with rfl | hx
    · exact hf m (hslots m (List.mem_append_right _ List.mem_cons_self))
    · exact hslots x (List.mem_append_right _ (List.mem_cons_of_mem m hx))

theorem fit_ne_nil {s : Path} (h : s ≠ []) : fit 1024 s ≠ [] := by
  obtain ⟨c, s, rfl⟩ := List.exists_cons_of_ne_nil h
  exact List.cons_ne_nil _ _

theorem ps4VfsMount_hostPath {mounts : List VfsMount} {p host : Path} (hslots : ∀ m ∈ mounts, m.hostPath ≠ []) :
    ∀ m ∈ (ps4VfsMount mounts p host).2, m.hostPath ≠ [] := by
  unfold ps4VfsMount
  split
  · exact hslots
  · rename_i hempty
    have hhost := fit_ne_nil (not_or.1 hempty).2
    split
    · rename_i hupdate
      exact updateFirst_hostPath hupdate (fun _ _ => hhost) hslots
    · split
      · exact hslots
      · intro m hm
        rcases List.mem_append.1 hm with hm | hm
        · exact hslots m hm
        · rw [List.mem_singleton.1 hm]
          exact hhost

theorem ps4VfsUnmount_hostPath {mounts : List VfsMount} {p : Path} (hslots : ∀ m ∈ mounts, m.hostPath ≠ []) :
    ∀ m ∈ (ps4VfsUnmount mounts p).2, m.hostPath ≠ [] := by
  unfold ps4VfsUnmount
  split
  · rename_i hupdate
    exact updateFirst_hostPath hupdate (fun _ hm => hm) hslots
  · exact hslots

/-- Every slot of a table that was reached has a host path. -/
theorem hostPath_ne_nil {s : MountState} (h : Reachable mountSystem s) : ∀ m ∈ s.mounts, m.hostPath ≠ [] := by
  refine h.invariant (P := fun s => ∀ m ∈ s.mounts, m.hostPath ≠ []) ?_ ?_
  · intro s hs m hm
    rw [show s = {} from hs] at hm
    exact absurd hm List.not_mem_nil
  · intro s call s' _ hslots hs
    have hstep : MountTable.exec s call = some s' := hs
    rw [exec_eq] at hstep
    cases hstep
    cases call with
    | mount p host => exact ps4VfsMount_hostPath hslots
    | unmount p => exact ps4VfsUnmount_hostPath hslots

theorem rootOf_ne_nil {mounts : List VfsMount} (hmounts : ∀ m ∈ mounts, m.hostPath ≠ []) {root path base rest : Path}
    (hroot : root ≠ []) (h : rootOf mounts root path = some (base, rest)) : base ≠ [] := by
  unfold rootOf at h
  split at h
  · rename_i m hfind
    cases h
    exact hmounts m (List.mem_of_find?_eq_some hfind)
  · repeat' split at h
    all_goals cases h
    · exact hroot
    · exact hroot
    · exact List.append_ne_nil_of_left_ne_nil hroot _
    · exact hroot

/-- **Within the limits, a path that is resolved lies below its base by exactly its components.** -/
theorem resolve_confined {s : MountState} (h : Reachable mountSystem s) {root path base rest : Path}
    (hroot : root ≠ []) (hbase : rootOf s.mounts root path = some (base, rest)) (d : Disk)
    (hlimits : WithinLimits d base rest) (size : ℕ) (resolved : Path)
    (hresolve : ps4VfsResolve d s.mounts root path size = .ok resolved) :
    Confined d base (components rest) resolved := by
  have hmounts := hostPath_ne_nil h
  have hne := rootOf_ne_nil hmounts hroot hbase
  unfold ps4VfsResolve at hresolve
  split at hresolve
  · cases hresolve
  · rw [rawHost_eq hmounts hbase, mountedPath_below hne hlimits.toFitsBuffers] at hresolve
    exact caseInsensitiveLookup_confined hne hlimits hresolve

/-- A directory with one entry. -/
def oneEntry : Disk where
  access p := p = "/r".toList
  readdir _ := ["B".toList]

theorem resolve_confined_entry :
    ps4VfsResolve oneEntry [] "/r".toList "/app0/A/../b".toList 1024 = .ok "/r/B".toList ∧
      Confined oneEntry "/r".toList ["b".toList] "/r/B".toList := by
  have hsplit : splitLast "/r/b".toList = some ("/r".toList, "b".toList) := by decide
  have htop : splitLast ['/', 'r'] = some ([], ['r']) := by decide
  have hmissing : missingParts oneEntry "/r/b".toList [] = ("/r".toList, ["b".toList]) := by
    rw [missingParts, if_neg (by decide)]
    split <;> rename_i heq <;> rw [hsplit] at heq <;> cases heq
    rw [missingParts, if_pos (by decide)]
    rfl
  have hresolve : ps4VfsResolve oneEntry [] "/r".toList "/app0/A/../b".toList 1024 = .ok "/r/B".toList := by
    have hraw : rawHost [] "/r".toList "/app0/A/../b".toList = "/r/b".toList := by decide
    rw [ps4VfsResolve, if_neg (by decide), hraw, caseInsensitiveLookup, if_neg (by decide), if_neg (by decide), hmissing]
    decide
  have hstarts : starts "/r/b".toList = ["/r/b".toList, "/r".toList] := by
    have hroot : starts ['/', 'r'] = [['/', 'r']] := starts_single (by rw [htop]; nofun)
    rw [starts_cons hsplit]
    exact congrArg (List.cons _) hroot
  have hlimits : WithinLimits oneEntry "/r".toList "/A/../b".toList := by
    refine ⟨by decide, .inr ⟨?_, .inl (by decide)⟩⟩
    rw [show below '/' "/r".toList (components "/A/../b".toList) = "/r/b".toList by decide, hstarts]
    decide
  exact ⟨hresolve, resolve_confined (.init rfl) (by decide) (by decide) oneEntry hlimits 1024 _ hresolve⟩

def deepPath : Path := "/app0".toList ++ (List.replicate 65 "/a".toList).flatten

/-- **Of 65 components the last one is dropped**: the path of a directory's parent is resolved. -/
theorem resolve_deep : ∃ s, Reachable mountSystem s ∧ ∃ d resolved,
    rootOf s.mounts "/r".toList deepPath = some ("/r".toList, deepPath.drop 5) ∧
      ps4VfsResolve d s.mounts "/r".toList deepPath 1024 = .ok resolved ∧
      ¬Confined d "/r".toList (components (deepPath.drop 5)) resolved := by
  refine ⟨{}, .init rfl, ⟨fun _ => true, fun _ => []⟩, "/r".toList ++ (List.replicate 64 "/a".toList).flatten,
    by decide, by decide +kernel, ?_⟩
  rintro ⟨host, hhost, -, names, hnames, hcover⟩
  obtain rfl := hhost.resolve_right fun h => absurd h.1 (by decide)
  have hcount : names.length = 65 := hnames.length_eq.trans (by decide +kernel)
  rcases hcover with heq | ⟨hroot, -⟩
  · have hle : "/r".toList.length + 2 * names.length ≤ (below '/' "/r".toList names).length :=
      length_below (names_ne_nil hnames) _
    rw [← heq, hcount] at hle
    exact absurd hle (by decide +kernel)
  · exact absurd hroot (by decide)

end PS4Recomp.Runtime.MountTable
