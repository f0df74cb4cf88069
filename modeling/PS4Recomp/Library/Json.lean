import PS4Recomp.Library.Bytes

/-!
# JSON texts

JSON without reals, as RFC 8259 has it: integers have 64 bits, and strings are bytes.

* `Value`, `Items` — trees; `Value.strings`, `Value.map` — their strings and keys, and others in their place;
* `parseString`, `parseInt`, `parseValue`, `parse` — the value of a text, if it is one;
* `Utf8` — strings of whole characters;
* `decimal`, `parseInt_text` — an integer in digits, and read back.
-/

namespace PS4Recomp.Library.Json

/-- The key of an item, which is nothing in an array. -/
inductive Key (S : Type) : (keyed : Bool) → Type where
  | nothing : Key S false
  | name (s : S) : Key S true

mutual

/-- A tree, with a type of strings; a group is an array, or an object if it is keyed. -/
inductive Value (S : Type) : Type where
  | null
  | bool (b : Bool)
  | int (i : BitVec 64)
  | str (s : S)
  | group (keyed : Bool) (items : Items S keyed)

inductive Items (S : Type) : Bool → Type where
  | nil {k : Bool} : Items S k
  | cons {k : Bool} (key : Key S k) (v : Value S) (rest : Items S k) : Items S k

end

section Strings

variable {S : Type}

def Key.strings {k : Bool} : Key S k → List S
  | .nothing => []
  | .name s => [s]

mutual

/-- The strings and keys, in order. -/
def Value.strings : Value S → List S
  | .null | .bool _ | .int _ => []
  | .str s => [s]
  | .group _ items => items.strings

def Items.strings {k : Bool} : Items S k → List S
  | .nil => []
  | .cons key v rest => key.strings ++ (v.strings ++ rest.strings)

end

def Key.map (f : S → Bytes) {k : Bool} : Key S k → Key Bytes k
  | .nothing => .nothing
  | .name s => .name (f s)

mutual

/-- The tree with other strings and keys. -/
def Value.map (f : S → Bytes) : Value S → Value Bytes
  | .null => .null
  | .bool b => .bool b
  | .int i => .int i
  | .str s => .str (f s)
  | .group k items => .group k (items.map f)

def Items.map (f : S → Bytes) {k : Bool} : Items S k → Items Bytes k
  | .nil => .nil
  | .cons key v rest => .cons (key.map f) (v.map f) (rest.map f)

end

end Strings

/-! ### UTF-8 -/

/-- A byte that continues a character. -/
def IsTail (b : BitVec 8) : Prop := 0x80 ≤ b.toNat ∧ b.toNat ≤ 0xbf

/-- The bytes of one character. -/
inductive Utf8Char : Bytes → Prop
  | one {a} : a.toNat < 0x80 → Utf8Char [a]
  | two {a b} : 0xc2 ≤ a.toNat → a.toNat ≤ 0xdf → IsTail b → Utf8Char [a, b]
  | three {a b c} : 0xe0 ≤ a.toNat → a.toNat ≤ 0xef → IsTail b → IsTail c → (a = 0xe0 → 0xa0 ≤ b.toNat) →
      (a = 0xed → b.toNat ≤ 0x9f) → Utf8Char [a, b, c]
  | four {a b c d} : 0xf0 ≤ a.toNat → a.toNat ≤ 0xf4 → IsTail b → IsTail c → IsTail d →
      (a = 0xf0 → 0x90 ≤ b.toNat) → (a = 0xf4 → b.toNat ≤ 0x8f) → Utf8Char [a, b, c, d]

inductive Utf8 : Bytes → Prop
  | nil : Utf8 []
  | cons {c s} : Utf8Char c → Utf8 s → Utf8 (c ++ s)

theorem Utf8Char.ascii_or {s : Bytes} (h : Utf8Char s) :
    (∃ a, s = [a] ∧ a.toNat < 0x80) ∨ ∀ a ∈ s, 0x80 ≤ a.toNat := by
  cases h with
  | one ha => exact .inl ⟨_, rfl, ha⟩
  | two ha _ hb => exact .inr (by simpa using ⟨by omega, hb.1⟩)
  | three ha _ hb hc => exact .inr (by simpa using ⟨by omega, hb.1, hc.1⟩)
  | four ha _ hb hc hd => exact .inr (by simpa using ⟨by omega, hb.1, hc.1, hd.1⟩)

theorem Utf8.append {s t : Bytes} (hs : Utf8 s) (ht : Utf8 t) : Utf8 (s ++ t) := by
  induction hs with
  | nil => exact ht
  | cons hc _ ih =>
      rw [List.append_assoc]
      exact .cons hc ih

theorem Utf8.ascii {s : Bytes} (hs : ∀ c ∈ s, c.toNat < 0x80) : Utf8 s := by
  induction s with
  | nil => exact .nil
  | cons c s ih => exact .cons (c := [c]) (.one (hs c List.mem_cons_self)) (ih fun d hd => hs d (List.mem_cons_of_mem c hd))

/-- The bytes of a code point. -/
def utf8Encode (n : ℕ) : Bytes :=
  if n < 0x80 then [BitVec.ofNat 8 n]
  else if n < 0x800 then [BitVec.ofNat 8 (0xc0 + n / 64), BitVec.ofNat 8 (0x80 + n % 64)]
  else if n < 0x10000 then
    [BitVec.ofNat 8 (0xe0 + n / 4096), BitVec.ofNat 8 (0x80 + n / 64 % 64), BitVec.ofNat 8 (0x80 + n % 64)]
  else
    [BitVec.ofNat 8 (0xf0 + n / 262144), BitVec.ofNat 8 (0x80 + n / 4096 % 64), BitVec.ofNat 8 (0x80 + n / 64 % 64),
      BitVec.ofNat 8 (0x80 + n % 64)]

/-! ### strings -/

def hexDigit (c : BitVec 8) : Option ℕ :=
  if 0x30 ≤ c.toNat ∧ c.toNat ≤ 0x39 then some (c.toNat - 0x30)
  else if 0x41 ≤ c.toNat ∧ c.toNat ≤ 0x46 then some (c.toNat - 0x37)
  else if 0x61 ≤ c.toNat ∧ c.toNat ≤ 0x66 then some (c.toNat - 0x57)
  else none

def hexFour : Bytes → Option (ℕ × Bytes)
  | a :: b :: c :: d :: cs => do
      some (4096 * (← hexDigit a) + 256 * (← hexDigit b) + 16 * (← hexDigit c) + (← hexDigit d), cs)
  | _ => none

/-- What `u` and four digits stand for, or two of these that are a surrogate pair. -/
def parseUnicode (cs : Bytes) : Option (Bytes × Bytes) := do
  let (hi, cs) ← hexFour cs
  if hi < 0xd800 ∨ 0xe000 ≤ hi then some (utf8Encode hi, cs)
  else
    match cs with
    | 0x5c :: 0x75 :: cs => do
        let (lo, cs) ← hexFour cs
        if hi < 0xdc00 ∧ 0xdc00 ≤ lo ∧ lo < 0xe000 then
          some (utf8Encode (0x10000 + 1024 * (hi - 0xd800) + (lo - 0xdc00)), cs)
        else none
    | _ => none

/-- What the characters behind a backslash stand for. -/
def parseEscape : Bytes → Option (Bytes × Bytes)
  | 0x22 :: cs => some ([0x22], cs)
  | 0x5c :: cs => some ([0x5c], cs)
  | 0x2f :: cs => some ([0x2f], cs)
  | 0x62 :: cs => some ([0x08], cs)
  | 0x66 :: cs => some ([0x0c], cs)
  | 0x6e :: cs => some ([0x0a], cs)
  | 0x72 :: cs => some ([0x0d], cs)
  | 0x74 :: cs => some ([0x09], cs)
  | 0x75 :: cs => parseUnicode cs
  | _ => none

/-- A string behind its first quote, with a bound on its characters. -/
def parseString : ℕ → Bytes → Option (Bytes × Bytes)
  | 0, _ => none
  | _ + 1, [] => none
  | n + 1, c :: cs =>
      if c = 0x22 then some ([], cs)
      else if c = 0x5c then do
        let (e, cs) ← parseEscape cs
        let (s, cs) ← parseString n cs
        some (e ++ s, cs)
      else if c.toNat < 0x20 then none
      else do
        let (s, cs) ← parseString n cs
        some (c :: s, cs)

/-! ### integers -/

def isDigit (c : BitVec 8) : Bool := 0x30 ≤ c.toNat ∧ c.toNat ≤ 0x39

/-- A number, which has no zeros before it. -/
def parseNat (cs : Bytes) : Option (ℕ × Bytes) :=
  let ds := cs.takeWhile isDigit
  if ds = [] ∨ ds.head? = some 0x30 ∧ ds.length ≠ 1 then none
  else some (ds.foldl (fun n d => 10 * n + (d.toNat - 0x30)) 0, cs.dropWhile isDigit)

/-- An integer; a fraction or an exponent makes it a real. -/
def parseInt (cs : Bytes) : Option (BitVec 64 × Bytes) := do
  let (n, rest) ← parseNat (if cs.head? = some 0x2d then cs.tail else cs)
  if rest.head? ∈ [some 0x2e, some 0x45, some 0x65] then none
  else if cs.head? = some 0x2d then if n ≤ 2 ^ 63 then some (BitVec.ofInt 64 (-n), rest) else none
  else if n < 2 ^ 63 then some (BitVec.ofInt 64 n, rest) else none

/-- A number in digits. -/
def decimal (n : ℕ) : Bytes :=
  if n = 0 then [0x30] else (Nat.digits 10 n).reverse.map fun d => BitVec.ofNat 8 (0x30 + d)

/-- An integer in digits. -/
def intText (i : BitVec 64) : Bytes := if i.toInt < 0 then 0x2d :: decimal i.toInt.natAbs else decimal i.toInt.natAbs

/-! ### values -/

def skipWs (cs : Bytes) : Bytes := cs.dropWhile fun c => c = 0x20 ∨ c = 0x09 ∨ c = 0x0a ∨ c = 0x0d

/-- `null`, `true`, `false`, or an integer. -/
def parseAtom (cs : Bytes) : Option (Value Bytes × Bytes) :=
  if cs.take 4 = [0x6e, 0x75, 0x6c, 0x6c] then some (.null, cs.drop 4)
  else if cs.take 4 = [0x74, 0x72, 0x75, 0x65] then some (.bool true, cs.drop 4)
  else if cs.take 5 = [0x66, 0x61, 0x6c, 0x73, 0x65] then some (.bool false, cs.drop 5)
  else (parseInt cs).map fun x => (.int x.1, x.2)

/-- The key of an item, and its colon. -/
def parseKey : (k : Bool) → Bytes → Option (Key Bytes k × Bytes)
  | false, cs => some (.nothing, cs)
  | true, cs => do
      if (skipWs cs).head? ≠ some 0x22 then none
      else
        let (key, cs) ← parseString (skipWs cs).length (skipWs cs).tail
        if (skipWs cs).head? ≠ some 0x3a then none else some (.name key, (skipWs cs).tail)

/-- What ends a group. -/
def closing (k : Bool) : BitVec 8 := if k then 0x7d else 0x5d

mutual

/-- A value, with a bound on the depth of the recursion. -/
def parseValue : ℕ → Bytes → Option (Value Bytes × Bytes)
  | 0, _ => none
  | n + 1, cs =>
      match skipWs cs with
      | [] => none
      | c :: cs =>
          if c = 0x22 then (parseString cs.length cs).map fun x => (.str x.1, x.2)
          else if c = 0x5b ∨ c = 0x7b then
            let k := c == 0x7b
            if (skipWs cs).head? = some (closing k) then some (.group k .nil, (skipWs cs).tail)
            else (parseItems k n cs).map fun x => (.group k x.1, x.2)
          else parseAtom (c :: cs)

/-- The items of a group, and what ends it. -/
def parseItems (k : Bool) : ℕ → Bytes → Option (Items Bytes k × Bytes)
  | 0, _ => none
  | n + 1, cs => do
      let (key, cs) ← parseKey k cs
      let (v, cs) ← parseValue n cs
      if (skipWs cs).head? = some 0x2c then
        (parseItems k n (skipWs cs).tail).map fun x => (.cons key v x.1, x.2)
      else if (skipWs cs).head? = some (closing k) then some (.cons key v .nil, (skipWs cs).tail)
      else none

end

/-- The value of a text. -/
def parse (text : Bytes) : Option (Value Bytes) := do
  let (v, rest) ← parseValue (2 * text.length) text
  if skipWs rest = [] then some v else none

theorem skipWs_cons {c : BitVec 8} (cs : Bytes) (hc : 0x20 < c.toNat) : skipWs (c :: cs) = c :: cs := by
  refine List.dropWhile_cons_of_neg ?_
  rw [decide_eq_true_eq]
  rintro (rfl | rfl | rfl | rfl) <;> exact absurd hc (by decide)

theorem parseValue_quote (n : ℕ) (cs : Bytes) :
    parseValue (n + 1) (0x22 :: cs) = (parseString cs.length cs).map fun x => (.str x.1, x.2) := by
  rw [parseValue, skipWs_cons cs (by decide)]
  rfl

theorem parseValue_group (k : Bool) {n : ℕ} {cs : Bytes} (h : (skipWs cs).head? ≠ some (closing k)) :
    parseValue (n + 1) ((if k then 0x7b else 0x5b) :: cs) = (parseItems k n cs).map fun x => (.group k x.1, x.2) := by
  cases k
  all_goals
    rw [parseValue, skipWs_cons cs (by decide)]
    exact if_neg h

/-! ### an integer is read back -/

theorem isDigit_digit {d : ℕ} (hd : d < 10) : isDigit (BitVec.ofNat 8 (0x30 + d)) = true := by
  interval_cases d <;> rfl

theorem decimal_digits (n : ℕ) : ∀ c ∈ decimal n, isDigit c = true := by
  intro c hc
  rw [decimal] at hc
  split at hc
  · obtain rfl := List.mem_singleton.1 hc
    rfl
  · obtain ⟨d, hd, rfl⟩ := List.mem_map.1 hc
    exact isDigit_digit (Nat.digits_lt_base (by decide) (List.mem_reverse.1 hd))

theorem takeWhile_digits {ds rest : Bytes} (hds : ∀ c ∈ ds, isDigit c = true)
    (hrest : ∀ c ∈ rest.head?, isDigit c = false) :
    (ds ++ rest).takeWhile isDigit = ds ∧ (ds ++ rest).dropWhile isDigit = rest := by
  rw [List.takeWhile_append_of_pos hds, List.dropWhile_append_of_pos hds]
  cases rest with
  | nil => exact ⟨List.append_nil ds, rfl⟩
  | cons c cs =>
      have hc : isDigit c = false := hrest c rfl
      rw [List.takeWhile_cons_of_neg (by simp [hc]), List.dropWhile_cons_of_neg (by simp [hc]), List.append_nil]
      exact ⟨rfl, rfl⟩

theorem foldl_digits (l : List ℕ) (hl : ∀ d ∈ l, d < 10) (init : ℕ) :
    (l.map fun d => BitVec.ofNat 8 (0x30 + d)).foldl (fun n d => 10 * n + (d.toNat - 0x30)) init =
      l.foldl (fun n d => 10 * n + d) init := by
  rw [List.foldl_map]
  induction l generalizing init with
  | nil => rfl
  | cons d l ih =>
      have hd : (BitVec.ofNat 8 (0x30 + d)).toNat - 0x30 = d := by
        have := hl d List.mem_cons_self
        rw [BitVec.toNat_ofNat]
        omega
      rw [List.foldl_cons, List.foldl_cons, hd]
      exact ih (fun e he => hl e (List.mem_cons_of_mem d he)) _

theorem parseNat_decimal (n : ℕ) {rest : Bytes} (hrest : ∀ c ∈ rest.head?, isDigit c = false) :
    parseNat (decimal n ++ rest) = some (n, rest) := by
  obtain ⟨htake, hdrop⟩ := takeWhile_digits (decimal_digits n) hrest
  rw [parseNat, htake, hdrop, decimal]
  by_cases hn : n = 0
  · rw [if_pos hn, hn]
    rfl
  · have hlt : ∀ d ∈ (Nat.digits 10 n).reverse, d < 10 := fun d hd =>
      Nat.digits_lt_base (by decide) (List.mem_reverse.1 hd)
    have hvalue : (Nat.digits 10 n).reverse.foldl (fun n d => 10 * n + d) 0 = n := by
      rw [List.foldl_reverse]
      conv_rhs => rw [← Nat.ofDigits_digits 10 n, Nat.ofDigits_eq_foldr]
      congr 1
      funext d n
      rw [Nat.cast_id, add_comm]
    simp only [if_neg hn]
    rw [if_neg, foldl_digits _ hlt, hvalue]
    rw [not_or, not_and]
    refine ⟨by simpa using Nat.digits_ne_nil_iff_ne_zero.2 hn, fun hhead _ => ?_⟩
    obtain ⟨d, hd, hzero⟩ := Option.map_eq_some_iff.1 ((List.head?_map ..).symm.trans hhead)
    rw [List.head?_reverse] at hd
    have hlast := Nat.getLast_digit_ne_zero 10 hn
    rw [List.getLast?_eq_some_getLast (Nat.digits_ne_nil_iff_ne_zero.2 hn), Option.some.injEq] at hd
    have := hlt d (by rw [← hd]; simp)
    have hz := congrArg BitVec.toNat hzero
    rw [BitVec.toNat_ofNat] at hz
    exact hlast (by rw [hd]; simp at hz; omega)

theorem decimal_ne_nil (n : ℕ) : decimal n ≠ [] := by
  rw [decimal]
  split
  · exact List.cons_ne_nil _ _
  · rename_i hn
    simpa only [ne_eq, List.map_eq_nil_iff, List.reverse_eq_nil_iff] using Nat.digits_ne_nil_iff_ne_zero.2 hn

theorem intText_ne_nil (i : BitVec 64) : intText i ≠ [] := by
  rw [intText]
  split
  · exact List.cons_ne_nil _ _
  · exact decimal_ne_nil _

theorem intText_chars (i : BitVec 64) : ∀ c ∈ intText i, c = 0x2d ∨ isDigit c = true := by
  intro c hc
  rw [intText] at hc
  split at hc
  · exact (List.mem_cons.1 hc).imp_right (decimal_digits _ c)
  · exact .inr (decimal_digits _ c hc)

theorem parseInt_text (i : BitVec 64) {rest : Bytes}
    (hrest : ∀ c ∈ rest.head?, isDigit c = false ∧ c ≠ 0x2e ∧ c ≠ 0x45 ∧ c ≠ 0x65) :
    parseInt (intText i ++ rest) = some (i, rest) := by
  have hnat := parseNat_decimal i.toInt.natAbs fun c hc => (hrest c hc).1
  have hreal : rest.head? ∉ [some 0x2e, some 0x45, some (0x65 : BitVec 8)] := by
    cases hhead : rest.head? with
    | none => simp
    | some c =>
        obtain ⟨-, hdot, hupper, hlower⟩ := hrest c hhead
        simp only [List.mem_cons, Option.some.injEq, List.not_mem_nil, or_false]
        exact not_or_intro hdot (not_or_intro hupper hlower)
  have hlo := BitVec.le_toInt i
  have hhi := BitVec.toInt_lt (x := i)
  rw [parseInt, intText]
  by_cases hneg : i.toInt < 0
  · simp only [if_pos hneg, List.cons_append, List.head?_cons, List.tail_cons, hnat, if_true, Option.bind_eq_bind,
      Option.bind_some, if_neg hreal]
    rw [if_pos (by omega), show -((i.toInt.natAbs : ℕ) : ℤ) = i.toInt by omega, BitVec.ofInt_toInt]
  · have hhead : (decimal i.toInt.natAbs ++ rest).head? ≠ some 0x2d := by
      rw [List.head?_append_of_ne_nil _ (decimal_ne_nil _)]
      intro hc
      cases decimal_digits _ _ (List.mem_of_mem_head? hc)
    simp only [if_neg hneg, if_neg hhead, hnat, Option.bind_eq_bind, Option.bind_some, if_neg hreal]
    rw [if_pos (by omega), show ((i.toInt.natAbs : ℕ) : ℤ) = i.toInt by omega, BitVec.ofInt_toInt]

end PS4Recomp.Library.Json
