import PS4Recomp.Library.Json

/-!
# JSON in the runtime

`ps4_json2.c`: a value is serialized into a growing buffer, which becomes a string of the guest.

* `CString` — bytes before a NUL; `DynamicBuffer`, `bufAppendStr` — the buffer, which has room for its NUL;
* `serializeJsonRec`, `serialize` — the strings that a value appends, and the string the guest gets;
* `text`, `buf_foldl` — what is appended; `utf8_text` — it is UTF-8 if the strings are;
* `parse_text` — what is read back from a text;
* **`serialize_valid_iff`** — the string is a text of the value exactly when no string has a control character
  other than tab, line feed and carriage return.

Allocations succeed.
-/

namespace PS4Recomp.Runtime.Json

open Library Library.Json

/-- A C string: its bytes before the NUL. -/
structure CString where
  bytes : Bytes
  noNul : 0 ∉ bytes

def CString.append (s t : CString) : CString :=
  ⟨s.bytes ++ t.bytes, fun h => (List.mem_append.1 h).elim s.noNul t.noNul⟩

/-- The characters up to a NUL. -/
def cStr (s : Bytes) : CString := ⟨s.takeWhile (· ≠ 0), fun h => by simpa using List.mem_takeWhile_imp h⟩

/-- `DynamicBuffer`; `len` is the number of bytes. -/
structure DynamicBuffer where
  buf : CString
  cap : ℕ
  room : buf.bytes.length < cap ∨ buf.bytes.length = 0 ∧ cap = 0

/-- `buf_append_str`. -/
def bufAppendStr (db : DynamicBuffer) (s : CString) : DynamicBuffer where
  buf := db.buf.append s
  cap :=
    if db.cap < db.buf.bytes.length + s.bytes.length + 1 then
      (if db.cap ≠ 0 then db.cap * 2 else 128) + s.bytes.length
    else db.cap
  room := by
    have hroom := db.room
    rw [CString.append, List.length_append]
    split_ifs <;> omega

/-- What `buf_append_escaped_str` appends for a character. -/
def escape (c : BitVec 8) : Bytes :=
  if c = 0x22 then [0x5c, 0x22]
  else if c = 0x5c then [0x5c, 0x5c]
  else if c = 0x0a then [0x5c, 0x6e]
  else if c = 0x0d then [0x5c, 0x72]
  else if c = 0x09 then [0x5c, 0x74]
  else [c]

/-- `buf_append_escaped_str`: the strings it appends. -/
def bufAppendEscapedStr (s : CString) : List CString :=
  cStr [0x22] :: (s.bytes.map (fun c => cStr (escape c)) ++ [cStr [0x22]])

/-- The key of a member, and its colon. -/
def keyPieces {k : Bool} : Key CString k → List CString
  | .nothing => []
  | .name key => bufAppendEscapedStr key ++ [cStr [0x3a]]

mutual

/-- `serialize_json_rec`: the strings it appends. -/
def serializeJsonRec : Value CString → List CString
  | .null => [cStr [0x6e, 0x75, 0x6c, 0x6c]]
  | .bool true => [cStr [0x74, 0x72, 0x75, 0x65]]
  | .bool false => [cStr [0x66, 0x61, 0x6c, 0x73, 0x65]]
  | .int i => [cStr (intText i)]
  | .str s => bufAppendEscapedStr s
  | .group false items => cStr [0x5b] :: (serializeItems items false ++ [cStr [0x5d]])
  | .group true members => cStr [0x7b] :: (serializeItems members false ++ [cStr [0x7d]])

/-- The loops over items and members; `later` is `i > 0` or `idx > 0`. -/
def serializeItems {k : Bool} : Items CString k → (later : Bool) → List CString
  | .nil, _ => []
  | .cons key v rest, later =>
      (if later then [cStr [0x2c]] else []) ++ (keyPieces key ++ (serializeJsonRec v ++ serializeItems rest true))

end

/-- `SceJsonString`, with the bytes it points to. -/
structure SceJsonString where
  data : Bytes
  len : ℕ

/-- `Value::serialize`; `alloc_guest_string` copies the bytes of the buffer with their NUL, and measures them. -/
def serialize (v : Value CString) : SceJsonString :=
  let db := (serializeJsonRec v).foldl bufAppendStr ⟨cStr [], 0, .inr ⟨rfl, rfl⟩⟩
  ⟨db.buf.bytes ++ [0], (cStr (db.buf.bytes ++ [0])).bytes.length⟩

/-! ### the text -/

/-- Strings one after another. -/
def join (l : List CString) : Bytes := l.flatMap CString.bytes

theorem join_append (l l' : List CString) : join (l ++ l') = join l ++ join l' := List.flatMap_append

theorem join_cons (s : CString) (l : List CString) : join (s :: l) = s.bytes ++ join l := rfl

/-- The text of a value. -/
def text (v : Value CString) : Bytes := join (serializeJsonRec v)

/-- A string in quotes. -/
def quoted (s : CString) : Bytes := 0x22 :: (s.bytes.flatMap escape ++ [0x22])

theorem bytes_cStr {s : Bytes} (h : 0 ∉ s) : (cStr s).bytes = s :=
  List.takeWhile_eq_self_iff.2 fun _ hc => decide_eq_true fun hzero => h (hzero ▸ hc)

theorem buf_foldl (l : List CString) (db : DynamicBuffer) :
    (l.foldl bufAppendStr db).buf.bytes = db.buf.bytes ++ join l := by
  induction l generalizing db with
  | nil => exact (List.append_nil _).symm
  | cons s l ih =>
      rw [List.foldl_cons, ih, join_cons, ← List.append_assoc]
      rfl

theorem join_escaped (s : CString) : join (bufAppendEscapedStr s) = quoted s := by
  have hmap : ∀ l : Bytes, 0 ∉ l → join (l.map fun c => cStr (escape c)) = l.flatMap escape := by
    intro l hl
    induction l with
    | nil => rfl
    | cons c l ih =>
        have hc : 0 ∉ escape c := by
          unfold escape
          split_ifs
          all_goals first | decide | exact fun h => hl (List.mem_singleton.1 h ▸ List.mem_cons_self)
        rw [List.map_cons, join_cons, ih fun h => hl (List.mem_cons_of_mem c h), List.flatMap_cons, bytes_cStr hc]
  rw [bufAppendEscapedStr, join_cons, join_append, hmap _ s.noNul]
  rfl

theorem text_int (i : BitVec 64) : text (.int i) = intText i := by
  have hnul : 0 ∉ intText i := fun h => by simpa [isDigit] using intText_chars i 0 h
  rw [text, serializeJsonRec, join_cons, bytes_cStr hnul]
  exact List.append_nil _

theorem text_group (k : Bool) (l : Items CString k) :
    text (.group k l) = (if k then 0x7b else 0x5b) :: (join (serializeItems l false) ++ [closing k]) := by
  cases k
  all_goals
    rw [text, serializeJsonRec, join_cons, join_append]
    rfl

theorem join_items {k : Bool} (key : Key CString k) (v : Value CString) (l : Items CString k) (later : Bool) :
    join (serializeItems (.cons key v l) later) =
      (if later then [0x2c] else []) ++ (join (keyPieces key) ++ (text v ++ join (serializeItems l true))) := by
  rw [serializeItems, join_append, join_append, join_append]
  cases later <;> rfl

theorem later_item {k : Bool} (key : Key CString k) (v : Value CString) (l : Items CString k) :
    join (serializeItems (.cons key v l) true) = 0x2c :: join (serializeItems (.cons key v l) false) := by
  rw [join_items, join_items]
  rfl

theorem join_key (s : CString) : join (keyPieces (.name s)) = quoted s ++ [0x3a] := by
  rw [keyPieces, join_append, join_escaped]
  rfl

/-! ### UTF-8 -/

theorem utf8_escape {c : BitVec 8} (hc : c.toNat < 0x80) : Utf8 (escape c) := by
  refine .ascii fun b hb => ?_
  unfold escape at hb
  split_ifs at hb
  all_goals simp only [List.mem_cons, List.not_mem_nil, or_false] at hb
  all_goals first | (rw [hb]; exact hc) | (rcases hb with rfl | rfl <;> decide)

theorem utf8_quoted {s : CString} (h : Utf8 s.bytes) : Utf8 (quoted s) := by
  have hhigh : ∀ a : BitVec 8, 0x80 ≤ a.toNat → escape a = [a] := by
    intro a ha
    unfold escape
    split_ifs
    all_goals first | rfl | (subst a; exact absurd ha (by decide))
  have hescape : ∀ l : Bytes, Utf8 l → Utf8 (l.flatMap escape) := by
    intro l hl
    induction hl with
    | nil => exact .nil
    | @cons c s hc _ ih =>
        rw [List.flatMap_append]
        refine .append ?_ ih
        rcases hc.ascii_or with ⟨a, rfl, ha⟩ | hall
        · rw [List.flatMap_singleton]
          exact utf8_escape ha
        · have hsame : c.flatMap escape = c := by
            rw [List.flatMap_congr fun a ha => hhigh a (hall a ha), List.flatMap_singleton']
          rw [hsame, ← List.append_nil c]
          exact .cons hc .nil
  exact .cons (c := [0x22]) (.one (by decide)) ((hescape _ h).append (.ascii (by decide)))

mutual

theorem utf8_text : ∀ v : Value CString, (∀ s ∈ v.strings, Utf8 s.bytes) → Utf8 (text v)
  | .null, _ | .bool true, _ | .bool false, _ => .ascii (by decide)
  | .int i, _ => by
      rw [text_int]
      refine .ascii fun c hc => ?_
      rcases intText_chars i c hc with rfl | hdigit
      · decide
      · simp only [isDigit, decide_eq_true_eq] at hdigit
        omega
  | .str s, h => by
      rw [text, serializeJsonRec, join_escaped]
      exact utf8_quoted (h s List.mem_cons_self)
  | .group k l, h => by
      rw [text_group]
      exact .append (s := [_]) (.ascii (by cases k <;> decide))
        ((utf8_items l false h).append (.ascii (by cases k <;> decide)))

theorem utf8_items {k : Bool} : ∀ (l : Items CString k) (later : Bool), (∀ s ∈ l.strings, Utf8 s.bytes) →
    Utf8 (join (serializeItems l later))
  | .nil, _, _ => .nil
  | .cons key v l, later, h => by
      obtain ⟨hkey, hrest⟩ := List.forall_mem_append.1 h
      obtain ⟨hv, hl⟩ := List.forall_mem_append.1 hrest
      have hpieces : Utf8 (join (keyPieces key)) := by
        cases key with
        | nothing => exact .nil
        | name s =>
            rw [join_key]
            exact (utf8_quoted (hkey s List.mem_cons_self)).append (.ascii (by decide))
      rw [join_items]
      exact .append (.ascii (by cases later <;> decide)) (hpieces.append ((utf8_text v hv).append (utf8_items l true hl)))

end

/-! ### what is read back -/

/-- A character that the text may have, or that is escaped. -/
def printable (c : BitVec 8) : Bool := 0x20 ≤ c.toNat ∨ c = 0x0a ∨ c = 0x0d ∨ c = 0x09

def clean (s : CString) : Bool := s.bytes.all printable

/-- An integer ends before this text. -/
def Follows (rest : Bytes) : Prop := ∀ c ∈ rest.head?, isDigit c = false ∧ c ≠ 0x2e ∧ c ≠ 0x45 ∧ c ≠ 0x65

theorem parseString_escape (c : BitVec 8) (n : ℕ) (cs : Bytes) : parseString (n + 1) (escape c ++ cs) =
    if printable c then (parseString n cs).map fun x => (c :: x.1, x.2) else none := by
  have hbind : (parseString n cs).bind (fun x => some (c :: x.1, x.2)) =
      (parseString n cs).map fun x => (c :: x.1, x.2) := by
    cases parseString n cs <;> rfl
  by_cases hspecial : c = 0x22 ∨ c = 0x5c ∨ c = 0x0a ∨ c = 0x0d ∨ c = 0x09
  · rcases hspecial with rfl | rfl | rfl | rfl | rfl
    all_goals exact hbind
  · simp only [not_or] at hspecial
    obtain ⟨h₁, h₂, h₃, h₄, h₅⟩ := hspecial
    rw [escape, if_neg h₁, if_neg h₂, if_neg h₃, if_neg h₄, if_neg h₅]
    show (if c = 0x22 then _ else if c = 0x5c then _ else if c.toNat < 0x20 then _ else _) = _
    rw [if_neg h₁, if_neg h₂]
    by_cases hlo : c.toNat < 0x20
    · rw [if_pos hlo, if_neg]
      rw [printable, decide_eq_true_eq, or_iff_left (not_or_intro h₃ (not_or_intro h₄ h₅))]
      omega
    · have hp : printable c = true := decide_eq_true (.inl (Nat.le_of_not_lt hlo))
      rw [if_neg hlo, hp]
      exact hbind

/-- A string is read back if it is clean, and is refused if it is not. -/
theorem parseString_quoted (s : CString) {n : ℕ} (rest : Bytes) (hn : s.bytes.length < n) :
    parseString n (s.bytes.flatMap escape ++ 0x22 :: rest) = if clean s then some (s.bytes, rest) else none := by
  rw [clean]
  generalize s.bytes = l at hn
  induction l generalizing n with
  | nil =>
      cases n with
      | zero => cases hn
      | succ n => rfl
  | cons c l ih =>
      cases n with
      | zero => cases hn
      | succ n =>
          rw [List.flatMap_cons, List.append_assoc, parseString_escape, ih (Nat.lt_of_succ_lt_succ hn), List.all_cons]
          cases printable c
          · rfl
          · cases l.all printable <;> rfl

/-- A text begins with a character that is neither white space nor a bracket. -/
theorem text_head (v : Value CString) : ∃ c cs, text v = c :: cs ∧ 0x20 < c.toNat ∧ c ≠ 0x5d := by
  cases v with
  | int i =>
      obtain ⟨c, cs, hcs⟩ := List.exists_cons_of_ne_nil (intText_ne_nil i)
      refine ⟨c, cs, (text_int i).trans hcs, ?_⟩
      rcases intText_chars i c (by rw [hcs]; exact List.mem_cons_self) with rfl | hdigit
      · decide
      · simp only [isDigit, decide_eq_true_eq] at hdigit
        exact ⟨by omega, by rintro rfl; exact absurd hdigit (by decide)⟩
  | bool b => cases b <;> exact ⟨_, _, rfl, by decide, by decide⟩
  | group k l =>
      rw [text_group]
      exact ⟨_, _, rfl, by cases k <;> decide, by cases k <;> decide⟩
  | _ => exact ⟨_, _, rfl, by decide, by decide⟩

theorem parse_int (i : BitVec 64) (n : ℕ) {rest : Bytes} (hrest : Follows rest) :
    parseValue (n + 1) (intText i ++ rest) = some (.int i, rest) := by
  have hint := parseInt_text i hrest
  obtain ⟨c, cs, hcs⟩ := List.exists_cons_of_ne_nil (intText_ne_nil i)
  have hc := intText_chars i c (by rw [hcs]; exact List.mem_cons_self)
  rw [hcs, List.cons_append] at hint ⊢
  have hlo : 0x2d ≤ c.toNat ∧ c.toNat ≤ 0x39 := by
    rcases hc with rfl | hdigit
    · decide
    · simp only [isDigit, decide_eq_true_eq] at hdigit
      omega
  have hne : ∀ d : BitVec 8, 0x39 < d.toNat ∨ d.toNat < 0x2d → c ≠ d := by
    rintro d hd rfl
    omega
  have hword : ∀ (k : ℕ) (w : Bytes), (∃ d ∈ w.head?, 0x39 < d.toNat) → (c :: (cs ++ rest)).take k ≠ w := by
    rintro k w ⟨d, hd, hlt⟩ rfl
    cases k with
    | zero => cases hd
    | succ k =>
        cases hd
        omega
  rw [parseValue, skipWs_cons _ (by omega)]
  show (if c = 0x22 then _ else if c = 0x5b ∨ c = 0x7b then _ else parseAtom (c :: (cs ++ rest))) = _
  rw [if_neg (hne _ (by decide)), if_neg (not_or_intro (hne _ (by decide)) (hne _ (by decide))), parseAtom,
    if_neg (hword 4 _ (by decide)), if_neg (hword 4 _ (by decide)), if_neg (hword 5 _ (by decide)), hint]
  rfl

theorem length_lt_escaped (s : CString) (rest : Bytes) : s.bytes.length < (s.bytes.flatMap escape ++ 0x22 :: rest).length := by
  have hle : ∀ l : Bytes, l.length ≤ (l.flatMap escape).length := by
    intro l
    induction l with
    | nil => exact Nat.le_refl 0
    | cons c l ih =>
        have hc : 1 ≤ (escape c).length := by
          unfold escape
          split_ifs <;> simp
        rw [List.flatMap_cons, List.length_append, List.length_cons]
        omega
  have := hle s.bytes
  rw [List.length_append, List.length_cons]
  omega

/-- A key is read back if it is clean, and is refused if it is not. -/
theorem parseKey_pieces {k : Bool} (key : Key CString k) (cs : Bytes) : parseKey k (join (keyPieces key) ++ cs) =
    if key.strings.all clean then some (key.map CString.bytes, cs) else none := by
  cases key with
  | nothing => rfl
  | name key =>
      have hstring := @parseString_quoted key ((key.bytes.flatMap escape ++ 0x22 :: 0x3a :: cs).length + 1) (0x3a :: cs)
        (Nat.lt_succ_of_lt (length_lt_escaped key _))
      have htext : join (keyPieces (.name key)) ++ cs = 0x22 :: (key.bytes.flatMap escape ++ 0x22 :: 0x3a :: cs) := by
        rw [join_key, quoted, List.append_assoc, List.cons_append, List.append_assoc]
        rfl
      rw [htext, parseKey, skipWs_cons _ (by decide), List.length_cons]
      generalize key.bytes.flatMap escape ++ 0x22 :: 0x3a :: cs = l at hstring
      show (parseString (l.length + 1) l).bind _ =
        if (clean key && true) then some (Key.name key.bytes, cs) else none
      rw [hstring, Bool.and_true]
      cases clean key with
      | false => rfl
      | true =>
          simp only [reduceIte, Option.bind_some, skipWs_cons cs (c := 0x3a) (by decide)]
          rfl

theorem items_head {k : Bool} (key : Key CString k) (v : Value CString) (l : Items CString k) :
    ∃ c cs, join (serializeItems (.cons key v l) false) = c :: cs ∧ 0x20 < c.toNat ∧ c ≠ closing k := by
  rw [join_items]
  cases key with
  | nothing =>
      obtain ⟨c, cs, hcs, hws, hne⟩ := text_head v
      rw [hcs]
      exact ⟨c, _, rfl, hws, hne⟩
  | name s =>
      rw [join_key]
      exact ⟨0x22, _, rfl, by decide, by decide⟩

theorem follows_of {c : BitVec 8} (rest : Bytes) (hc : c = 0x2c ∨ c = 0x5d ∨ c = 0x7d) : Follows (c :: rest) := by
  rintro d hd
  cases hd
  rcases hc with rfl | rfl | rfl <;> decide

mutual

/-- A value is read back from its text if its strings are clean, and is refused if not. -/
theorem parse_text : ∀ (v : Value CString) (n : ℕ) (rest : Bytes), (text v).length ≤ n → Follows rest →
    parseValue n (text v ++ rest) = if v.strings.all clean then some (v.map CString.bytes, rest) else none
  | v, 0, _, hn, _ => by
      obtain ⟨c, cs, hcs, -⟩ := text_head v
      rw [hcs] at hn
      cases hn
  | .null, n + 1, rest, _, _ | .bool true, n + 1, rest, _, _ | .bool false, n + 1, rest, _, _ => rfl
  | .int i, n + 1, rest, _, hrest => by
      rw [text_int]
      exact parse_int i n hrest
  | .str s, n + 1, rest, _, _ => by
      have hstring := parseString_quoted s (n := (s.bytes.flatMap escape ++ 0x22 :: rest).length) rest
        (length_lt_escaped s rest)
      have htext : text (.str s) ++ rest = 0x22 :: (s.bytes.flatMap escape ++ 0x22 :: rest) := by
        rw [text, serializeJsonRec, join_escaped, quoted, List.cons_append, List.append_assoc]
        rfl
      rw [htext, parseValue_quote, hstring, Value.strings, List.all_cons, List.all_nil, Bool.and_true]
      cases clean s <;> rfl
  | .group false .nil, n + 1, rest, _, _ | .group true .nil, n + 1, rest, _, _ => rfl
  | .group k (.cons key v l), n + 1, rest, hn, _ => by
      rw [text_group] at hn ⊢
      have hitems := parse_items key v l n rest (by simpa using hn)
      have hhead : (skipWs (join (serializeItems (.cons key v l) false) ++ closing k :: rest)).head? ≠
          some (closing k) := by
        obtain ⟨c, cs, hcs, hws, hne⟩ := items_head key v l
        rw [hcs, List.cons_append, skipWs_cons _ hws]
        exact fun h => hne (Option.some.inj h)
      rw [List.cons_append, List.append_assoc]
      refine (parseValue_group k hhead).trans ?_
      rw [hitems, Value.strings]
      cases (Items.cons key v l).strings.all clean <;> rfl

theorem parse_items {k : Bool} : ∀ (key : Key CString k) (v : Value CString) (l : Items CString k) (n : ℕ)
    (rest : Bytes), (join (serializeItems (.cons key v l) false)).length < n →
      parseItems k n (join (serializeItems (.cons key v l) false) ++ closing k :: rest) =
        if (Items.cons key v l).strings.all clean then some ((Items.cons key v l).map CString.bytes, rest) else none
  | _, _, _, 0, _, hn => absurd hn (Nat.not_lt_zero _)
  | key, v, .nil, n + 1, rest, hn => by
      rw [join_items] at hn ⊢
      have hlen : (join (keyPieces key)).length + (text v).length < n + 1 := by
        simpa [serializeItems, join] using hn
      have hv := parse_text v n (closing k :: rest) (by omega) (follows_of rest (by cases k <;> simp [closing]))
      show parseItems k (n + 1) (join (keyPieces key) ++ (text v ++ []) ++ closing k :: rest) = _
      rw [List.append_nil, List.append_assoc, parseItems, parseKey_pieces, Items.strings, Items.strings,
        List.append_nil, List.all_append]
      cases key.strings.all clean with
      | false => rfl
      | true =>
          show (parseValue n _).bind _ = _
          rw [hv, Bool.true_and]
          cases v.strings.all clean with
          | false => rfl
          | true => cases k <;> rfl
  | key, v, .cons key' w l, n + 1, rest, hn => by
      rw [join_items, later_item] at hn ⊢
      have hlen : (join (keyPieces key)).length + ((text v).length +
          ((join (serializeItems (.cons key' w l) false)).length + 1)) < n + 1 := by
        simpa using hn
      have hv := parse_text v n (0x2c :: (join (serializeItems (.cons key' w l) false) ++ closing k :: rest)) (by omega)
        (follows_of _ (.inl rfl))
      have hl := parse_items key' w l n rest (by omega)
      show parseItems k (n + 1) (join (keyPieces key) ++
        (text v ++ 0x2c :: join (serializeItems (.cons key' w l) false)) ++ closing k :: rest) = _
      rw [List.append_assoc, List.append_assoc, List.cons_append, parseItems, parseKey_pieces, Items.strings,
        List.all_append, List.all_append]
      cases key.strings.all clean with
      | false => rfl
      | true =>
          show (parseValue n _).bind _ = _
          rw [hv, Bool.true_and]
          cases v.strings.all clean with
          | false => rfl
          | true =>
              show (parseItems k n (skipWs (0x2c :: _)).tail).map _ = _
              rw [skipWs_cons _ (by decide), List.tail_cons, hl, Bool.true_and]
              cases (Items.cons key' w l).strings.all clean <;> rfl

end

theorem serialize_data (v : Value CString) : serialize v = ⟨text v ++ [0], (text v).length⟩ := by
  have hbuf := buf_foldl (serializeJsonRec v) ⟨cStr [], 0, .inr ⟨rfl, rfl⟩⟩
  have hlen : ∀ s : CString, (cStr (s.bytes ++ [0])).bytes = s.bytes := by
    intro s
    have hpos : ∀ c ∈ s.bytes, decide (c ≠ 0) = true := fun c hc => decide_eq_true fun hzero => s.noNul (hzero ▸ hc)
    exact (List.takeWhile_append_of_pos hpos).trans (List.append_nil _)
  rw [serialize, hlen, hbuf]
  rfl

theorem parse_text_eq (v : Value CString) :
    parse (text v) = if v.strings.all clean then some (v.map CString.bytes) else none := by
  have hread := parse_text v (2 * (text v).length) [] (by omega) nofun
  rw [List.append_nil] at hread
  rw [parse, hread]
  cases v.strings.all clean <;> rfl

/-- **Serialization.**  The string of a value is its text with its length; where the strings are UTF-8 it is, and it
is read back as the value, exactly when no string has a control character but tab, line feed and carriage return. -/
theorem serialize_valid_iff (v : Value CString) (hutf : ∀ s ∈ v.strings, Utf8 s.bytes) :
    (serialize v).data = text v ++ [0] ∧ (serialize v).len = (text v).length ∧
      (Utf8 (text v) ∧ parse (text v) = some (v.map CString.bytes) ↔
        ∀ s ∈ v.strings, ∀ c ∈ s.bytes, 0x20 ≤ c.toNat ∨ c = 0x0a ∨ c = 0x0d ∨ c = 0x09) := by
  have hclean : v.strings.all clean = true ↔
      ∀ s ∈ v.strings, ∀ c ∈ s.bytes, 0x20 ≤ c.toNat ∨ c = 0x0a ∨ c = 0x0d ∨ c = 0x09 := by
    simp only [List.all_eq_true, clean, printable, decide_eq_true_eq]
  rw [serialize_data, ← hclean, parse_text_eq, and_iff_right (utf8_text v hutf)]
  refine ⟨rfl, rfl, ?_⟩
  cases v.strings.all clean with
  | false => exact iff_of_false nofun nofun
  | true => exact iff_of_true rfl rfl

/-- A string of one character. -/
def oneChar (c : BitVec 8) : Value CString := .str (cStr [c])

theorem serialize_valid_iff_oneChar : parse (text (oneChar 0x41)) = some ((oneChar 0x41).map CString.bytes) :=
  ((serialize_valid_iff (oneChar 0x41) (by
    intro s hs
    cases List.mem_singleton.1 hs
    exact .ascii (by decide))).2.2.2 (by decide)).2

theorem serialize_not_valid : ¬ ∀ v : Value CString, (∀ s ∈ v.strings, Utf8 s.bytes) →
    parse (text v) = some (v.map CString.bytes) := by
  intro hall
  have hnone : parse (text (oneChar 0x01)) = none := by decide
  have hsome := hall (oneChar 0x01) (by
    intro s hs
    cases List.mem_singleton.1 hs
    exact .ascii (by decide))
  rw [hnone] at hsome
  cases hsome

end PS4Recomp.Runtime.Json
