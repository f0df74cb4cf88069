import Mathlib.Data.List.Basic
import Mathlib.Logic.Function.Basic

/-!
# Code over named cells

Lines of code that name the cells they read and write, with labels and jumps, over operations of any
meaning.

* `Lang`, `Line`, `writes` — what operations do, lines, and the cells with results written;
* `Runs` — runs of a code, and how they end;
* `Line.map`, `Runs.map` — renaming: with names that stay distinct, the renamed code does the same to
  the renamed cells and nothing to others;
* `Runs.embed` — code between lines without labels;
* `Spilled`, `Lang.spilled` — operations with a stack of saved cells beside the state.
-/

namespace PS4Recomp.Library.CellCode

variable {R R' V S Op L : Type}

/-- What an operation does with the values of its operands: results, the rest of the state, and the
label control goes to, if not to the next line. -/
structure Lang (V S Op L : Type) where
  eval : Op → List V → S → List V × S × Option L

/-- A line: a label, an operation with the cells of its results and operands, or a note. -/
inductive Line (R Op L : Type) where
  | label (l : L)
  | op (o : Op) (outs ins : List R)
  | note (text : String)

/-- The cells a line names. -/
def Line.names : Line R Op L → List R
  | .op _ outs ins => outs ++ ins
  | _ => []

/-- A line under other names. -/
def Line.map (f : R → R') : Line R Op L → Line R' Op L
  | .label l => .label l
  | .op o outs ins => .op o (outs.map f) (ins.map f)
  | .note t => .note t

/-- A line with an operation of a kind. -/
def Line.leaves (leaves : Op → Bool) : Line R Op L → Bool
  | .op o _ _ => leaves o
  | _ => false

/-- A line with a label. -/
def Line.isLabel : Line R Op L → Bool
  | .label _ => true
  | _ => false

/-- The cells with results written. -/
def writes [DecidableEq R] (σ : R → V) : List R → List V → R → V
  | r :: rs, v :: vs => writes (Function.update σ r v) rs vs
  | _, _ => σ

/-- The lines after a label. -/
def resolve [DecidableEq L] (l : L) : List (Line R Op L) → Option (List (Line R Op L))
  | [] => none
  | .label l' :: k => if l' = l then some k else resolve l k
  | _ :: k => resolve l k

/-- How a run ends: past the last line, or at a label that is not there. -/
inductive Outcome (R V S L : Type) where
  | fall (σ : R → V) (s : S)
  | goto (l : L) (σ : R → V) (s : S)

/-- The run of `code` from the lines `k` on. -/
inductive Runs [DecidableEq R] [DecidableEq L] (lang : Lang V S Op L) (code : List (Line R Op L)) :
    List (Line R Op L) → (R → V) → S → Outcome R V S L → Prop where
  | fall {σ : R → V} {s : S} : Runs lang code [] σ s (.fall σ s)
  | label {l : L} {k : List (Line R Op L)} {σ : R → V} {s : S} {o : Outcome R V S L} :
      Runs lang code k σ s o → Runs lang code (.label l :: k) σ s o
  | note {t : String} {k : List (Line R Op L)} {σ : R → V} {s : S} {o : Outcome R V S L} :
      Runs lang code k σ s o → Runs lang code (.note t :: k) σ s o
  | next {a : Op} {outs ins : List R} {k : List (Line R Op L)} {σ : R → V} {s s' : S} {vs : List V}
      {o : Outcome R V S L} : lang.eval a (ins.map σ) s = (vs, s', none) →
      Runs lang code k (writes σ outs vs) s' o → Runs lang code (.op a outs ins :: k) σ s o
  | jump {a : Op} {outs ins : List R} {k k' : List (Line R Op L)} {σ : R → V} {s s' : S} {vs : List V}
      {l : L} {o : Outcome R V S L} : lang.eval a (ins.map σ) s = (vs, s', some l) →
      (resolve l k).or (resolve l code) = some k' → Runs lang code k' (writes σ outs vs) s' o →
      Runs lang code (.op a outs ins :: k) σ s o
  | leave {a : Op} {outs ins : List R} {k : List (Line R Op L)} {σ : R → V} {s s' : S} {vs : List V}
      {l : L} : lang.eval a (ins.map σ) s = (vs, s', some l) →
      (resolve l k).or (resolve l code) = none →
      Runs lang code (.op a outs ins :: k) σ s (.goto l (writes σ outs vs) s')

/-! ### renaming -/

section Renaming

variable [DecidableEq R] [DecidableEq R'] [DecidableEq L] {lang : Lang V S Op L} {f : R → R'}

/-- The cells of some names are the renamed ones. -/
def Agree (f : R → R') (names : R → Prop) (σ : R → V) (τ : R' → V) : Prop :=
  ∀ r, names r → τ (f r) = σ r

theorem agree_writes {names : R → Prop} (hinj : ∀ r r', names r → names r' → f r = f r' → r = r')
    (outs : List R) : ∀ (vs : List V) (σ : R → V) (τ : R' → V), (∀ r ∈ outs, names r) →
    Agree f names σ τ → Agree f names (writes σ outs vs) (writes τ (outs.map f) vs) := by
  induction outs with
  | nil => exact fun vs σ τ _ h => h
  | cons r outs ih =>
      intro vs σ τ hnames h
      cases vs with
      | nil => exact h
      | cons v vs =>
          refine ih vs _ _ (fun r' hr' => hnames r' (List.mem_cons_of_mem r hr')) ?_
          intro r' hr'
          by_cases heq : r' = r
          · subst heq
            rw [Function.update_self, Function.update_self]
          · have hne : f r' ≠ f r :=
              fun hf => heq (hinj r' r hr' (hnames r List.mem_cons_self) hf)
            rw [Function.update_of_ne heq, Function.update_of_ne hne]
            exact h r' hr'

theorem writes_other {outs : List R} {r : R} (hr : r ∉ outs) : ∀ (vs : List V) (σ : R → V),
    writes σ outs vs r = σ r := by
  induction outs with
  | nil => exact fun vs σ => rfl
  | cons q outs ih =>
      intro vs σ
      cases vs with
      | nil => rfl
      | cons v vs =>
          have hne : r ≠ q := fun h => hr (by rw [h]; exact List.mem_cons_self)
          rw [writes, ih (fun h => hr (List.mem_cons_of_mem q h)), Function.update_of_ne hne]

omit [DecidableEq R] [DecidableEq R'] in
theorem resolve_map (l : L) (k : List (Line R Op L)) :
    resolve l (k.map (Line.map f)) = (resolve l k).map (List.map (Line.map f)) := by
  induction k with
  | nil => rfl
  | cons ln k ih =>
      cases ln with
      | label l' =>
          simp only [List.map_cons, Line.map, resolve]
          split
          · rfl
          · exact ih
      | op o outs ins => exact ih
      | note t => exact ih

omit [DecidableEq R] in
theorem resolve_subset {l : L} {k k' : List (Line R Op L)} (h : resolve l k = some k') : k' ⊆ k := by
  induction k with
  | nil => cases h
  | cons ln k ih =>
      have hrest : resolve l k = some k' → k' ⊆ ln :: k := fun h =>
        List.Subset.trans (ih h) (List.subset_cons_self ln k)
      cases ln with
      | label l' =>
          simp only [resolve] at h
          split at h
          · cases h
            exact List.subset_cons_self _ _
          · exact hrest h
      | op o outs ins => exact hrest h
      | note t => exact hrest h

/-- What the renamed code does to the renamed cells. -/
def Outcome.Renamed (f : R → R') (names : R → Prop) (τ : R' → V) :
    Outcome R V S L → Outcome R' V S L → Prop
  | .fall σ s, .fall τ' s' => s' = s ∧ Agree f names σ τ' ∧ ∀ q, (∀ r, names r → f r ≠ q) → τ' q = τ q
  | .goto l σ s, .goto l' τ' s' =>
      l' = l ∧ s' = s ∧ Agree f names σ τ' ∧ ∀ q, (∀ r, names r → f r ≠ q) → τ' q = τ q
  | _, _ => False

omit [DecidableEq R] [DecidableEq R'] [DecidableEq L] in
theorem Outcome.Renamed.frame {names : R → Prop} {τ τ₁ : R' → V} {o : Outcome R V S L}
    {o' : Outcome R' V S L} (h : Outcome.Renamed f names τ₁ o o')
    (hkept : ∀ q, (∀ r, names r → f r ≠ q) → τ₁ q = τ q) : Outcome.Renamed f names τ o o' := by
  cases o with
  | fall σ s =>
      cases o' with
      | fall τ' s' => exact ⟨h.1, h.2.1, fun q hq => (h.2.2 q hq).trans (hkept q hq)⟩
      | goto l τ' s' => exact h
  | goto l σ s =>
      cases o' with
      | fall τ' s' => exact h
      | goto l' τ' s' => exact ⟨h.1, h.2.1, h.2.2.1, fun q hq => (h.2.2.2 q hq).trans (hkept q hq)⟩

/-- **Renaming.**  With names that stay distinct, the renamed code does the same. -/
theorem Runs.map {code : List (Line R Op L)} {names : R → Prop}
    (hinj : ∀ r r', names r → names r' → f r = f r' → r = r')
    (hcode : ∀ ln ∈ code, ∀ r ∈ ln.names, names r) {k : List (Line R Op L)} {σ : R → V} {s : S}
    {o : Outcome R V S L} (h : Runs lang code k σ s o) : k ⊆ code → ∀ τ, Agree f names σ τ →
    ∃ o', Runs lang (code.map (Line.map f)) (k.map (Line.map f)) τ s o' ∧
      Outcome.Renamed f names τ o o' := by
  have hvalues : ∀ (ins : List R) (σ : R → V) (τ : R' → V), (∀ r ∈ ins, names r) →
      Agree f names σ τ → (ins.map f).map τ = ins.map σ := by
    intro ins σ τ hins hagree
    rw [List.map_map]
    exact List.map_congr_left fun r hr => hagree r (hins r hr)
  have hother : ∀ (outs : List R) (vs : List V) (τ : R' → V), (∀ r ∈ outs, names r) → ∀ q,
      (∀ r, names r → f r ≠ q) → writes τ (outs.map f) vs q = τ q := by
    intro outs vs τ houts q hq
    apply writes_other
    intro hmem
    obtain ⟨r, hr, rfl⟩ := List.mem_map.1 hmem
    exact hq r (houts r hr) rfl
  have hnames : ∀ {a : Op} {outs ins : List R} {k : List (Line R Op L)},
      (.op a outs ins :: k) ⊆ code → (∀ r ∈ outs, names r) ∧ ∀ r ∈ ins, names r := by
    intro a outs ins k hsub
    have hall := hcode _ (hsub List.mem_cons_self)
    exact ⟨fun r hr => hall r (List.mem_append_left _ hr), fun r hr => hall r (List.mem_append_right _ hr)⟩
  induction h with
  | fall => exact fun _ τ hagree => ⟨_, .fall, rfl, hagree, fun _ _ => rfl⟩
  | label _ ih =>
      intro hsub τ hagree
      obtain ⟨o', hrun, hren⟩ := ih (fun x hx => hsub (List.mem_cons_of_mem _ hx)) τ hagree
      exact ⟨o', .label hrun, hren⟩
  | note _ ih =>
      intro hsub τ hagree
      obtain ⟨o', hrun, hren⟩ := ih (fun x hx => hsub (List.mem_cons_of_mem _ hx)) τ hagree
      exact ⟨o', .note hrun, hren⟩
  | @next a outs ins k σ s s' vs o heval _ ih =>
      intro hsub τ hagree
      obtain ⟨houts, hins⟩ := hnames hsub
      obtain ⟨o', hrun, hren⟩ := ih (fun x hx => hsub (List.mem_cons_of_mem _ hx))
        (writes τ (outs.map f) vs) (agree_writes hinj outs vs σ τ houts hagree)
      refine ⟨o', .next ?_ hrun, hren.frame (hother outs vs τ houts)⟩
      rw [hvalues ins σ τ hins hagree]
      exact heval
  | @jump a outs ins k k' σ s s' vs l o heval hres _ ih =>
      intro hsub τ hagree
      obtain ⟨houts, hins⟩ := hnames hsub
      have hsub' : k' ⊆ code := by
        rcases Option.or_eq_some_iff.1 hres with hk | ⟨-, hk⟩
        · exact List.Subset.trans (resolve_subset hk) fun x hx => hsub (List.mem_cons_of_mem _ hx)
        · exact resolve_subset hk
      obtain ⟨o', hrun, hren⟩ := ih hsub' (writes τ (outs.map f) vs)
        (agree_writes hinj outs vs σ τ houts hagree)
      have heval' : lang.eval a ((ins.map f).map τ) s = (vs, s', some l) := by
        rw [hvalues ins σ τ hins hagree]
        exact heval
      have hres' : (resolve l (k.map (Line.map f))).or (resolve l (code.map (Line.map f))) =
          some (k'.map (Line.map f)) := by
        rw [resolve_map, resolve_map, ← Option.map_or, hres]
        rfl
      exact ⟨o', .jump heval' hres' hrun, hren.frame (hother outs vs τ houts)⟩
  | @leave a outs ins k σ s s' vs l heval hres =>
      intro hsub τ hagree
      obtain ⟨houts, hins⟩ := hnames hsub
      have heval' : lang.eval a ((ins.map f).map τ) s = (vs, s', some l) := by
        rw [hvalues ins σ τ hins hagree]
        exact heval
      have hres' : (resolve l (k.map (Line.map f))).or (resolve l (code.map (Line.map f))) = none := by
        rw [resolve_map, resolve_map, ← Option.map_or, hres]
        rfl
      exact ⟨_, .leave heval' hres', rfl, rfl, agree_writes hinj outs vs σ τ houts hagree,
        hother outs vs τ houts⟩

end Renaming

/-! ### code between lines without labels -/

section Embedding

variable [DecidableEq R] [DecidableEq L] {lang : Lang V S Op L}

omit [DecidableEq R] in
theorem resolve_append (l : L) (k m : List (Line R Op L)) :
    resolve l (k ++ m) = ((resolve l k).map (· ++ m)).or (resolve l m) := by
  induction k with
  | nil => rfl
  | cons ln k ih =>
      cases ln with
      | label l' =>
          by_cases hl : l' = l
          · simp only [List.cons_append, resolve, if_pos hl]
            rfl
          · simp only [List.cons_append, resolve, if_neg hl]
            exact ih
      | op o outs ins => exact ih
      | note t => exact ih

omit [DecidableEq R] in
theorem resolve_unlabelled {l : L} {k : List (Line R Op L)} (h : ∀ ln ∈ k, ln.isLabel = false) :
    resolve l k = none := by
  induction k with
  | nil => rfl
  | cons ln k ih =>
      have hrest := ih fun x hx => h x (List.mem_cons_of_mem ln hx)
      cases ln with
      | label l' => exact absurd (h _ List.mem_cons_self) (by simp [Line.isLabel])
      | op o outs ins => exact hrest
      | note t => exact hrest

omit [DecidableEq R] in
/-- Where a label of the inner code is found stays the same in the outer one. -/
theorem resolve_between {l : L} {k code pre post k' : List (Line R Op L)}
    (hpre : ∀ ln ∈ pre, ln.isLabel = false) (hpost : ∀ ln ∈ post, ln.isLabel = false)
    (h : (resolve l k).or (resolve l code) = some k') :
    (resolve l (k ++ post)).or (resolve l (pre ++ code ++ post)) = some (k' ++ post) := by
  rw [resolve_append, resolve_append, resolve_append, resolve_unlabelled hpre, resolve_unlabelled hpost]
  cases hk : resolve l k with
  | some k₁ =>
      rw [hk] at h
      cases h
      rfl
  | none =>
      rw [hk] at h
      cases hc : resolve l code with
      | some k₁ =>
          rw [hc] at h
          cases h
          rfl
      | none =>
          rw [hc] at h
          cases h

/-- Only where the labels of a code are matters to a run. -/
theorem Runs.congr {code code' : List (Line R Op L)} (hres : ∀ l, resolve l code = resolve l code')
    {k : List (Line R Op L)} {σ : R → V} {s : S} {o : Outcome R V S L}
    (h : Runs lang code k σ s o) : Runs lang code' k σ s o := by
  induction h with
  | fall => exact .fall
  | label _ ih => exact .label ih
  | note _ ih => exact .note ih
  | next heval _ ih => exact .next heval ih
  | jump heval hjump _ ih => exact .jump heval (by rw [← hres]; exact hjump) ih
  | leave heval hleave => exact .leave heval (by rw [← hres]; exact hleave)

/-- **Embedding.**  A run of the inner code past its last line goes on with the lines after it. -/
theorem Runs.embed {code pre post : List (Line R Op L)} (hpre : ∀ ln ∈ pre, ln.isLabel = false)
    (hpost : ∀ ln ∈ post, ln.isLabel = false) {k : List (Line R Op L)} {σ : R → V} {s : S}
    {o : Outcome R V S L} (h : Runs lang code k σ s o) {σ' : R → V} {s' : S} :
    o = .fall σ' s' → ∀ {o' : Outcome R V S L}, Runs lang (pre ++ code ++ post) post σ' s' o' →
    Runs lang (pre ++ code ++ post) (k ++ post) σ s o' := by
  induction h with
  | fall =>
      intro ho o' hrun
      cases ho
      exact hrun
  | label _ ih => exact fun ho _ hrun => .label (ih ho hrun)
  | note _ ih => exact fun ho _ hrun => .note (ih ho hrun)
  | next heval _ ih => exact fun ho _ hrun => .next heval (ih ho hrun)
  | jump heval hres _ ih =>
      exact fun ho _ hrun => .jump heval (resolve_between hpre hpost hres) (ih ho hrun)
  | leave heval hres =>
      intro ho
      cases ho

end Embedding

/-! ### a stack of saved cells -/

section Spilling

/-- Operations, and two that save cells on a stack and take them back. -/
inductive Spilled (Op : Type) where
  | inner (o : Op)
  | push
  | pop (n : ℕ)

/-- The operations beside a stack they do not touch. -/
def Lang.spilled (lang : Lang V S Op L) : Lang V (S × List V) (Spilled Op) L where
  eval
    | .inner o, vs, s =>
        ((lang.eval o vs s.1).1, ((lang.eval o vs s.1).2.1, s.2), (lang.eval o vs s.1).2.2)
    | .push, vs, s => ([], (s.1, vs ++ s.2), none)
    | .pop n, _, s => (s.2.take n, (s.1, s.2.drop n), none)

/-- A line among the operations with a stack. -/
def Line.inner : Line R Op L → Line R (Spilled Op) L
  | .label l => .label l
  | .op o outs ins => .op (.inner o) outs ins
  | .note t => .note t

/-- The outcome with the stack as it was. -/
def Outcome.beside (st : List V) : Outcome R V S L → Outcome R V (S × List V) L
  | .fall σ s => .fall σ (s, st)
  | .goto l σ s => .goto l σ (s, st)

variable [DecidableEq R] [DecidableEq L] {lang : Lang V S Op L}

omit [DecidableEq R] in
theorem resolve_inner (l : L) (k : List (Line R Op L)) :
    resolve l (k.map Line.inner) = (resolve l k).map (List.map Line.inner) := by
  induction k with
  | nil => rfl
  | cons ln k ih =>
      cases ln with
      | label l' =>
          by_cases hl : l' = l
          · simp only [List.map_cons, Line.inner, resolve, if_pos hl]
            rfl
          · simp only [List.map_cons, Line.inner, resolve, if_neg hl]
            exact ih
      | op o outs ins => exact ih
      | note t => exact ih

theorem Runs.inner {code k : List (Line R Op L)} {σ : R → V} {s : S} {o : Outcome R V S L}
    (h : Runs lang code k σ s o) (st : List V) :
    Runs lang.spilled (code.map Line.inner) (k.map Line.inner) σ (s, st) (o.beside st) := by
  induction h with
  | fall => exact .fall
  | label _ ih => exact .label ih
  | note _ ih => exact .note ih
  | @next a outs ins k σ s s' vs o heval _ ih =>
      refine .next ?_ ih
      simp only [Lang.spilled, heval]
  | @jump a outs ins k k' σ s s' vs l o heval hres _ ih =>
      have heval' : lang.spilled.eval (.inner a) (ins.map σ) (s, st) = (vs, (s', st), some l) := by
        simp only [Lang.spilled, heval]
      refine .jump heval' ?_ ih
      rw [resolve_inner, resolve_inner, ← Option.map_or, hres]
      rfl
  | @leave a outs ins k σ s s' vs l heval hres =>
      have heval' : lang.spilled.eval (.inner a) (ins.map σ) (s, st) = (vs, (s', st), some l) := by
        simp only [Lang.spilled, heval]
      refine .leave heval' ?_
      rw [resolve_inner, resolve_inner, ← Option.map_or, hres]
      rfl

theorem Runs.push {code k : List (Line R (Spilled Op) L)} {ins : List R} {σ : R → V} {s : S}
    {st : List V} {o : Outcome R V (S × List V) L}
    (h : Runs lang.spilled code k σ (s, ins.map σ ++ st) o) :
    Runs lang.spilled code (.op .push [] ins :: k) σ (s, st) o := .next rfl h

theorem Runs.pop {code k : List (Line R (Spilled Op) L)} {outs : List R} (vs : List V) {σ : R → V}
    {s : S} {st : List V} {o : Outcome R V (S × List V) L}
    (h : Runs lang.spilled code k (writes σ outs vs) (s, st) o) :
    Runs lang.spilled code (.op (.pop vs.length) outs [] :: k) σ (s, vs ++ st) o := by
  have heval : lang.spilled.eval (.pop vs.length) (([] : List R).map σ) (s, vs ++ st) =
      (vs, (s, st), none) := by
    simp only [Lang.spilled, List.take_left', List.drop_left']
  exact .next heval h

end Spilling

end PS4Recomp.Library.CellCode
