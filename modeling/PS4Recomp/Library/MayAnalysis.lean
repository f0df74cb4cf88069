import PS4Recomp.Library.RoundRobin

/-!
# Backward may-analysis on a control-flow graph

Straight-line code hangs off the nodes of a graph; an item of code reads some facts and kills some
facts (a fact both read and killed is read first).  A fact is **demanded** at a point when some
path from there reaches a reader, or a node whose continuation is not known, before a killer.

* `Demand` — the paths, as an inductive predicate on (node, rest of its code);
* `through` — the transfer of a set of facts backwards through code;
* `liveOut`, `liveIn` — the data-flow equations;
* `mem_iff_demand` — any table that solves the equations and lies below every post-fixpoint holds
  exactly the demanded facts.
-/

namespace PS4Recomp.Library.MayAnalysis

variable {K I A : Type*} [DecidableEq A] [Fintype A]

/-- A control-flow graph: the code of a node, its known successors, and whether control may also
continue at an unknown place. -/
structure Graph (K I A : Type*) where
  code : K → List I
  succs : K → List K
  unknown : K → Bool
  reads : I → Finset A
  kills : I → Finset A

variable (G : Graph K I A)

/-- Fact `a` is demanded at node `k` before the code `is` that is still to run there. -/
inductive Demand (a : A) : K → List I → Prop
  | read {k i is} : a ∈ G.reads i → Demand a k (i :: is)
  | skip {k i is} : a ∉ G.kills i → Demand a k is → Demand a k (i :: is)
  | unknown {k} : G.unknown k = true → Demand a k []
  | edge {k s} : s ∈ G.succs k → Demand a s (G.code s) → Demand a k []

/-- The facts demanded before one item, from those demanded after it. -/
def throughItem (i : I) (live : Finset A) : Finset A := (live \ G.kills i) ∪ G.reads i

/-- The facts demanded before a piece of code, from those demanded after it. -/
def through (live : Finset A) (is : List I) : Finset A := is.foldr (throughItem G) live

/-- The facts demanded at the end of a node, from those demanded at the start of each. -/
def liveOut (σ : K → Finset A) (k : K) : Finset A :=
  (G.succs k).foldl (fun live s => live ∪ σ s) (if G.unknown k then Finset.univ else ∅)

/-- The facts demanded at the start of a node. -/
def liveIn (σ : K → Finset A) (k : K) : Finset A := through G (liveOut G σ k) (G.code k)

omit [Fintype A] in
@[simp] theorem through_nil (live : Finset A) : through G live [] = live := rfl

omit [Fintype A] in
@[simp] theorem through_cons (live : Finset A) (i : I) (is : List I) :
    through G live (i :: is) = throughItem G i (through G live is) := rfl

omit [Fintype A] in
theorem mem_throughItem {i : I} {live : Finset A} {a : A} :
    a ∈ throughItem G i live ↔ (a ∈ live ∧ a ∉ G.kills i) ∨ a ∈ G.reads i := by
  simp [throughItem]

omit [Fintype A] in
theorem through_mono {live live' : Finset A} (h : live ⊆ live') (is : List I) :
    through G live is ⊆ through G live' is := by
  induction is with
  | nil => simpa using h
  | cons i is ih =>
      intro a ha
      rw [through_cons, mem_throughItem] at ha ⊢
      exact ha.imp (fun h => ⟨ih h.1, h.2⟩) id

omit [Fintype A] in
theorem mem_foldl_union (σ : K → Finset A) (a : A) : ∀ (ss : List K) (init : Finset A),
    a ∈ ss.foldl (fun live s => live ∪ σ s) init ↔ a ∈ init ∨ ∃ s ∈ ss, a ∈ σ s := by
  intro ss
  induction ss with
  | nil => simp
  | cons s ss ih =>
      intro init
      rw [List.foldl_cons, ih, Finset.mem_union, List.exists_mem_cons_iff]
      tauto

theorem mem_liveOut {σ : K → Finset A} {k : K} {a : A} :
    a ∈ liveOut G σ k ↔ G.unknown k = true ∨ ∃ s ∈ G.succs k, a ∈ σ s := by
  rw [liveOut, mem_foldl_union]
  cases G.unknown k <;> simp

theorem liveIn_monotone : Monotone (liveIn G) := by
  intro σ τ h k
  apply through_mono
  intro a ha
  rw [mem_liveOut] at ha ⊢
  exact ha.imp id fun ⟨s, hs, hm⟩ => ⟨s, hs, h s hm⟩

omit [Fintype A] in
/-- Through code, a fact is demanded when the end of the code demands it, or the code reads it,
before a killer. -/
theorem mem_through_iff_demand {k : K} {live : Finset A} {a : A}
    (hend : a ∈ live ↔ Demand G a k []) (is : List I) :
    a ∈ through G live is ↔ Demand G a k is := by
  induction is with
  | nil => simpa using hend
  | cons i is ih =>
      rw [through_cons, mem_throughItem, ih]
      constructor
      · rintro (⟨hd, hk⟩ | hr)
        · exact .skip hk hd
        · exact .read hr
      · intro hd
        cases hd with
        | read hr => exact .inr hr
        | skip hk hd => exact .inl ⟨hd, hk⟩

omit [DecidableEq A] [Fintype A] in
theorem demand_nil_iff {k : K} {a : A} :
    Demand G a k [] ↔ G.unknown k = true ∨ ∃ s ∈ G.succs k, Demand G a s (G.code s) := by
  constructor
  · intro h
    cases h with
    | unknown hu => exact .inl hu
    | edge hs hd => exact .inr ⟨_, hs, hd⟩
  · rintro (hu | ⟨s, hs, hd⟩)
    · exact .unknown hu
    · exact .edge hs hd

open Classical in
/-- The table of demanded facts. -/
noncomputable def demandTable (k : K) : Finset A :=
  Finset.univ.filter fun a => Demand G a k (G.code k)

omit [DecidableEq A] in
theorem mem_demandTable {k : K} {a : A} : a ∈ demandTable G k ↔ Demand G a k (G.code k) := by
  simp [demandTable]

theorem liveIn_demandTable : liveIn G (demandTable G) = demandTable G := by
  funext k
  ext a
  rw [mem_demandTable, liveIn]
  apply mem_through_iff_demand
  rw [mem_liveOut, demand_nil_iff]
  simp only [mem_demandTable]

/-- A demanded fact is in every table that satisfies the equations at the nodes a path can visit. -/
theorem demand_mem {σ : K → Finset A} {P : K → Prop}
    (hP : ∀ k, P k → ∀ s ∈ G.succs k, P s) (hσ : ∀ k, P k → liveIn G σ k = σ k) {a : A} {k : K}
    {is : List I} (h : Demand G a k is) : P k → a ∈ through G (liveOut G σ k) is := by
  induction h with
  | read hr => exact fun _ => by rw [through_cons, mem_throughItem]; exact .inr hr
  | skip hk _ ih => exact fun hp => by rw [through_cons, mem_throughItem]; exact .inl ⟨ih hp, hk⟩
  | unknown hu => exact fun _ => by rw [through_nil, mem_liveOut]; exact .inl hu
  | edge hs _ ih =>
      intro hp
      have hps := hP _ hp _ hs
      rw [through_nil, mem_liveOut]
      exact .inr ⟨_, hs, by rw [← hσ _ hps]; exact ih hps⟩

/-- **Exactness.**  A table that solves the equations on a successor-closed set of nodes and lies
below the demanded facts holds, at the end of each such node, exactly the demanded facts; so does
its transfer through any rest of the node's code. -/
theorem mem_iff_demand {σ : K → Finset A} {P : K → Prop}
    (hP : ∀ k, P k → ∀ s ∈ G.succs k, P s) (hσ : ∀ k, P k → liveIn G σ k = σ k)
    (hle : σ ≤ demandTable G) {k : K} (hk : P k) (a : A) (is : List I) :
    a ∈ through G (liveOut G σ k) is ↔ Demand G a k is := by
  refine mem_through_iff_demand G ⟨fun h => ?_, fun h => ?_⟩ is
  · rw [demand_nil_iff]
    exact ((mem_liveOut G).1 h).imp id fun ⟨s, hs, hm⟩ =>
      ⟨s, hs, (mem_demandTable G).1 (hle s hm)⟩
  · simpa using demand_mem G hP hσ h hk

end PS4Recomp.Library.MayAnalysis
