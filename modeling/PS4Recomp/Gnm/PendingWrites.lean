import Mathlib.Data.List.Basic
import Mathlib.Logic.Function.Basic
import PS4Recomp.Library.Transition

/-!
# Pending writes of the GPU

`ps4_gnm_pending_writes.h`: each distinct range of guest memory that GPU work wrote is kept once, with its
latest write, and the ranges whose latest write is pending are also listed by the megabyte.

* `Entry`, `GnmPendingWrites` — the entries, their index by range, and the lists of entry numbers;
* `note`, `commit`, `prune`, `overlaps` — the calls; `compact` — the entries moved together;
* `Write`, `Writes` — the latest write of every range ever noted, which no code keeps;
* `PendingState`, `pendingSystem` — the calls on both side by side;
* `ScanAnswer` — what a scan over the latest writes answers.

Numbers are 64-bit, and sums wrap; entry numbers and list lengths are natural numbers.  The count of
compactions is left out.
-/

namespace PS4Recomp.Gnm.PendingWrites

open Library.Transition

/-! ### The code -/

/-- `kOpen`: the sequence number of a write in an open command buffer. -/
def kOpen : Nat := 2 ^ 64 - 1

abbrev Key := Nat × Nat

scoped instance neZero_2 : NeZero 2 := ⟨by decide⟩

/-- A target: the main command buffer or the asynchronous one. -/
abbrev Target := Fin 2

structure Entry where
  addr : Nat := 0
  size : Nat := 0
  epoch : Nat := 0
  seq : Nat := 0
  tgt : Target := 0
  live : Bool := false
  deriving DecidableEq, Inhabited

def Entry.key (e : Entry) : Key := (e.addr, e.size)

structure Range where
  addr : Nat
  size : Nat
  epoch : Nat
  deriving DecidableEq

def Entry.range (e : Entry) : Range := ⟨e.addr, e.size, e.epoch⟩

structure GnmPendingWrites where
  entries : List Entry := []
  idx : Key → Option Nat := fun _ => none
  live : List Nat := []
  openList : Target → List Nat := fun _ => []
  buckets : Nat → List Nat := fun _ => []
  wide : List Nat := []
  stamp : Nat → Nat := fun _ => 0
  gen : Nat := 0
  done : Nat := 0
  keepIdle : Nat := 4096

namespace GnmPendingWrites

def entry (g : GnmPendingWrites) (i : Nat) : Entry := g.entries.getD i {}

/-- The megabytes that a range begins and ends in. -/
def firstBucket (addr : Nat) : Nat := addr / 2 ^ 20

def lastBucket (addr size : Nat) : Nat := (addr + (size - 1)) % 2 ^ 64 / 2 ^ 20

/-- A range in 65 or more megabytes. -/
def covers65 (addr size : Nat) : Bool := 64 ≤ (lastBucket addr size + 2 ^ 64 - firstBucket addr) % 2 ^ 64

def addToBuckets (g : GnmPendingWrites) (i : Nat) : GnmPendingWrites :=
  let e := g.entry i
  if covers65 e.addr e.size then { g with wide := g.wide ++ [i] }
  else
    { g with
      buckets := fun p =>
        if firstBucket e.addr ≤ p ∧ p ≤ lastBucket e.addr e.size then g.buckets p ++ [i] else g.buckets p }

def rebuildBuckets (g : GnmPendingWrites) : GnmPendingWrites :=
  g.live.foldl addToBuckets { g with buckets := fun _ => [], wide := [] }

/-- The number of a range's entry, which is made if there is none. -/
def lookupOrAdd (g : GnmPendingWrites) (addr size epoch : Nat) : Nat × GnmPendingWrites :=
  match g.idx (addr, size) with
  | some i => (i, g)
  | none =>
    (g.entries.length,
      { g with
        idx := Function.update g.idx (addr, size) (some g.entries.length)
        entries := g.entries ++ [{ addr, size, epoch }] })

def note (g : GnmPendingWrites) (addr size epoch : Nat) (tgt : Target) : GnmPendingWrites :=
  if size = 0 then g
  else
    let (i, g) := g.lookupOrAdd addr size epoch
    let e := g.entry i
    let g := if e.seq ≠ kOpen ∨ e.tgt ≠ tgt then
        { g with openList := Function.update g.openList tgt (g.openList tgt ++ [i]) }
      else g
    let g := if e.live = false then { g with live := g.live ++ [i] }.addToBuckets i else g
    { g with entries := g.entries.modify i fun e => { e with epoch, seq := kOpen, tgt, live := true } }

/-- The entry committed, if its latest write is in the command buffer. -/
def commitEntry (seq : Nat) (tgt : Target) (e : Entry) : Entry :=
  if e.seq = kOpen ∧ e.tgt = tgt then { e with seq } else e

def commit (g : GnmPendingWrites) (seq : Nat) (tgt : Target) : GnmPendingWrites :=
  { g with
    entries := (g.openList tgt).foldl (fun es i => es.modify i (commitEntry seq tgt)) g.entries
    openList := Function.update g.openList tgt [] }

def compact (g : GnmPendingWrites) : GnmPendingWrites :=
  let keep := g.live.map g.entry
  rebuildBuckets
    { g with
      entries := keep
      live := List.range keep.length
      idx := fun k => keep.findIdx? fun e => e.key = k
      openList := fun t => (List.range keep.length).filter fun i =>
        (keep.getD i {}).seq = kOpen ∧ (keep.getD i {}).tgt = t
      stamp := fun _ => 0
      gen := 0 }

/-- The latest write of the entry completed. -/
def completed (g : GnmPendingWrites) (done : Nat) (i : Nat) : Bool :=
  (g.entry i).seq ≠ kOpen ∧ (g.entry i).seq ≤ done

def prune (g : GnmPendingWrites) (done : Nat) : GnmPendingWrites :=
  if done ≤ g.done then g
  else
    let gone := g.live.filter (g.completed done)
    let g' := { g with
      done
      entries := gone.foldl (fun es i => es.modify i fun e => { e with live := false }) g.entries
      live := g.live.filter fun i => !g.completed done i }
    if (4 * g'.live.length + g'.keepIdle) % 2 ^ 64 < g'.entries.length then g'.compact
    else if g'.live.length ≠ g.live.length then g'.rebuildBuckets
    else g'

/-- The ranges share a byte. -/
def meets (addr size : Nat) (e : Entry) : Bool :=
  e.addr < (addr + size) % 2 ^ 64 ∧ addr < (e.addr + e.size) % 2 ^ 64

/-- One candidate of a query, against the best hit so far. -/
def check (addr size : Nat) (hit : Option Range) (e : Entry) : Option Range :=
  if meets addr size e then
    match hit with
    | none => some e.range
    | some best => if best.epoch < e.epoch then some e.range else some best
  else hit

/-- A candidate from a bucket, unless this query saw it already. -/
def visit (g : GnmPendingWrites) (gen addr size : Nat) (s : (Nat → Nat) × Option Range) (i : Nat) :
    (Nat → Nat) × Option Range :=
  if s.1 i = gen then s else (Function.update s.1 i gen, check addr size s.2 (g.entry i))

/-- The stamp of the next query. -/
def nextGen (g : GnmPendingWrites) : (Nat → Nat) × Nat :=
  let gen := (g.gen + 1) % 2 ^ 32
  if gen = 0 then (fun _ => 0, 1) else (g.stamp, gen)

def overlaps (g : GnmPendingWrites) (addr size : Nat) : Option Range × GnmPendingWrites :=
  if covers65 addr size then
    (g.live.foldl (fun hit i => check addr size hit (g.entry i)) none, g)
  else
    let (stamp, gen) := g.nextGen
    let first := firstBucket addr
    let candidates := (List.range' first (lastBucket addr size + 1 - first)).flatMap g.buckets
    let hit := g.wide.foldl (fun hit i => check addr size hit (g.entry i)) none
    let (stamp, hit) := candidates.foldl (g.visit gen addr size) (stamp, hit)
    (hit, { g with stamp, gen })

end GnmPendingWrites

/-! ### The latest writes -/

/-- A write: its number, its target and, once that was committed, its sequence number. -/
structure Write where
  epoch : Nat
  tgt : Target
  seq : Option Nat
  deriving DecidableEq

/-- The latest write of every range ever noted, and the largest sequence number pruned. -/
structure Writes where
  latest : Key → Option Write := fun _ => none
  done : Nat := 0
  lastEpoch : Nat := 0
  lastSeq : Nat := 0

namespace Writes

def note (w : Writes) (addr size epoch : Nat) (tgt : Target) : Writes :=
  if size = 0 then w
  else
    { w with
      latest := Function.update w.latest (addr, size) (some ⟨epoch, tgt, none⟩)
      lastEpoch := epoch }

def commitWrite (seq : Nat) (tgt : Target) (x : Write) : Write :=
  if x.seq = none ∧ x.tgt = tgt then { x with seq := some seq } else x

def commit (w : Writes) (seq : Nat) (tgt : Target) : Writes :=
  { w with latest := fun k => (w.latest k).map (commitWrite seq tgt), lastSeq := seq }

def prune (w : Writes) (done : Nat) : Writes := { w with done := max w.done done }

/-- The write is in an open command buffer, or in one that has not completed. -/
def Pending (w : Writes) (x : Write) : Prop := ∀ seq, x.seq = some seq → w.done < seq

/-- A pending write overlaps a query. -/
def Hits (w : Writes) (addr size : Nat) (r : Range) : Prop :=
  ∃ x, w.latest (r.addr, r.size) = some x ∧ x.epoch = r.epoch ∧ w.Pending x ∧
    r.addr < addr + size ∧ addr < r.addr + r.size

end Writes

/-- The answer of a scan: none if no pending write overlaps the query, else one with the latest epoch. -/
def ScanAnswer (w : Writes) (addr size : Nat) : Option Range → Prop
  | none => ∀ r, ¬w.Hits addr size r
  | some hit => w.Hits addr size hit ∧ ∀ r, w.Hits addr size r → r.epoch ≤ hit.epoch

/-! ### Runs -/

structure PendingState where
  code : GnmPendingWrites := {}
  writes : Writes := {}

inductive PendingCall where
  | note (addr size epoch : Nat) (tgt : Target)
  | commit (seq : Nat) (tgt : Target)
  | prune (done : Nat)
  | overlaps (addr size : Nat)
  deriving DecidableEq

def exec (s : PendingState) : PendingCall → Option PendingState
  | .note addr size epoch tgt =>
    some ⟨s.code.note addr size epoch tgt, s.writes.note addr size epoch tgt⟩
  | .commit seq tgt => some ⟨s.code.commit seq tgt, s.writes.commit seq tgt⟩
  | .prune done => some ⟨s.code.prune done, s.writes.prune done⟩
  | .overlaps addr size => some ⟨(s.code.overlaps addr size).2, s.writes⟩

def pendingSystem (keepIdle : Nat) : System PendingState PendingCall where
  init s := s = { code := { keepIdle } }
  step s call s' := exec s call = some s'

/-- The calls as the renderer makes them: epochs and sequence numbers increase, a sequence number is
committed before it is pruned, and ranges end below `2 ^ 64`. -/
def Ordered (s : PendingState) : PendingCall → Prop
  | .note addr size epoch _ => addr + size < 2 ^ 64 ∧ s.writes.lastEpoch < epoch
  | .commit seq _ => s.writes.lastSeq < seq ∧ s.writes.done < seq ∧ seq < 2 ^ 64
  | .prune _ => True
  | .overlaps _ _ => True

/-- No command buffer is committed under `kOpen`. -/
def Numbered (s : PendingState) (call : PendingCall) : Prop :=
  Ordered s call ∧ ∀ tgt, call ≠ .commit kOpen tgt

instance (s : PendingState) : ∀ call, Decidable (Ordered s call)
  | .note _ _ _ _ => inferInstanceAs (Decidable (_ ∧ _))
  | .commit _ _ => inferInstanceAs (Decidable (_ ∧ _))
  | .prune _ => inferInstanceAs (Decidable True)
  | .overlaps _ _ => inferInstanceAs (Decidable True)

instance (s : PendingState) (call : PendingCall) : Decidable (Numbered s call) :=
  inferInstanceAs (Decidable (_ ∧ _))

/-- **Every query is answered as by a scan.** -/
def AnswersLikeScan (s : PendingState) : Prop :=
  ∀ addr size, addr + size < 2 ^ 64 → ScanAnswer s.writes addr size (s.code.overlaps addr size).1

end PS4Recomp.Gnm.PendingWrites
