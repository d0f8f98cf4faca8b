import Lowering.Proofs.Coherence
/-!
Reads in a queue.

Where every read is a single use, the reads still to come stand in one line, and every value has
those of the line that are reads of it, in the same order. Who is live can be read off the line.
-/
namespace Lowering

open State Build

namespace ReadTable

variable {t t' : ReadTable} {r : ReadId} {front : Option ReadId} {rs : List ReadId}

def Chained (t : ReadTable) : Option ReadId → List ReadId → Prop
  | front, [] => front = none
  | front, r :: rest =>
    front = some r ∧ ∃ mask successor next, t.kind r = .single mask successor next ∧ t.Chained next rest

theorem Chained.evolves (evolves : t.Evolves t') (chained : t.Chained front rs) : t'.Chained front rs := by
  induction rs generalizing front with
  | nil => exact chained
  | cons r rest ih =>
    obtain ⟨rfl, mask, successor, next, kind, later⟩ := chained
    exact ⟨rfl, mask, successor, next, evolves.single kind, ih later⟩

theorem Chained.single (chained : t.Chained front rs) (member : r ∈ rs) :
    ∃ mask successor next, t.kind r = .single mask successor next := by
  induction rs generalizing front with
  | nil => cases member
  | cons x rest ih =>
    obtain ⟨-, mask, successor, next, kind, later⟩ := chained
    rcases List.mem_cons.mp member with rfl | member
    · exact ⟨mask, successor, next, kind⟩
    · exact ih later member

theorem Chained.pending (chained : t.Chained front rs) (member : r ∈ rs) : t.Pending r := by
  obtain ⟨mask, successor, next, kind⟩ := chained.single member
  exact .single kind

theorem Chained.eqNone (chained : t.Chained front rs) : front = none ↔ rs = [] := by
  cases rs with
  | nil => exact iff_of_true chained rfl
  | cons r rest => simp [chained.1]

theorem Chained.first (chained : t.Chained front rs) (head : front = some r) : r ∈ rs := by
  cases rs with
  | nil => cases head.symm.trans chained
  | cons x rest =>
    cases head.symm.trans chained.1
    exact List.mem_cons_self

end ReadTable

namespace State

variable {s s' : State} {due : List ReadId} {r : ReadId} {v w : ValueId}

def readsOf (s : State) (due : List ReadId) (v : ValueId) : List ReadId :=
  due.filter fun r => s.reads.value r == v

theorem memReadsOf : r ∈ s.readsOf due v ↔ r ∈ due ∧ s.reads.value r = v := by
  simp [readsOf]

theorem readsOfCons : s.readsOf (r :: due) v =
    if s.reads.value r = v then r :: s.readsOf due v else s.readsOf due v := by
  simp [readsOf, List.filter_cons]

def Queued (s : State) (due : List ReadId) : Prop :=
  ∀ v, s.reads.Chained (s.value v).reads (s.readsOf due v)

def Wanted (s : State) (due : List ReadId) (v : ValueId) : Prop :=
  ∃ r ∈ due, s.reads.value r ∈ s.ring v

namespace Queued

theorem pending (queued : s.Queued due) (member : r ∈ due) : s.reads.Pending r :=
  (queued (s.reads.value r)).pending (memReadsOf.mpr ⟨member, rfl⟩)

theorem isRead (queued : s.Queued due) (member : r ∈ due) : s.reads.IsRead r :=
  ReadTable.isReadOfPending (queued.pending member)

theorem readsOf (queued : s.Queued due) (evolves : s.reads.Evolves s'.reads) (v : ValueId) :
    s'.readsOf due v = s.readsOf due v :=
  List.filter_congr fun r member => by rw [evolves.value r (queued.isRead member)]

theorem evolves (queued : s.Queued due) (evolves : s.reads.Evolves s'.reads)
    (heads : ∀ v, (s'.value v).reads = (s.value v).reads) : s'.Queued due := fun v => by
  rw [heads, queued.readsOf evolves]
  exact (queued v).evolves evolves

theorem wanted (queued : s.Queued due) (formed : s.WellFormed) (v : ValueId) : s.Live v ↔ s.Wanted due v := by
  rw [liveIff formed]
  constructor
  · rintro ⟨m, member, r, head, -⟩
    cases reads : s.readsOf due m with
    | nil =>
      have chained := queued m
      rw [(chained.eqNone).mpr reads] at head
      cases head
    | cons x rest =>
      obtain ⟨inside, value⟩ := memReadsOf.mp (reads ▸ List.mem_cons_self : x ∈ s.readsOf due m)
      exact ⟨x, inside, value ▸ member⟩
  · rintro ⟨r, inside, member⟩
    have chained := queued (s.reads.value r)
    have own : r ∈ s.readsOf due (s.reads.value r) := memReadsOf.mpr ⟨inside, rfl⟩
    cases reads : s.readsOf due (s.reads.value r) with
    | nil => simp [reads] at own
    | cons x rest =>
      have first : x ∈ s.readsOf due (s.reads.value r) := reads ▸ List.mem_cons_self
      rw [reads] at chained
      exact ⟨_, member, x, chained.1, queued.pending (memReadsOf.mp first).1⟩

theorem front (queued : s.Queued (r :: due)) : (s.value (s.reads.value r)).reads = some r ∧
    ∃ next, s.reads.next r = .ok next ∧ s.reads.Chained next (s.readsOf due (s.reads.value r)) := by
  have chained := queued (s.reads.value r)
  rw [readsOfCons, if_pos rfl] at chained
  obtain ⟨head, mask, successor, next, kind, later⟩ := chained
  exact ⟨head, next, by simp [ReadTable.next, kind], later⟩

theorem pop {next : Option ReadId} (queued : s.Queued (r :: due)) (follows : s.reads.next r = .ok next)
    (evolves : s.reads.Evolves s'.reads) (heads : ∀ w, (s'.value w).reads =
      if w = s.reads.value r then next else (s.value w).reads) : s'.Queued due := by
  intro w
  have reads : s'.readsOf due w = s.readsOf due w :=
    List.filter_congr fun x member => by rw [evolves.value x (queued.isRead (List.mem_cons_of_mem _ member))]
  rw [heads, reads]
  split
  · rename_i here
    obtain ⟨-, next', follows', later⟩ := queued.front
    cases follows.symm.trans follows'
    exact here ▸ later.evolves evolves
  · rename_i other
    have chained := queued w
    rw [readsOfCons, if_neg (Ne.symm other)] at chained
    exact chained.evolves evolves

end Queued

end State

end Lowering
