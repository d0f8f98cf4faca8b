import Lowering.Proofs.Rings
import Mathlib.Algebra.BigOperators.Group.Finset.Basic
import Mathlib.Algebra.GroupWithZero.Nat
/-!
When the tables of a state agree.

The handles in a state refer to entries that exist; a resource records the site that has it, and
the site is one of its owner's; what a live value is at is recorded as its own; and the references
of a register are the memory words that are addressed through it.
-/
namespace Lowering

namespace Site

def resource? (g : FrameGeometry) : Site → Option ResourceId
  | .register _ number => number.map .register
  | .memory m _ => if m.base == g.stack then some (.slot (g.index m.offset)) else none
  | _ => none

def place : Site → Site
  | .memory m _ => .memory m false
  | x => x

def isTaken : Site → Bool
  | .register _ number => number.isSome
  | .memory _ acquired => acquired
  | _ => true

def addressed : Site → List Register
  | .memory m _ => m.registers
  | _ => []

def referred : Site → List Register
  | .memory m true => m.registers
  | _ => []

theorem referredTaken {x : Site} (taken : x.isTaken = true) : x.referred = x.addressed := by
  cases x with
  | memory m acquired =>
    cases acquired with
    | true => rfl
    | false => simp [isTaken] at taken
  | constant p => rfl
  | address p => rfl
  | register mask number => rfl

theorem addressedOfPlace {x y : Site} (same : x.place = y.place) : x.addressed = y.addressed := by
  cases x <;> cases y <;> simp_all [place, addressed]

theorem resourcePlace (g : FrameGeometry) (x : Site) : x.place.resource? g = x.resource? g := by
  cases x <;> rfl

theorem resourceOfPlace {g : FrameGeometry} {x y : Site} (same : x.place = y.place) :
    x.resource? g = y.resource? g := by
  rw [← resourcePlace, same, resourcePlace]

theorem satisfiesPlace (g : FrameGeometry) (x : Site) (m : SiteMask) :
    x.place.satisfies g m = x.satisfies g m := by
  cases x <;> rfl

theorem satisfiesOfPlace {g : FrameGeometry} {x y : Site} (same : x.place = y.place)
    (m : SiteMask) : x.satisfies g m = y.satisfies g m := by
  rw [← satisfiesPlace, same, satisfiesPlace]

end Site

namespace State

variable {s : State}

def resource? (s : State) (i : SiteId) : Option ResourceId := (s.site i).resource? s.geometry

theorem slotResourceEq (s : State) (m : MemoryRef) (acquired : Bool) :
    s.slotResource? (.memory m acquired) = (Site.memory m acquired).resource? s.geometry := rfl

def Live (s : State) (v : ValueId) : Prop := (s.isLive v).1 = true

instance (v : ValueId) : Decidable (s.Live v) := inferInstanceAs (Decidable (_ = _))

/-- The handles in the tables are those of entries, and the frame can be addressed. -/
structure WellFormed (s : State) : Prop where
  rings : s.Permutes
  listed : ∀ v i, i ∈ (s.value v).sites → s.IsSite i
  reads : s.reads.WellFormed
  heads : ∀ v r, (s.value v).reads = some r → s.reads.IsRead r ∧ s.reads.value r = v
  frame : (s.resources.slots.length + s.geometry.footer) * wordSize ≤ modulus 32

def Free (s : State) (id : ResourceId) : Prop := (s.resources.get id).reserved = false

instance (id : ResourceId) : Decidable (s.Free id) := inferInstanceAs (Decidable (_ = _))

def owner? (s : State) (id : ResourceId) : Option Owner := (s.resources.get id).owner

/-- The recorded owner of a resource has it by a site that stands for it. -/
def Named (s : State) : Prop :=
  ∀ id o, s.Free id → s.owner? id = some o →
    s.IsValue o.value ∧ s.IsSite o.site ∧ s.resource? o.site = some id

structure Owned (s : State) : Prop where
  recorded : ∀ id o, s.Free id → s.owner? id = some o →
    o.site ∈ (s.value o.value).sites ∧ s.resource? o.site = some id
  held : ∀ v i id, s.Live v → i ∈ (s.value v).sites → s.resource? i = some id →
    s.resources.Has id → s.Free id → s.owner? id = some ⟨v, i⟩

def Taken (s : State) : Prop :=
  ∀ id o, s.Free id → s.owner? id = some o → (s.site o.site).isTaken = true

structure ListedOnce (s : State) : Prop where
  each : ∀ v, (s.value v).sites.Nodup
  apart : ∀ v w i, i ∈ (s.value v).sites → i ∈ (s.value w).sites → v = w

def usesOf (s : State) (v : ValueId) (r : Register) : Nat :=
  ((s.value v).sites.map fun i => (s.site i).referred.count r).sum

def uses (s : State) (r : Register) : Nat :=
  ∑ n ∈ Finset.range s.values.size, s.usesOf ⟨n⟩ r

/-- The references of a register are the uses in listed sites and those on loan. -/
def Counted (s : State) (lent : List Register) : Prop :=
  ∀ r, s.resources.Has (.register r) → s.Free (.register r) →
    (s.resources.get (.register r)).references = s.uses r + lent.count r

structure Coherent (s : State) (lent : List Register) : Prop where
  formed : s.WellFormed
  owned : s.Owned
  vacant : ∀ id, ¬ s.Free id → s.owner? id = none
  taken : s.Taken
  once : s.ListedOnce
  counted : s.Counted lent

theorem Owned.named (formed : s.WellFormed) (owned : s.Owned) : s.Named := by
  intro id o free owner
  obtain ⟨listed, names⟩ := owned.recorded id o free owner
  exact ⟨s.isValueOfSites listed, formed.listed _ _ listed, names⟩

/-! Asking whether a value is live. -/

theorem firstPendingSpec (vs : List ValueId) : ∀ s : State, s.reads.WellFormed →
    (∀ v ∈ vs, ∀ r, (s.value v).reads = some r → s.reads.IsRead r) →
    ∃ reads, (s.firstPending vs).2 = { s with reads } ∧ s.reads.Evolves reads ∧
      (∀ r, (s.firstPending vs).1 = some r →
        s.reads.Pending r ∧ ∃ v ∈ vs, (s.value v).reads = some r) ∧
      ((s.firstPending vs).1 = none →
        ∀ v ∈ vs, ∀ r, (s.value v).reads = some r → ¬ s.reads.Pending r) := by
  induction vs with
  | nil =>
    intro s wf known
    exact ⟨s.reads, rfl, .refl _, by simp [firstPending], by simp⟩
  | cons v rest ih =>
    intro s wf known
    cases head : (s.value v).reads with
    | none =>
      obtain ⟨reads, state, evolves, found, none⟩ :=
        ih s wf fun w m => known w (List.mem_cons_of_mem _ m)
      have step : s.firstPending (v :: rest) = s.firstPending rest := by
        simp [firstPending, isPending, head]
      rw [step]
      refine ⟨reads, state, evolves, ?_, ?_⟩
      · intro r answer
        obtain ⟨pending, w, member, chain⟩ := found r answer
        exact ⟨pending, w, List.mem_cons_of_mem _ member, chain⟩
      · intro empty w member r chain
        rcases List.mem_cons.mp member with rfl | member
        · simp [head] at chain
        · exact none empty w member r chain
    | some r =>
      have valid := ReadTable.validIff wf.ordered r
      have evolved := ReadTable.validEvolves wf.ordered r
      cases answer : (s.reads.valid r).1 with
      | true =>
        have step : s.firstPending (v :: rest) = (some r, { s with reads := (s.reads.valid r).2 }) := by
          simp [firstPending, isPending, head, answer]
        rw [step]
        refine ⟨_, rfl, evolved, ?_, by simp⟩
        intro r' same
        cases same
        exact ⟨valid.mp answer, v, List.mem_cons_self, head⟩
      | false =>
        have step : s.firstPending (v :: rest) =
            { s with reads := (s.reads.valid r).2 }.firstPending rest := by
          simp [firstPending, isPending, head, answer]
        rw [step]
        obtain ⟨reads, state, evolves, found, none⟩ :=
          ih { s with reads := (s.reads.valid r).2 } (evolved.wellFormed wf)
            fun w m r' chain => evolved.isRead (known w (List.mem_cons_of_mem _ m) r' chain)
        refine ⟨reads, state, evolved.trans evolves, ?_, ?_⟩
        · intro r' same
          obtain ⟨pending, w, member, chain⟩ := found r' same
          have there := known w (List.mem_cons_of_mem _ member) r' chain
          exact ⟨evolved.ofPending wf.ordered pending there, w, List.mem_cons_of_mem _ member, chain⟩
        · intro empty w member r' chain pending
          rcases List.mem_cons.mp member with rfl | member
          · have same : r = r' := Option.some.inj (head.symm.trans chain)
            subst same
            simp [valid.mpr pending] at answer
          · exact none empty w member r' chain (evolved.pendingOf pending)

theorem liveReadSpec (formed : s.WellFormed) (v : ValueId) :
    ∃ reads, (s.liveRead? v).2 = { s with reads } ∧ s.reads.Evolves reads ∧
      (∀ r, (s.liveRead? v).1 = some r →
        s.reads.Pending r ∧ ∃ m ∈ s.ring v, (s.value m).reads = some r) ∧
      ((s.liveRead? v).1 = none →
        ∀ m ∈ s.ring v, ∀ r, (s.value m).reads = some r → ¬ s.reads.Pending r) :=
  firstPendingSpec (s.ring v) s formed.reads fun m _ r chain => (formed.heads m r chain).1

theorem isLiveState (s : State) (v : ValueId) : (s.isLive v).2 = (s.liveRead? v).2 := rfl

theorem liveIff (formed : s.WellFormed) (v : ValueId) :
    s.Live v ↔ ∃ m ∈ s.ring v, ∃ r, (s.value m).reads = some r ∧ s.reads.Pending r := by
  obtain ⟨reads, -, -, found, none⟩ := liveReadSpec formed v
  have same : (s.isLive v).1 = (s.liveRead? v).1.isSome := rfl
  rw [Live, same]
  cases answer : (s.liveRead? v).1 with
  | none =>
    simp only [Option.isSome_none, Bool.false_eq_true, false_iff]
    rintro ⟨m, member, r, chain, pending⟩
    exact none answer m member r chain pending
  | some r =>
    obtain ⟨pending, m, member, chain⟩ := found r answer
    simpa using ⟨m, member, r, chain, pending⟩

theorem liveOfAlias (formed : s.WellFormed) {v w : ValueId} (known : s.IsValue v)
    (member : w ∈ s.ring v) : s.Live w ↔ s.Live v := by
  have back := memRingSymm formed.rings known member
  have known' := isValueOfRing formed.rings known member
  rw [liveIff formed, liveIff formed]
  constructor
  · rintro ⟨m, inside, rest⟩
    exact ⟨m, memRingTrans formed.rings known member inside, rest⟩
  · rintro ⟨m, inside, rest⟩
    exact ⟨m, memRingTrans formed.rings known' back inside, rest⟩

end State

end Lowering
