import Lowering.Proofs.Coherence
import Lowering.X64.Description
/-!
Whether the tables of a state agree can be decided: only the entries that exist have to be looked
at.
-/
namespace Lowering

theorem ReadId.forallBelow {p : ReadId → Prop} {n : Nat} :
    (∀ k < n, p ⟨k⟩) ↔ ∀ r : ReadId, r.index < n → p r :=
  ⟨fun all r below => all r.index below, fun all k below => all ⟨k⟩ below⟩

namespace ReadTable

def Follows (t : ReadTable) (r : ReadId) : Prop :=
  match t.kind r with
  | .fork reads _ _ => ∀ x ∈ reads, r.index < x.index ∧ t.IsRead x
  | .single _ _ next => ∀ x ∈ next, t.IsRead x ∧ t.value x = t.value r
  | .stub next _ _ => ∀ x ∈ next, t.IsRead x ∧ t.value x = t.value r

instance (t : ReadTable) (r : ReadId) : Decidable (t.Follows r) := by
  unfold Follows
  split <;> infer_instance

theorem followsIff (t : ReadTable) : (∀ k < t.size, t.Follows ⟨k⟩) ↔ t.WellFormed := by
  rw [ReadId.forallBelow]
  constructor
  · intro all
    have follows : ∀ r, t.Follows r := by
      intro r
      by_cases there : t.IsRead r
      · exact all r there
      · simp [Follows, kindOutside there]
    constructor
    · intro r x reads paths taken kind member
      have here := follows r
      simp only [Follows, kind] at here
      exact here x member
    · intro r x linked
      have here := follows r
      unfold next at linked
      cases kind : t.kind r with
      | single mask successor next =>
        simp only [kind, Except.ok.injEq] at linked
        simp only [Follows, kind] at here
        exact here x linked
      | stub next target valid =>
        simp only [kind, Except.ok.injEq] at linked
        simp only [Follows, kind] at here
        exact here x linked
      | fork reads paths taken => simp [kind] at linked
  · intro wf r _
    unfold Follows
    cases kind : t.kind r with
    | single mask successor next =>
      exact fun x linked => wf.chains (by simpa [ReadTable.next, kind] using linked)
    | stub next target valid =>
      exact fun x linked => wf.chains (by simpa [ReadTable.next, kind] using linked)
    | fork reads paths taken => exact fun x member => wf.entries kind member

instance (t : ReadTable) : Decidable t.WellFormed := decidable_of_iff _ t.followsIff

end ReadTable

def ResourceTable.ids (t : ResourceTable) : List ResourceId :=
  (List.range t.registers.length).map .register ++ (List.range t.slots.length).map .slot

theorem ResourceTable.memIds {t : ResourceTable} {id : ResourceId} : id ∈ t.ids ↔ t.Has id := by
  cases id <;> simp [ids, Has]

namespace State

variable {s : State}

/-! Handles. -/

theorem permutesIff : (∀ k < s.values.size, s.IsValue (s.value ⟨k⟩).next ∧
    ∀ n < s.values.size, (s.value ⟨k⟩).next = (s.value ⟨n⟩).next → k = n) ↔ s.Permutes := by
  constructor
  · intro all
    refine ⟨fun v known => (all v.index known).1, fun v w first second same => ?_⟩
    have index := (all v.index first).2 w.index second same
    exact congrArg ValueId.mk index
  · intro permutes k below
    refine ⟨permutes.known ⟨k⟩ below, fun n other same => ?_⟩
    exact congrArg ValueId.index (permutes.injective ⟨k⟩ ⟨n⟩ below other same)

instance : Decidable s.Permutes := decidable_of_iff _ permutesIff

theorem wellFormedIff : (s.Permutes ∧ s.reads.WellFormed ∧
    (s.resources.slots.length + s.geometry.footer) * wordSize ≤ modulus 32 ∧
    ∀ k < s.values.size, (∀ i ∈ (s.value ⟨k⟩).sites, s.IsSite i) ∧
      ∀ r ∈ (s.value ⟨k⟩).reads, s.reads.IsRead r ∧ s.reads.value r = ⟨k⟩) ↔ s.WellFormed := by
  constructor
  · rintro ⟨rings, reads, frame, all⟩
    refine ⟨rings, fun v i listed => ?_, reads, fun v r chain => ?_, frame⟩
    · exact (all v.index (s.isValueOfSites listed)).1 i listed
    · by_cases there : s.IsValue v
      · exact (all v.index there).2 r chain
      · rw [s.valueOutside there] at chain
        cases chain
  · intro formed
    exact ⟨formed.rings, formed.reads, formed.frame, fun k _ =>
      ⟨formed.listed ⟨k⟩, formed.heads ⟨k⟩⟩⟩

instance : Decidable s.WellFormed := decidable_of_iff _ wellFormedIff

/-! Owners. -/

def RecordedAt (s : State) (id : ResourceId) : Prop :=
  s.Free id → ∀ o ∈ s.owner? id,
    o.site ∈ (s.value o.value).sites ∧ s.resource? o.site = some id

instance (id : ResourceId) : Decidable (s.RecordedAt id) :=
  inferInstanceAs (Decidable (_ → _))

def HeldAt (s : State) (v : ValueId) : Prop :=
  s.Live v → ∀ i ∈ (s.value v).sites, ∀ id ∈ s.resource? i, s.resources.Has id → s.Free id →
    s.owner? id = some ⟨v, i⟩

instance (v : ValueId) : Decidable (s.HeldAt v) := inferInstanceAs (Decidable (_ → _))

theorem ownedIff : ((∀ id ∈ s.resources.ids, s.RecordedAt id) ∧
    ∀ k < s.values.size, s.HeldAt ⟨k⟩) ↔ s.Owned := by
  constructor
  · rintro ⟨recorded, held⟩
    refine ⟨fun id o free owner => ?_, fun v i id live listed names has free => ?_⟩
    · have there := ResourceTable.memIds.mpr (ResourceTable.hasOfOwner owner)
      exact recorded id there free o owner
    · exact held v.index (s.isValueOfSites listed) live i listed id names has free
  · intro owned
    exact ⟨fun id _ free o owner => owned.recorded id o free owner,
      fun k _ live i listed id names has free => owned.held ⟨k⟩ i id live listed names has free⟩

instance : Decidable s.Owned := decidable_of_iff _ ownedIff

theorem takenIff : (∀ id ∈ s.resources.ids, s.Free id → ∀ o ∈ s.owner? id,
    (s.site o.site).isTaken = true) ↔ s.Taken := by
  constructor
  · intro all id o free owner
    exact all id (ResourceTable.memIds.mpr (ResourceTable.hasOfOwner owner)) free o owner
  · exact fun taken id _ free o owner => taken id o free owner

instance : Decidable s.Taken := decidable_of_iff _ takenIff

/-! Lists and counts. -/

theorem listedOnceIff : (∀ k < s.values.size, (s.value ⟨k⟩).sites.Nodup ∧
    ∀ n < s.values.size, ∀ i ∈ (s.value ⟨k⟩).sites, i ∈ (s.value ⟨n⟩).sites → k = n) ↔
      s.ListedOnce := by
  constructor
  · intro all
    refine ⟨fun v => ?_, fun v w i first second => ?_⟩
    · by_cases there : s.IsValue v
      · exact (all v.index there).1
      · rw [s.valueOutside there]
        exact List.nodup_nil
    · have index := (all v.index (s.isValueOfSites first)).2 w.index (s.isValueOfSites second) i
        first second
      exact congrArg ValueId.mk index
  · intro once k _
    exact ⟨once.each ⟨k⟩, fun n _ i first second =>
      congrArg ValueId.index (once.apart ⟨k⟩ ⟨n⟩ i first second)⟩

instance : Decidable s.ListedOnce := decidable_of_iff _ listedOnceIff

theorem countedIff {lent : List Register} : (∀ r < s.resources.registers.length,
    s.Free (.register r) →
      (s.resources.get (.register r)).references = s.uses r + lent.count r) ↔ s.Counted lent :=
  Iff.rfl

instance (lent : List Register) : Decidable (s.Counted lent) :=
  decidable_of_iff _ countedIff

theorem coherentIff {lent : List Register} :
    (s.WellFormed ∧ s.Owned ∧ (∀ id ∈ s.resources.ids, ¬ s.Free id → s.owner? id = none) ∧
      s.Taken ∧ s.ListedOnce ∧ s.Counted lent) ↔ s.Coherent lent := by
  constructor
  · rintro ⟨formed, owned, vacant, taken, once, counted⟩
    refine ⟨formed, owned, fun id held => ?_, taken, once, counted⟩
    cases owner : s.owner? id with
    | none => rfl
    | some o =>
      have there := ResourceTable.memIds.mpr (ResourceTable.hasOfOwner owner)
      exact owner.symm.trans (vacant id there held)
  · exact fun h => ⟨h.formed, h.owned, fun id _ => h.vacant id, h.taken, h.once, h.counted⟩

instance (lent : List Register) : Decidable (s.Coherent lent) := decidable_of_iff _ coherentIff

/-- Two values in registers, and an event that reads each in the register of the other. -/
def crossed : State :=
  let s := (State.empty (X64.describe {}) {} (.recording {})).start 1 0 0 4
  { s with
    values := #[{ kind := .general, next := ⟨0⟩, reads := some ⟨0⟩, sites := [⟨0⟩] },
      { kind := .general, next := ⟨1⟩, reads := some ⟨1⟩, sites := [⟨1⟩] }]
    sites := #[.ofRegister X64.rdi, .ofRegister X64.rsi]
    reads := ⟨#[⟨⟨0⟩, some ⟨0⟩, .single (.register X64.rsi) none none⟩,
      ⟨⟨1⟩, some ⟨0⟩, .single (.register X64.rdi) none none⟩]⟩
    events := #[⟨.dummy, none, ⟨0⟩, 0, none, none, none, [⟨0⟩, ⟨1⟩], none, [], [], [], []⟩]
    resources := (s.resources.setOwner (.register X64.rdi) (some ⟨⟨0⟩, ⟨0⟩⟩)).setOwner
      (.register X64.rsi) (some ⟨⟨1⟩, ⟨1⟩⟩) }

example : crossed.Coherent [] := by decide +kernel

end State

end Lowering
