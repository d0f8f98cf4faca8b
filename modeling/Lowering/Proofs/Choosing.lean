import Lowering.Proofs.Targets
import Lowering.Proofs.Decision
/-!
When there is a target for a read.

A price says how good a candidate is and never rules one out: whatever is added for an owner, an
indirect move and scarcity stays below the impossible. So a strict choice fails exactly if no
resource that can be had suits the read. A read that leaves every slot open is served by the homes
of its value, and by the slot that the next read of the value that takes the location over names.
-/
namespace Lowering

theorem SlotMask.interKeeps (a b : SlotMask) :
    a = .any ∨ a.inter b = a ∨ a.inter b = .none := by
  cases a with
  | any => exact .inl rfl
  | none => exact .inr (.inl rfl)
  | only i =>
    cases b with
    | any => exact .inr (.inl rfl)
    | none => exact .inr (.inr rfl)
    | only j =>
      by_cases same : i = j
      · exact .inr (.inl (if_pos same))
      · exact .inr (.inr (if_neg same))

namespace SiteMask

/-- One mask has the kinds and registers of another at most, and its slots if it keeps any that are
not all. -/
structure Refines (a b : SiteMask) : Prop where
  kinds : ∀ k, a.accepts k = true → b.accepts k = true
  registers : ∀ r, RegisterSet.has a.registers r = true → RegisterSet.has b.registers r = true
  slots : b.slots = .any ∨ a.slots = b.slots ∨ a.slots = .none

theorem Refines.refl (a : SiteMask) : a.Refines a := ⟨fun _ h => h, fun _ h => h, .inr (.inl rfl)⟩

theorem Refines.trans {a b c : SiteMask} (first : a.Refines b) (second : b.Refines c) :
    a.Refines c := by
  refine ⟨fun k h => second.kinds k (first.kinds k h),
    fun r h => second.registers r (first.registers r h), ?_⟩
  rcases second.slots with open' | same | closed
  · exact .inl open'
  · rw [← same]
    exact first.slots
  · rcases first.slots with open' | same | closed'
    · rw [closed] at open'
      cases open'
    · exact .inr (.inr (same.trans closed))
    · exact .inr (.inr closed')

theorem refinesInter (a b : SiteMask) : (a.inter b).Refines a where
  kinds k h := by
    rw [accepts, inter, KindSet.hasInter, Bool.and_eq_true] at h
    exact h.1
  registers r h := by
    rw [inter, RegisterSet.hasInter, Bool.and_eq_true] at h
    exact h.1
  slots := SlotMask.interKeeps a.slots b.slots

end SiteMask

namespace ReadTable

theorem narrowEachRefines {narrow : ReadTable → ReadId → SiteMask → Narrowed}
    (each : ∀ t r mask, (narrow t r mask).mask.Refines mask) (reads : List ReadId) :
    ∀ t mask, (narrowEach narrow reads t mask).2.1.Refines mask := by
  induction reads with
  | nil => exact fun _ mask => .refl mask
  | cons r rest ih => exact fun t mask => (ih _ _).trans (each t r mask)

theorem narrowWithinRefines (fuel : Nat) : ∀ entered depth t r mask,
    (narrowWithin fuel entered depth t r mask).mask.Refines mask := by
  induction fuel with
  | zero => exact fun _ _ _ _ mask => .refl mask
  | succ fuel ih =>
    intro entered depth t r mask
    unfold narrowWithin
    cases t.kind r with
    | single own successor next => exact SiteMask.refinesInter mask own
    | fork reads paths taken =>
      dsimp only
      split
      · exact .refl mask
      split
      · exact .refl mask
      · exact narrowEachRefines (ih _ _) reads t mask
    | stub next target valid =>
      dsimp only
      split
      · exact .refl mask
      cases target with
      | none => exact .refl mask
      | some target => exact ih _ _ t target mask

theorem narrowRefines (t : ReadTable) (r : ReadId) (mask : SiteMask) (depth : Nat) :
    (t.narrow r mask depth).mask.Refines mask :=
  narrowWithinRefines _ _ _ _ _ _

end ReadTable

namespace Target

theorem cheaperFirst (a b : Target) : (a.cheaper b).cost ≤ a.cost := by
  unfold cheaper
  split
  · exact Nat.le_of_lt ‹_›
  · exact Nat.le_refl _

theorem cheaperSecond (a b : Target) : (a.cheaper b).cost ≤ b.cost := by
  unfold cheaper
  split
  · exact Nat.le_refl _
  · exact Nat.not_lt.mp ‹_›

theorem cheapestLe {t : Target} {ts : List Target} (member : t ∈ ts) :
    (cheapest ts).cost ≤ t.cost := by
  have fold : ∀ (ts : List Target) (start : Target), (ts.foldl cheaper start).cost ≤ start.cost ∧
      ∀ t ∈ ts, (ts.foldl cheaper start).cost ≤ t.cost := by
    intro ts
    induction ts with
    | nil => exact fun start => ⟨Nat.le_refl _, fun _ h => absurd h List.not_mem_nil⟩
    | cons head rest ih =>
      intro start
      obtain ⟨below, each⟩ := ih (start.cheaper head)
      refine ⟨below.trans (cheaperFirst start head), fun t h => ?_⟩
      rcases List.mem_cons.mp h with rfl | later
      · exact below.trans (cheaperSecond start t)
      · exact each t later
  exact (fold ts impossible).2 t member

end Target

namespace State

variable {s : State}

def Provides (s : State) : ResourceId → Prop
  | .register r => r < s.machine.registerCount ∧
      (RegisterSet.has s.machine.general r = true ∨ RegisterSet.has s.machine.float r = true)
  | .slot n => n < s.resources.slots.length

instance : DecidablePred s.Provides := fun id =>
  match id with
  | .register _ => inferInstanceAs (Decidable (_ ∧ _))
  | .slot _ => inferInstanceAs (Decidable (_ < _))

structure Usable (s : State) (id : ResourceId) : Prop where
  offered : s.Provides id
  unreserved : (s.resources.get id).reserved = false
  unfrozen : (s.resources.get id).freezes = 0
  unreferred : (s.resources.get id).references = 0

theorem usableIff {id : ResourceId} :
    s.Usable id ↔ s.Provides id ∧ (s.resources.get id).isUnavailable = false := by
  simp only [Resource.isUnavailable, Bool.or_eq_false_iff, decide_eq_false_iff_not, not_lt,
    nonpos_iff_eq_zero]
  exact ⟨fun h => ⟨h.offered, ⟨h.unreserved, h.unfrozen⟩, h.unreferred⟩,
    fun ⟨offered, ⟨unreserved, unfrozen⟩, unreferred⟩ =>
      ⟨offered, unreserved, unfrozen, unreferred⟩⟩

instance : DecidablePred s.Usable := fun _ => decidable_of_iff _ usableIff.symm

theorem orderIff {r : Register} : r ∈ s.registerOrder ↔ s.Provides (.register r) := by
  simp only [registerOrder, List.mem_append, List.mem_filter, List.mem_reverse, List.mem_range,
    Provides, and_or_left]

/-- What a mask has for a value: its registers, the slot it names, and the homes of the value if it
names none. -/
def Includes (s : State) (v : ValueId) (mask : SiteMask) : ResourceId → Prop
  | .register r => mask.accepts .register = true ∧ RegisterSet.has mask.registers r = true
  | .slot n => mask.accepts .memory = true ∧
      (mask.slots = .any ∧ s.isHome v n = true ∨ mask.slots = .only n)

instance (v : ValueId) (mask : SiteMask) : DecidablePred (s.Includes v mask) := fun id =>
  match id with
  | .register _ => inferInstanceAs (Decidable (_ ∧ _))
  | .slot _ => inferInstanceAs (Decidable (_ ∧ _))

/-- What a strict choice may answer. A slot that only the next read names has to be one the read
itself leaves open. -/
def Fulfils (s : State) (r : ReadId) (id : ResourceId) : Prop :=
  s.Includes (s.reads.value r) (s.wanted r) id ∨
    ∃ narrower ∈ s.preferred r, ∃ n, id = .slot n ∧ narrower.accepts .memory = true ∧
      narrower.slots = .only n ∧ (s.wanted r).accepts .memory = true ∧ (s.wanted r).slots = .any

theorem fulfilsOfPreferred {r : ReadId} {narrower : SiteMask} {id : ResourceId}
    (next : s.preferred r = some narrower) (refines : narrower.Refines (s.wanted r))
    (included : s.Includes (s.reads.value r) narrower id) : s.Fulfils r id := by
  cases id with
  | register n => exact .inl ⟨refines.kinds _ included.1, refines.registers n included.2⟩
  | slot n =>
    obtain ⟨accepts, which⟩ := included
    have memory := refines.kinds _ accepts
    rcases which with ⟨every, home⟩ | only
    · rcases refines.slots with same | same | closed
      · exact .inl ⟨memory, .inl ⟨same, home⟩⟩
      · exact .inl ⟨memory, .inl ⟨same.symm.trans every, home⟩⟩
      · rw [every] at closed
        cases closed
    · rcases refines.slots with same | same | closed
      · exact .inr ⟨narrower, next, n, rfl, accepts, only, memory, same⟩
      · exact .inl ⟨memory, .inr (same.symm.trans only)⟩
      · rw [only] at closed
        cases closed

/-! The answer can be had. -/

def Awards (s : State) (P : ResourceId → Prop) (t : Target) : Prop :=
  t.isImpossible = false → s.Usable t.resource ∧ P t.resource

variable {P : ResourceId → Prop} {v : ValueId} {moved : Option ValueId} {mask : SiteMask}
  {penalty : Nat} {best : Target}

theorem awardsImpossible : s.Awards P .impossible := fun h => by
  rw [Target.impossibleIs] at h
  cases h

theorem awardsRaised (n : Nat) (t : Target) (h : s.Awards P t) :
    s.Awards P { t with cost := t.cost + n } :=
  fun possible => h (Target.possibleOfRaised possible)

theorem awardsRegister {v : Option ValueId} {r : Register} (listed : r ∈ s.registerOrder)
    (holds : P (.register r)) : s.Awards P (s.registerTarget v moved r) := by
  intro possible
  rw [Target.possibleIff] at possible
  exact ⟨usableIff.mpr ⟨orderIff.mp listed,
    resourceCostPossible (Nat.lt_of_le_of_lt (Nat.le_add_right _ _) possible)⟩, holds⟩

theorem awardsSlot {n : Nat} (holds : P (.slot n)) : s.Awards P (s.slotTarget v moved n) := by
  intro possible
  obtain ⟨available, inside, -⟩ := slotObtainable v moved n possible
  exact ⟨usableIff.mpr ⟨inside n rfl, available⟩, holds⟩

theorem awardsWithin (start : s.Awards P best) (admitted : ∀ id, s.Includes v mask id → P id) :
    s.Awards P (s.chooseWithin v mask penalty best moved) :=
  chooseWithinSpec v mask penalty best moved start awardsImpossible (awardsRaised penalty)
    (fun accepts r listed member => awardsRegister listed (admitted (.register r) ⟨accepts, member⟩))
    (fun accepts n which => awardsSlot (admitted (.slot n) ⟨accepts, which⟩))

/-! What can be had is not priced out. -/

def dearest : Nat := targetCosts.indirect + targetCosts.stealLast + targetCosts.slot

theorem moveCostFew (s : State) (v : ValueId) (dst : SiteMask) :
    s.moveCost v dst ≤ targetCosts.indirect := by
  unfold moveCost
  dsimp only
  split
  · exact Nat.zero_le _
  · exact Nat.le_refl _

theorem resourceCostFew {v : Option ValueId} {id : ResourceId} (usable : s.Usable id) :
    s.resourceCost v id mask moved ≤ targetCosts.indirect + targetCosts.stealLast := by
  have base : moved.elim 0 (s.moveCost · mask) ≤ targetCosts.indirect := by
    cases moved with
    | none => exact Nat.zero_le _
    | some m => exact s.moveCostFew m mask
  have cheaper : targetCosts.steal ≤ targetCosts.stealLast := by decide
  unfold resourceCost
  simp only [(usableIff.mp usable).2, Bool.false_eq_true, if_false]
  split
  · omega
  · split
    · omega
    split
    · omega
    · omega

theorem registerCostFew {v : Option ValueId} {r : Register} (usable : s.Usable (.register r)) :
    (s.registerTarget v moved r).cost ≤ dearest := by
  have price : s.resourceCost v (.register r) (.register r) moved ≤
      targetCosts.indirect + targetCosts.stealLast := resourceCostFew usable
  have free : targetCosts.register ≤ targetCosts.slot := by decide
  simp only [registerTarget, dearest]
  omega

theorem slotCostFew {n : Nat} (usable : s.Usable (.slot n)) :
    (s.slotTarget v moved n).cost ≤ dearest := by
  have price : s.resourceCost (some v) (.slot n) (.slot n) moved ≤
      targetCosts.indirect + targetCosts.stealLast := resourceCostFew usable
  have inside : ¬ s.resources.slots.length ≤ n := Nat.not_le.mpr usable.offered
  simp only [slotTarget, dearest, ge_iff_le, inside, if_false]
  omega

theorem chooseRegisterLe (v moved : Option ValueId) {registers : RegisterSet} {r : Register}
    (listed : r ∈ s.registerOrder) (member : RegisterSet.has registers r = true) :
    (s.chooseRegister v registers moved).cost ≤ (s.registerTarget v moved r).cost := by
  have candidate : r ∈ s.registerOrder.filter (RegisterSet.has registers) :=
    List.mem_filter.mpr ⟨listed, member⟩
  unfold chooseRegister
  dsimp only
  cases only : (s.registerOrder.filter (RegisterSet.has registers)).find?
      (RegisterSet.single · == registers) with
  | some r' =>
    -- there is no other register in the set
    have single : RegisterSet.single r' = registers := by simpa using List.find?_some only
    rw [← single] at member
    rw [← RegisterSet.hasSingle member]
  | none => exact Target.cheapestLe (List.mem_map_of_mem candidate)

theorem chooseRegisterFew {v : Option ValueId} {registers : RegisterSet} {r : Register}
    (usable : s.Usable (.register r)) (member : RegisterSet.has registers r = true) :
    (s.chooseRegister v registers moved).cost ≤ dearest :=
  (chooseRegisterLe v moved (orderIff.mpr usable.offered) member).trans (registerCostFew usable)

theorem vacantCost {v : Option ValueId} {r : Register} (usable : s.Usable (.register r))
    (vacant : s.owner? (.register r) = none) :
    (s.registerTarget v none r).cost = targetCosts.register := by
  rw [owner?] at vacant
  simp [registerTarget, resourceCost, (usableIff.mp usable).2, vacant]

theorem stealCost {r : Register} {o : Owner} (owner : s.owner? (.register r) = some o) :
    targetCosts.steal ≤ (s.registerTarget none none r).cost := by
  rw [owner?] at owner
  have dearer : targetCosts.steal ≤ targetCosts.stealLast := by decide
  have most : targetCosts.steal ≤ targetCosts.impossible := by decide
  simp only [registerTarget, resourceCost, owner, Option.any_none, Bool.false_eq_true, if_false,
    Option.elim_none, Nat.zero_add]
  split
  · omega
  · split <;> omega

theorem chooseRegisterVacant {registers : RegisterSet} {r n : Register}
    (chosen : (s.chooseRegister none registers none).resource = .register r)
    (usable : s.Usable (.register n)) (member : RegisterSet.has registers n = true)
    (vacant : s.owner? (.register n) = none) : s.owner? (.register r) = none := by
  have low : (s.chooseRegister none registers none).cost ≤ targetCosts.register :=
    (chooseRegisterLe none none (orderIff.mpr usable.offered) member).trans_eq
      (vacantCost usable vacant)
  cases owner : s.owner? (.register r) with
  | none => rfl
  | some o =>
    have high : targetCosts.steal ≤ (s.chooseRegister none registers none).cost := by
      refine chooseRegisterSpec (P := fun t =>
        t.resource = .register r → targetCosts.steal ≤ t.cost) none none registers
        (fun _ => by decide) (fun k _ _ same => ?_) chosen
      cases same
      exact stealCost owner
    exact absurd (high.trans low) (by decide)

theorem chooseHomeFew {n : Nat} (usable : s.Usable (.slot n)) (home : s.isHome v n = true) :
    (s.chooseHome v moved).cost ≤ dearest :=
  (Target.cheapestLe (List.mem_map_of_mem (homeIff.mp home))).trans (slotCostFew usable)

theorem chooseWithinNoDearer (s : State) (v : ValueId) (mask : SiteMask) (penalty : Nat)
    (best : Target) (moved : Option ValueId) :
    (s.chooseWithin v mask penalty best moved).cost ≤ best.cost := by
  unfold chooseWithin
  have first : ∀ t : Target,
      (if mask.accepts .register then best.cheaper t else best).cost ≤ best.cost := by
    intro t
    split
    · exact Target.cheaperFirst _ _
    · exact Nat.le_refl _
  dsimp only
  split
  · split
    · exact (Target.cheaperFirst _ _).trans (first _)
    · exact (Target.cheaperFirst _ _).trans (first _)
    · exact first _
  · exact first _

theorem chooseWithinFew {id : ResourceId} (usable : s.Usable id) (included : s.Includes v mask id)
    (low : penalty ≤ targetCosts.scarce) :
    (s.chooseWithin v mask penalty best moved).cost ≤ dearest + targetCosts.scarce := by
  unfold chooseWithin
  cases id with
  | register r =>
    obtain ⟨accepts, member⟩ := included
    have price : (s.chooseRegister (some v) mask.registers moved).cost ≤ dearest :=
      chooseRegisterFew usable member
    have enough : (best.cheaper { s.chooseRegister (some v) mask.registers moved with
        cost := (s.chooseRegister (some v) mask.registers moved).cost + penalty }).cost ≤
        dearest + targetCosts.scarce :=
      (Target.cheaperSecond _ _).trans (Nat.add_le_add price low)
    simp only [accepts, if_true]
    split
    · split
      · exact (Target.cheaperFirst _ _).trans enough
      · exact (Target.cheaperFirst _ _).trans enough
      · exact enough
    · exact enough
  | slot n =>
    obtain ⟨accepts, which⟩ := included
    simp only [accepts, if_true]
    rcases which with ⟨every, home⟩ | only
    · simp only [every]
      exact ((Target.cheaperSecond _ _).trans (chooseHomeFew usable home)).trans
        (Nat.le_add_right _ _)
    · simp only [only]
      exact ((Target.cheaperSecond _ _).trans (slotCostFew usable)).trans (Nat.le_add_right _ _)

theorem possibleOfFew {t : Target} (few : t.cost ≤ dearest + targetCosts.scarce) :
    t.isImpossible = false := by
  rw [Target.possibleIff]
  exact Nat.lt_of_le_of_lt few (by decide)

theorem preferredRefines {r : ReadId} {narrower : SiteMask} (next : s.preferred r = some narrower) :
    narrower.Refines (s.wanted r) := by
  unfold preferred successorMask? at next
  split at next
  · cases next
  dsimp only at next
  split at next
  · cases next
  dsimp only at next
  split at next
  · cases next
    exact ReadTable.narrowRefines _ _ _ _
  · cases next

theorem askedUsable (reads : ReadTable) (id : ResourceId) :
    ({ s with reads } : State).Usable id ↔ s.Usable id := by
  rw [usableIff, usableIff]
  cases id with
  | register r => exact Iff.rfl
  | slot n => exact Iff.rfl

theorem askedIncludes (reads : ReadTable) (v : ValueId) (mask : SiteMask) (id : ResourceId) :
    ({ s with reads } : State).Includes v mask id ↔ s.Includes v mask id := by
  cases id with
  | register r => exact Iff.rfl
  | slot n =>
    have ring : ({ s with reads } : State).ring v = s.ring v := by
      refine ringCongr ?_ ?_ v
      · rfl
      · exact fun _ => rfl
    have home : ({ s with reads } : State).isHome v n = s.isHome v n := by
      rw [isHome, ring]
      rfl
    rw [Includes, Includes, home]

theorem strictChoicePossible {narrower : Option SiteMask} {id : ResourceId} (usable : s.Usable id)
    (included : s.Includes v mask id ∨ ∃ m ∈ narrower, s.Includes v m id)
    (low : penalty ≤ targetCosts.scarce) :
    (s.strictChoice v mask narrower penalty moved).isImpossible = false := by
  unfold strictChoice
  dsimp only
  split
  · exact Target.possibleOfCheap ‹_›
  · apply possibleOfFew
    rcases included with included | ⟨m, rfl, included⟩
    · exact chooseWithinFew usable included low
    · exact (chooseWithinNoDearer ..).trans (chooseWithinFew usable included low)

theorem strictChoiceFulfils (s : State) (r : ReadId) (reserve : Nat) (moved : Option ValueId)
    {t : Target} (choice : t = (s.asked r).choice true (s.reads.value r) (s.wanted r)
      (s.preferred r) (s.scarcity reserve) moved) :
    (t.isImpossible = false → s.Fulfils r t.resource) ∧
      ((∃ id, s.Usable id ∧ s.Fulfils r id) → t.isImpossible = false) := by
  obtain ⟨reads, state⟩ := s.askedReads r
  rw [state] at choice
  subst choice
  constructor
  · intro possible
    have awards : State.Awards { s with reads } (s.Fulfils r)
        (({ s with reads } : State).strictChoice (s.reads.value r) (s.wanted r) (s.preferred r)
          (s.scarcity reserve) moved) :=
      strictChoiceSpec
        (fun m next => awardsWithin awardsImpossible fun id included =>
          fulfilsOfPreferred next (preferredRefines next) ((askedIncludes reads _ _ id).mp included))
        awardsImpossible
        fun _ start => awardsWithin start fun id included =>
          .inl ((askedIncludes reads _ _ id).mp included)
    exact (awards possible).2
  · rintro ⟨id, usable, fulfils⟩
    have low : s.scarcity reserve ≤ targetCosts.scarce := by
      unfold scarcity
      split
      · exact Nat.zero_le _
      · exact Nat.le_refl _
    refine strictChoicePossible ((askedUsable reads id).mpr usable) ?_ low
    rcases fulfils with included | ⟨m, next, n, rfl, accepts, only, -⟩
    · exact .inl ((askedIncludes reads _ _ id).mpr included)
    · exact .inr ⟨m, next, accepts, .inr only⟩

end State

/- A target that is answered can be had, however it was asked for. A strict search answers one that
suits the read, and there is no match exactly if nothing that can be had does. -/
theorem targetsUsable (s : State) (r : ReadId) (reserve : Nat) (moved : Option ValueId) :
    (∀ strict t s', chooseTarget r strict reserve moved s = .ok t s' →
      s.Usable t.resource ∧ (strict = true → s.Fulfils r t.resource)) ∧
    ((∃ t s', chooseTarget r true reserve moved s = .ok t s') ↔
      ∃ id, s.Usable id ∧ s.Fulfils r id) ∧
    ((∃ s', chooseTarget r true reserve moved s =
        .error (.impossibleTarget (.noMatch (s.reads.value r) (s.wanted r))) s') ↔
      ∀ id, s.Usable id → ¬ s.Fulfils r id) := by
  have answered : ∀ strict t s', chooseTarget r strict reserve moved s = .ok t s' →
      s.Usable t.resource ∧ (strict = true → s.Fulfils r t.resource) := by
    intro strict t s' ok
    obtain ⟨choice, possible, -⟩ := chooseTargetOk ok
    constructor
    · obtain ⟨reads, state⟩ := s.askedReads r
      have awarded : (s.asked r).Awards (fun _ => True) t := by
        rw [choice]
        exact State.choiceSpec strict State.awardsImpossible (State.awardsRaised _)
          (fun _ _ listed _ => State.awardsRegister listed trivial)
          (fun _ => State.awardsSlot trivial)
      rw [state] at awarded
      exact (State.askedUsable reads _).mp (awarded possible).1
    · rintro rfl
      exact (s.strictChoiceFulfils r reserve moved choice).1 possible
  obtain ⟨fulfils, possible⟩ := s.strictChoiceFulfils r reserve moved rfl
  have outcome := s.chooseTargetIs r true reserve moved rfl
  generalize (s.asked r).choice true _ _ _ _ moved = t at fulfils possible outcome
  refine ⟨answered, ⟨?_, ?_⟩, ⟨?_, ?_⟩⟩
  · rintro ⟨t, s', ok⟩
    obtain ⟨usable, fulfils⟩ := answered true t s' ok
    exact ⟨t.resource, usable, fulfils rfl⟩
  · intro found
    exact ⟨t, s.asked r, by rw [outcome, if_neg (by simp [possible found])]⟩
  · rintro ⟨s', failed⟩ id usable fulfils
    rw [outcome, if_neg (by simp [possible ⟨id, usable, fulfils⟩])] at failed
    cases failed
  · intro none
    have failed : t.isImpossible = true := by
      by_contra possible'
      have ok : chooseTarget r true reserve moved s = .ok t (s.asked r) := by
        rw [outcome, if_neg possible']
      obtain ⟨usable, fulfils⟩ := answered true t _ ok
      exact none t.resource usable (fulfils rfl)
    exact ⟨s.asked r, by rw [outcome, if_pos failed, if_pos rfl]⟩

/-- A value without a home that is wanted in memory. The next value, which takes its place, is wanted
in one slot. -/
def State.handedOn : State :=
  { (State.empty (X64.describe {}) {} (.recording {})).start 1 0 0 4 with
    values := #[{ kind := .general, next := ⟨0⟩, reads := some ⟨1⟩ },
      { kind := .general, next := ⟨1⟩, reads := some ⟨0⟩ }]
    reads := ⟨#[⟨⟨1⟩, none, .single ⟨OperandKind.memory.bit, 0#64, .only 2⟩ none none⟩,
      ⟨⟨0⟩, none, .single ⟨OperandKind.memory.bit, RegisterSet.all, .any⟩ (some ⟨1⟩) none⟩]⟩ }

theorem handedOnUsable : ∃ t s', chooseTarget ⟨1⟩ true 2 none .handedOn = .ok t s' ∧
    State.handedOn.Usable t.resource ∧ State.handedOn.Fulfils ⟨1⟩ t.resource := by
  obtain ⟨t, s', ok⟩ : Build.Succeeds (chooseTarget ⟨1⟩ true 2 none) .handedOn := by decide +kernel
  obtain ⟨usable, fulfils⟩ := (targetsUsable .handedOn ⟨1⟩ 2 none).1 true t s' ok
  exact ⟨t, s', ok, usable, fulfils rfl⟩

/- What the mask of the read includes tells neither what a strict search answers nor when it fails: here it
answers the slot that the next value is wanted in, and the value has no home. -/
theorem homesAreNotAll :
    (¬ ∀ (s : State) (r : ReadId) (reserve : Nat) (moved : Option ValueId) (t : Target) (s' : State),
      chooseTarget r true reserve moved s = .ok t s' →
        s.Includes (s.reads.value r) (s.wanted r) t.resource) ∧
    ¬ ∀ (s : State) (r : ReadId) (reserve : Nat) (moved : Option ValueId),
      (∃ s', chooseTarget r true reserve moved s =
          .error (.impossibleTarget (.noMatch (s.reads.value r) (s.wanted r))) s') ↔
        ∀ id, s.Usable id → ¬ s.Includes (s.reads.value r) (s.wanted r) id := by
  have nothing : ∀ id, ¬ State.handedOn.Includes ⟨0⟩ (State.handedOn.wanted ⟨1⟩) id := by
    rintro (r | n) ⟨accepts, which⟩
    · exact absurd accepts (by decide +kernel)
    · rcases which with ⟨-, home⟩ | only
      · have ring : State.handedOn.ring ⟨0⟩ = [⟨0⟩] := State.ringAlone rfl
        rw [State.isHome, ring] at home
        cases home
      · exact absurd only (by
          have every : (State.handedOn.wanted ⟨1⟩).slots = .any := by decide +kernel
          rw [every]
          exact SlotMask.noConfusion)
  obtain ⟨t, s', ok⟩ : Build.Succeeds (chooseTarget ⟨1⟩ true 2 none) .handedOn := by decide +kernel
  constructor
  · intro all
    exact nothing _ (all .handedOn ⟨1⟩ 2 none t s' ok)
  · intro all
    obtain ⟨u, failed⟩ := (all .handedOn ⟨1⟩ 2 none).mpr fun id _ => nothing id
    rw [ok] at failed
    cases failed

end Lowering
