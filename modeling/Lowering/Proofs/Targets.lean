import Lowering.Proofs.Outcome
import Lowering.Proofs.Rearrangement
import Mathlib.Data.Nat.Cast.Order.Basic
import Mathlib.Data.Int.Cast.Lemmas
/-!
Where a value is sent.

A target that is returned can be had: it is not reserved, frozen or referred to. A strict choice
meets the mask of the read it was made for.
-/
namespace Lowering

theorem FrameGeometry.indexOffset (g : FrameGeometry) {n : Nat}
    (inside : (n + g.footer) * wordSize < modulus 32) : g.index (g.offset n) = n := by
  have wrapped : unsigned 32 (g.offset n) = (n + g.footer) * wordSize := by
    unfold unsigned offset signed
    have same : ((((n + g.footer) * wordSize : Nat) : Int).bmod (modulus 32)).emod (modulus 32) =
        (((n + g.footer) * wordSize : Nat) : Int).emod (modulus 32) := Int.bmod_emod
    rw [← Nat.cast_add, ← Nat.cast_mul, same]
    have small : (((n + g.footer) * wordSize : Nat) : Int).emod (modulus 32) =
        ((n + g.footer) * wordSize : Nat) :=
      Int.emod_eq_of_lt (Int.natCast_nonneg _) (by exact_mod_cast inside)
    rw [small, Int.toNat_natCast]
  rw [index, wrapped]
  simp [wordSize]

namespace Target

theorem possibleIff {t : Target} : t.isImpossible = false ↔ t.cost < targetCosts.impossible := by
  simp [isImpossible]

def Obtainable (s : State) (t : Target) : Prop :=
  t.isImpossible = false → (s.resources.get t.resource).isUnavailable = false ∧
    (∀ n, t.resource = .slot n → n < s.resources.slots.length) ∧
    ∀ r, t.resource = .register r → r < 64 ∧ r < s.machine.registerCount

def Meets (g : FrameGeometry) (mask : SiteMask) (t : Target) : Prop :=
  t.isImpossible = false → (t.toSite g).satisfies g mask = true

theorem cheaperCases (a b : Target) : a.cheaper b = a ∨ a.cheaper b = b := by
  unfold cheaper
  split
  · exact .inr rfl
  · exact .inl rfl

theorem cheapestCases (ts : List Target) : cheapest ts = impossible ∨ cheapest ts ∈ ts := by
  have fold : ∀ (ts : List Target) (start : Target),
      ts.foldl cheaper start = start ∨ ts.foldl cheaper start ∈ ts := by
    intro ts
    induction ts with
    | nil => exact fun _ => .inl rfl
    | cons t rest ih =>
      intro start
      rcases ih (start.cheaper t) with same | member
      · rcases cheaperCases start t with old | new
        · exact .inl (by rw [List.foldl_cons, same, old])
        · exact .inr (by rw [List.foldl_cons, same, new]; exact List.mem_cons_self)
      · exact .inr (List.mem_cons_of_mem _ member)
  exact fold ts impossible

theorem impossibleIs : impossible.isImpossible = true := by decide

theorem possibleOfRaised {t : Target} {n : Nat}
    (h : ({ t with cost := t.cost + n } : Target).isImpossible = false) :
    t.isImpossible = false := by
  rw [possibleIff] at h ⊢
  exact Nat.lt_of_le_of_lt (Nat.le_add_right _ _) h

theorem possibleOfCheap {t : Target} (h : t.cost ≤ targetCosts.slot) : t.isImpossible = false := by
  rw [possibleIff]
  exact Nat.lt_of_le_of_lt h (by decide)

end Target

namespace State

variable {s : State}

theorem resourceCostPossible {v moved : Option ValueId} {id : ResourceId} {mask : SiteMask}
    (h : s.resourceCost v id mask moved < targetCosts.impossible) :
    (s.resources.get id).isUnavailable = false := by
  cases taken : (s.resources.get id).isUnavailable with
  | false => rfl
  | true => simp [resourceCost, taken] at h

theorem registerOrderNumbered {r : Register} (member : r ∈ s.registerOrder) :
    r < s.machine.registerCount := by
  simp only [registerOrder, List.mem_append, List.mem_filter, List.mem_reverse,
    List.mem_range] at member
  rcases member with ⟨numbered, -⟩ | ⟨numbered, -⟩
  · exact numbered
  · exact numbered

theorem registerObtainable (v moved : Option ValueId) {mask : RegisterSet} {r : Register}
    (listed : r ∈ s.registerOrder) (member : RegisterSet.has mask r = true) :
    (s.registerTarget v moved r).Obtainable s := by
  intro possible
  rw [Target.possibleIff] at possible
  refine ⟨resourceCostPossible (Nat.lt_of_le_of_lt (Nat.le_add_right _ _) possible), ?_, ?_⟩
  · intro n same
    cases same
  · intro r' same
    cases same
    exact ⟨BitVec.lt_of_getLsbD member, registerOrderNumbered listed⟩

theorem slotObtainable (v : ValueId) (moved : Option ValueId) (n : Nat) :
    (s.slotTarget v moved n).Obtainable s := by
  intro possible
  rw [Target.possibleIff] at possible
  unfold slotTarget at possible
  dsimp only at possible
  split at possible
  · exact absurd possible (Nat.lt_irrefl _)
  · rename_i inside
    refine ⟨resourceCostPossible (Nat.lt_of_le_of_lt (Nat.le_add_right _ _) possible), ?_, ?_⟩
    · intro m same
      cases same
      exact Nat.not_le.mp inside
    · intro r same
      cases same

theorem chooseRegisterSpec {P : Target → Prop} (v moved : Option ValueId) (mask : RegisterSet)
    (impossible : P .impossible)
    (each : ∀ r ∈ s.registerOrder, RegisterSet.has mask r = true → P (s.registerTarget v moved r)) :
    P (s.chooseRegister v mask moved) := by
  have candidate : ∀ r ∈ s.registerOrder.filter (RegisterSet.has mask),
      P (s.registerTarget v moved r) := fun r member =>
    each r (List.mem_filter.mp member).1 (List.mem_filter.mp member).2
  unfold chooseRegister
  dsimp only
  cases only : (s.registerOrder.filter (RegisterSet.has mask)).find? (RegisterSet.single · == mask)
    with
  | some r => exact candidate r (List.mem_of_find?_eq_some only)
  | none =>
    rcases Target.cheapestCases
      ((s.registerOrder.filter (RegisterSet.has mask)).map (s.registerTarget v moved)) with h | h
    · simpa [h] using impossible
    · obtain ⟨r, member, same⟩ := List.mem_map.mp h
      simp only [← same]
      exact candidate r member

theorem homeIff {v : ValueId} {n : Nat} :
    s.isHome v n = true ↔ n ∈ (s.ring v).filterMap fun m => (s.value m).home := by
  simp [isHome, List.mem_filterMap]

theorem chooseHomeSpec {P : Target → Prop} (v : ValueId) (moved : Option ValueId)
    (impossible : P .impossible)
    (each : ∀ n, s.isHome v n = true → P (s.slotTarget v moved n)) :
    P (s.chooseHome v moved) := by
  unfold chooseHome
  rcases Target.cheapestCases (((s.ring v).filterMap fun m => (s.value m).home).map
    (s.slotTarget v moved)) with h | h
  · rw [h]
    exact impossible
  · obtain ⟨n, home, same⟩ := List.mem_map.mp h
    rw [← same]
    exact each n (homeIff.mpr home)

theorem chooseSlotSpec {P : Target → Prop} (v : ValueId) (moved : Option ValueId)
    (impossible : P .impossible) (each : ∀ n, P (s.slotTarget v moved n)) :
    P (s.chooseSlot v moved) := by
  unfold chooseSlot
  rcases Target.cheapestCases ((List.range s.totalFrameSize).map (s.slotTarget v moved)) with h | h
  · rw [h]
    exact impossible
  · obtain ⟨n, -, same⟩ := List.mem_map.mp h
    rw [← same]
    exact each n

theorem cheaperSpec {P : Target → Prop} {a b : Target} (first : P a) (second : P b) :
    P (a.cheaper b) := by
  rcases Target.cheaperCases a b with h | h
  · rw [h]
    exact first
  · rw [h]
    exact second

theorem chooseWithinSpec {P : Target → Prop} (v : ValueId) (mask : SiteMask) (penalty : Nat)
    (best : Target) (moved : Option ValueId) (start : P best) (impossible : P .impossible)
    (raised : ∀ t : Target, P t → P { t with cost := t.cost + penalty })
    (registers : mask.accepts .register = true → ∀ r ∈ s.registerOrder,
      RegisterSet.has mask.registers r = true → P (s.registerTarget (some v) moved r))
    (slots : mask.accepts .memory = true →
      ∀ n, (mask.slots = .any ∧ s.isHome v n = true ∨ mask.slots = .only n) →
        P (s.slotTarget v moved n)) :
    P (s.chooseWithin v mask penalty best moved) := by
  unfold chooseWithin
  have first : P (if mask.accepts .register then
      best.cheaper { s.chooseRegister (some v) mask.registers moved with
        cost := (s.chooseRegister (some v) mask.registers moved).cost + penalty }
      else best) := by
    split
    · rename_i accepts
      exact cheaperSpec start (raised _ (chooseRegisterSpec _ _ _ impossible (registers accepts)))
    · exact start
  dsimp only
  split
  · rename_i accepts
    cases which : mask.slots with
    | any =>
      exact cheaperSpec first
        (chooseHomeSpec v moved impossible fun n home => slots accepts n (.inl ⟨which, home⟩))
    | none => exact first
    | only n => exact cheaperSpec first (slots accepts n (.inr which))
  · exact first

theorem impossibleObtainable : Target.Obtainable s .impossible := fun h => by
  rw [Target.impossibleIs] at h
  cases h

theorem obtainableRaised (penalty : Nat) (t : Target) (h : t.Obtainable s) :
    Target.Obtainable s { t with cost := t.cost + penalty } :=
  fun possible => h (Target.possibleOfRaised possible)

theorem chooseWithinMeets {v : ValueId} {mask : SiteMask} {penalty : Nat} {best : Target}
    {moved : Option ValueId} (start : best.Meets s.geometry mask) :
    (s.chooseWithin v mask penalty best moved).Meets s.geometry mask := by
  refine chooseWithinSpec v mask penalty best moved start ?_ ?_ ?_ ?_
  · intro h
    rw [Target.impossibleIs] at h
    cases h
  · exact fun t h possible => h (Target.possibleOfRaised possible)
  · intro accepts r _ member _
    simp [registerTarget, Target.toSite, Site.ofRegister, Site.satisfies, accepts, member]
  · intro accepts n which _
    rcases which with ⟨which, -⟩ | which
    · simp [slotTarget, Target.toSite, Site.frame, Site.ofMemory, Site.satisfies, accepts, which]
    · simp [slotTarget, Target.toSite, Site.frame, Site.ofMemory, Site.satisfies, accepts, which]

theorem keepsReads (s : State) {reads : ReadTable} (evolves : s.reads.Evolves reads) :
    Keeps s { s with reads } :=
  s.keepsAsk s.statistics s.resources.available evolves

theorem readMaskSpec (formed : s.reads.WellFormed) (v : ValueId) (r : ReadId) :
    ∃ reads, (s.readMask v r).2 = { s with reads } ∧ s.reads.Evolves reads ∧
      ∀ own successor next, s.reads.kind r = .single own successor next →
        (s.readMask v r).1.Within own := by
  refine ⟨(s.reads.narrow r ⟨KindSet.all, s.registersFor (s.value v).kind, .any⟩ 0).table, rfl,
    (ReadTable.narrowSpec formed.ordered r _ 0).evolves, ?_⟩
  intro own successor next kind
  have narrowed : (s.reads.narrow r ⟨KindSet.all, s.registersFor (s.value v).kind, .any⟩ 0).mask.Within
      own := by
    rw [ReadTable.narrowSingle kind]
    exact SiteMask.interWithinRight _ own
  unfold readMask
  dsimp only
  split
  · exact (SiteMask.registersWithin _ _).trans narrowed
  · exact narrowed

theorem successorMaskSpec (formed : s.WellFormed) (r : ReadId) (mask : SiteMask) :
    ∃ reads, (s.successorMask? r mask).2 = { s with reads } ∧ s.reads.Evolves reads ∧
      ∀ narrower, (s.successorMask? r mask).1 = some narrower → narrower.Within mask := by
  unfold successorMask?
  cases successor : s.reads.successor? r with
  | none => exact ⟨s.reads, rfl, .refl _, by simp⟩
  | some v =>
    obtain ⟨reads, state, evolves, -, -⟩ := liveReadSpec formed v
    dsimp only
    rw [state]
    cases (s.liveRead? v).1 with
    | none => exact ⟨reads, rfl, evolves, by simp⟩
    | some next =>
      have narrowed := ReadTable.narrowSpec (evolves.ordered formed.reads.ordered) next mask 0
      refine ⟨(reads.narrow next mask 0).table, rfl, evolves.trans narrowed.evolves, ?_⟩
      intro narrower same
      have shape : (if (reads.narrow next mask 0).valid then some (reads.narrow next mask 0).mask
          else none) = some narrower := same
      split at shape
      · cases shape
        exact narrowed.within
      · cases shape

def wanted (s : State) (r : ReadId) : SiteMask := (s.readMask (s.reads.value r) r).1

def preferred (s : State) (r : ReadId) : Option SiteMask :=
  ((s.readMask (s.reads.value r) r).2.successorMask? r (s.wanted r)).1

def asked (s : State) (r : ReadId) : State :=
  ((s.readMask (s.reads.value r) r).2.successorMask? r (s.wanted r)).2

theorem firstPendingReads (vs : List ValueId) :
    ∀ s : State, ∃ reads, (s.firstPending vs).2 = { s with reads } := by
  induction vs with
  | nil => exact fun s => ⟨s.reads, rfl⟩
  | cons v rest ih =>
    intro s
    have head : ∃ reads, (s.isPending (s.value v).reads).2 = { s with reads } := by
      cases (s.value v).reads with
      | none => exact ⟨s.reads, rfl⟩
      | some r => exact ⟨(s.reads.valid r).2, rfl⟩
    obtain ⟨reads, head⟩ := head
    obtain ⟨reads', later⟩ := ih { s with reads }
    unfold firstPending
    dsimp only
    rw [head]
    split
    · exact ⟨reads, rfl⟩
    · exact ⟨reads', later⟩

theorem askedReads (s : State) (r : ReadId) : ∃ reads, s.asked r = { s with reads } := by
  unfold asked successorMask?
  cases (s.readMask (s.reads.value r) r).2.reads.successor? r with
  | none => exact ⟨(s.reads.narrow r _ 0).table, rfl⟩
  | some v =>
    obtain ⟨reads, pending⟩ := firstPendingReads ((s.readMask (s.reads.value r) r).2.ring v)
      (s.readMask (s.reads.value r) r).2
    dsimp only [liveRead?]
    rw [pending]
    cases ((s.readMask (s.reads.value r) r).2.firstPending _).1 with
    | none => exact ⟨reads, rfl⟩
    | some next => exact ⟨(reads.narrow next (s.wanted r) 0).table, rfl⟩

def scarcity (s : State) (reserve : Nat) : Nat :=
  if s.resources.available > reserve then 0 else targetCosts.scarce

/-- The choice within two masks. What the narrower has is taken if it costs no more than a free
slot. -/
def strictChoice (s : State) (v : ValueId) (mask : SiteMask) (narrower : Option SiteMask)
    (penalty : Nat) (moved : Option ValueId) : Target :=
  let best := narrower.elim .impossible (s.chooseWithin v · penalty .impossible moved)
  if best.cost ≤ targetCosts.slot then best else s.chooseWithin v mask penalty best moved

def lenientChoice (s : State) (v : ValueId) (mask : SiteMask) (narrower : Option SiteMask)
    (penalty : Nat) (moved : Option ValueId) : Target :=
  let best := s.strictChoice v mask narrower penalty moved
  if best.cost ≤ targetCosts.slot then best
  else
    let any := s.chooseRegister (some v) (s.registersFor (s.value v).kind) moved
    let best := (best.cheaper { any with cost := any.cost + penalty }).cheaper (s.chooseHome v moved)
    if best.cost ≥ targetCosts.stealLast && s.resources.available == 0 then s.chooseSlot v moved
    else if best.cost ≥ targetCosts.steal then best.cheaper (s.chooseSlot v moved)
    else best

def choice (s : State) (strict : Bool) (v : ValueId) (mask : SiteMask) (narrower : Option SiteMask)
    (penalty : Nat) (moved : Option ValueId) : Target :=
  if strict then s.strictChoice v mask narrower penalty moved
  else s.lenientChoice v mask narrower penalty moved

open Build in
theorem chooseTargetIs (s : State) (r : ReadId) (strict : Bool) (reserve : Nat)
    (moved : Option ValueId) {t : Target}
    (choice : t = (s.asked r).choice strict (s.reads.value r) (s.wanted r) (s.preferred r)
      (s.scarcity reserve) moved) :
    chooseTarget r strict reserve moved s =
      if t.isImpossible then
        .error (.impossibleTarget (if strict then .noMatch (s.reads.value r) (s.wanted r)
          else .nothingLeft (s.reads.value r))) (s.asked r)
      else .ok t (s.asked r) := by
  obtain ⟨reads, state⟩ := s.askedReads r
  have registers : s.registersFor (s.value (s.reads.value r)).kind =
      (s.asked r).registersFor ((s.asked r).value (s.reads.value r)).kind := by
    rw [state]
    rfl
  subst choice
  rw [chooseTarget, getBind, modifyGetBind, modifyGetBind, getBind]
  change (if _ then _ else if _ then _ else _ : Build Target) (s.asked r) = _
  rw [registers, ← wanted, ← preferred, ← scarcity, ← asked, State.choice, lenientChoice, strictChoice]
  generalize s.asked r = u
  generalize s.reads.value r = v
  generalize ((s.preferred r).elim Target.impossible fun x => u.chooseWithin v x _ .impossible moved) =
    best
  generalize u.chooseWithin v (s.wanted r) _ best moved = better
  -- a choice that costs no more than a free slot is possible
  by_cases cheap : best.cost ≤ targetCosts.slot
  · have possible := Target.possibleOfCheap cheap
    cases strict <;> simp [cheap, possible]
  by_cases cheap' : better.cost ≤ targetCosts.slot
  · have possible := Target.possibleOfCheap cheap'
    cases strict <;> simp [cheap, cheap', possible]
  cases strict with
  | true =>
    simp only [cheap, cheap', if_true, if_false]
    cases better.isImpossible with
    | true => rfl
    | false => rfl
  | false =>
    simp only [cheap, cheap', Bool.false_eq_true, if_false]
    generalize (better.cheaper _).cheaper (u.chooseHome v moved) = fall
    generalize (if (decide (fall.cost ≥ targetCosts.stealLast) && u.resources.available == 0) = true
      then u.chooseSlot v moved else _) = last
    cases last.isImpossible with
    | true => rfl
    | false => rfl

variable {P : Target → Prop} {v : ValueId} {mask : SiteMask} {narrower : Option SiteMask}
  {penalty : Nat} {moved : Option ValueId}

theorem strictChoiceSpec
    (narrow : ∀ m ∈ narrower, P (s.chooseWithin v m penalty .impossible moved))
    (impossible : P .impossible)
    (wide : ∀ best, P best → P (s.chooseWithin v mask penalty best moved)) :
    P (s.strictChoice v mask narrower penalty moved) := by
  have first : P (narrower.elim .impossible (s.chooseWithin v · penalty .impossible moved)) := by
    cases narrower with
    | none => exact impossible
    | some m => exact narrow m rfl
  unfold strictChoice
  dsimp only
  split
  · exact first
  · exact wide _ first

theorem choiceSpec (strict : Bool) (impossible : P .impossible)
    (raised : ∀ t : Target, P t → P { t with cost := t.cost + penalty })
    (registers : ∀ set : RegisterSet, ∀ r ∈ s.registerOrder, RegisterSet.has set r = true →
      P (s.registerTarget (some v) moved r))
    (slots : ∀ n, P (s.slotTarget v moved n)) :
    P (s.choice strict v mask narrower penalty moved) := by
  have within : ∀ mask best, P best → P (s.chooseWithin v mask penalty best moved) :=
    fun mask best start => chooseWithinSpec v mask penalty best moved start impossible raised
      (fun _ => registers mask.registers) (fun _ n _ => slots n)
  have strictly : P (s.strictChoice v mask narrower penalty moved) :=
    strictChoiceSpec (fun m _ => within m _ impossible) impossible (within mask)
  cases strict with
  | true => exact strictly
  | false =>
    have home := chooseHomeSpec (s := s) v moved impossible fun n _ => slots n
    have slot := chooseSlotSpec (s := s) v moved impossible slots
    have fall := cheaperSpec (cheaperSpec strictly (raised _ (chooseRegisterSpec (s := s) (some v)
      moved (s.registersFor (s.value v).kind) impossible (registers _)))) home
    simp only [choice, lenientChoice, Bool.false_eq_true, if_false]
    split
    · exact strictly
    split
    · exact slot
    split
    · exact cheaperSpec fall slot
    · exact fall

theorem choiceObtainable (strict : Bool) :
    (s.choice strict v mask narrower penalty moved).Obtainable s :=
  choiceSpec strict impossibleObtainable (obtainableRaised penalty)
    (fun _ _ listed member => registerObtainable _ _ listed member) (fun n => slotObtainable _ _ n)

end State

structure Chosen (s : State) (r : ReadId) (strict : Bool) (t : Target) : Prop where
  possible : t.isImpossible = false
  obtainable : t.Obtainable s
  meets : strict = true → ∀ own successor next, s.reads.kind r = .single own successor next →
    (t.toSite s.geometry).satisfies s.geometry own = true

theorem chooseTargetOk {s s' : State} {r : ReadId} {strict : Bool} {reserve : Nat}
    {moved : Option ValueId} {t : Target} (ok : chooseTarget r strict reserve moved s = .ok t s') :
    t = (s.asked r).choice strict (s.reads.value r) (s.wanted r) (s.preferred r) (s.scarcity reserve)
      moved ∧ t.isImpossible = false ∧ s' = s.asked r := by
  rw [s.chooseTargetIs r strict reserve moved rfl] at ok
  split at ok
  · cases ok
  · rename_i possible
    cases ok
    exact ⟨rfl, by simpa using possible, rfl⟩

theorem chooseTargetSpec {s s' : State} {r : ReadId} {strict : Bool} {reserve : Nat}
    {moved : Option ValueId} {t : Target} (formed : s.WellFormed)
    (ok : chooseTarget r strict reserve moved s = .ok t s') :
    ∃ reads, s' = { s with reads } ∧ s.reads.Evolves reads ∧ Chosen s r strict t := by
  obtain ⟨choice, possible, rfl⟩ := chooseTargetOk ok
  obtain ⟨reads, masked, evolves, accepts⟩ := State.readMaskSpec formed.reads (s.reads.value r) r
  have formed' : { s with reads }.WellFormed :=
    (s.keepsReads evolves).wellFormed formed formed.listed
  rw [← masked] at formed'
  obtain ⟨reads', asked, evolves', within⟩ := State.successorMaskSpec formed' r (s.wanted r)
  have state : s.asked r = { s with reads := reads' } := by
    rw [State.asked, asked, masked]
  rw [masked] at evolves'
  refine ⟨reads', state, evolves.trans evolves', possible, ?_, ?_⟩
  · have had : ((s.asked r).choice strict (s.reads.value r) (s.wanted r) (s.preferred r)
        (s.scarcity reserve) moved).Obtainable (s.asked r) := State.choiceObtainable strict
    rw [← choice, state] at had
    exact had
  · rintro rfl own successor next kind
    refine accepts own successor next kind _ _ ?_
    have geometry : (s.asked r).geometry = s.geometry := by rw [state]
    rw [← geometry]
    have meets : t.Meets (s.asked r).geometry (s.wanted r) := by
      rw [choice]
      refine State.strictChoiceSpec (P := Target.Meets _ _) (fun m next h => ?_) (fun h => ?_)
        fun best start => State.chooseWithinMeets start
      · refine within m next _ _ (State.chooseWithinMeets ?_ h)
        intro absurd
        rw [Target.impossibleIs] at absurd
        cases absurd
      · rw [Target.impossibleIs] at h
        cases h
    exact meets possible

open Build in
theorem chooseSiteSpec {s s' : State} {r : ReadId} {strict : Bool} {reserve : Nat}
    {moved : Option ValueId} {i : SiteId} (formed : s.WellFormed)
    (ok : chooseSite r strict reserve moved s = .ok i s') :
    ∃ t reads statistics, Chosen s r strict t ∧ s.reads.Evolves reads ∧ i = ⟨s.sites.size⟩ ∧
      s' = ({ s with reads, statistics }.newSite (t.toSite s.geometry)).2 := by
  unfold chooseSite at ok
  obtain ⟨t, u, target, ok₁⟩ := bindOk.mp ok
  obtain ⟨reads, rfl, evolves, chosen⟩ := chooseTargetSpec formed target
  cases which : t.resource with
  | slot n =>
    simp only [which, modifyBind, modifyGetOk] at ok₁
    obtain ⟨rfl, rfl⟩ := Prod.mk.inj ok₁
    exact ⟨t, reads, _, chosen, evolves, rfl, rfl⟩
  | register n =>
    simp only [which, modifyGetOk] at ok₁
    obtain ⟨rfl, rfl⟩ := Prod.mk.inj ok₁
    exact ⟨t, reads, s.statistics, chosen, evolves, rfl, rfl⟩

end Lowering
