import Lowering.Proofs.Displacement
import Lowering.Proofs.Decision
import Lowering.Proofs.Faulting
import Mathlib.Data.Finset.Card
/-!
How deep displacements nest.

A value that is moved out of the way gets a place that can be had. If someone else has that place,
its owner is moved in turn, but by then the place that the first was moved from is frozen, so it is
never asked for again. Each displacement therefore leaves one resource less for those within it.
What would happen below the bound cannot be told from outside, because nothing gets there.
-/
namespace Lowering

open State Build

section

variable {α β : Type} {s : State}

theorem Build.bindCongr {x y : Build α} {f g : α → Build β} (first : x s = y s)
    (rest : ∀ a t, x s = .ok a t → f a t = g a t) : (x >>= f) s = (y >>= g) s := by
  simp only [bind, EStateM.bind]
  rw [← first]
  cases began : x s with
  | ok a t => exact rest a t began
  | error e t => rfl

theorem Build.whileFrozenCongr {x y : Build α} {i : SiteId}
    (same : x (s.freezeSite i) = y (s.freezeSite i)) : whileFrozen i x s = whileFrozen i y s := by
  simp only [whileFrozen, modifyBind, ensuring, same]

end

/-- One displacement. What the owner is moved to is taken from its owner by `inner`. -/
def evictWith (inner : Evict) : Evict := fun id thief => do
  let s ← get
  match (s.resources.get id).owner with
  | none => pure ()
  | some o =>
    modify (·.count (·.countSteal))
    if !thief.any (s.areAliases · o.value) && s.isLastSite o.value o.site then
      match ← modifyGet (·.liveRead? o.value) with
      | none => pure ()
      | some r =>
        let moved ← whileFrozen o.site (relocateWith inner r false s.settings.stealReserve)
        modify fun s => s.modifyValue o.value fun d =>
          if d.source == some o.site then { d with source := some moved } else d
    modify (·.removeSite o.value o.site)

def evictAbove (bottom : Evict) : Nat → Evict
  | 0 => bottom
  | depth + 1 => evictWith (evictAbove bottom depth)

theorem evictWithinAbove (n : Nat) :
    evictWithin n = evictAbove (fun _ _ => invariant .relocationDepth) n := by
  induction n with
  | zero => rfl
  | succ n ih =>
    rw [evictAbove, ← ih]
    rfl

theorem evictAboveAdd (bottom : Evict) (m n : Nat) :
    evictAbove bottom (m + n) = evictAbove (evictAbove bottom m) n := by
  induction n with
  | zero => rfl
  | succ n ih =>
    rw [← Nat.add_assoc, evictAbove, ih]
    rfl

namespace State

variable {s t u s' : State} {id id' : ResourceId} {i : SiteId}

structure Tightens (s s' : State) : Prop where
  has : ∀ id, s'.resources.Has id ↔ s.resources.Has id
  free : ∀ id, s'.Free id ↔ s.Free id
  freezes : ∀ id, (s.resources.get id).freezes ≤ (s'.resources.get id).freezes

theorem Tightens.refl (s : State) : s.Tightens s :=
  ⟨fun _ => Iff.rfl, fun _ => Iff.rfl, fun _ => Nat.le_refl _⟩

theorem Tightens.trans (first : s.Tightens t) (second : t.Tightens u) : s.Tightens u :=
  ⟨fun id => (second.has id).trans (first.has id), fun id => (second.free id).trans (first.free id),
    fun id => (first.freezes id).trans (second.freezes id)⟩

theorem Keeps.tightens (h : Keeps s t) : s.Tightens t :=
  ⟨h.has, h.free, fun id => (h.resources.freezes id).ge⟩

theorem tightensFreeze (s : State) (i : SiteId) : s.Tightens (s.freezeSite i) := by
  refine ⟨s.freezeSiteHas i, s.freezeSiteFree i, fun id => ?_⟩
  rw [freezeSiteFreezes]
  exact Nat.le_add_right _ _

/-- The resources that may still be taken: nobody reserved or froze them. -/
def loose (s : State) : Finset ResourceId :=
  s.resources.ids.toFinset.filter fun id => s.Free id ∧ (s.resources.get id).freezes = 0

theorem memLoose : id ∈ s.loose ↔
    s.resources.Has id ∧ s.Free id ∧ (s.resources.get id).freezes = 0 := by
  simp [loose, ResourceTable.memIds]

theorem Tightens.loose (h : s.Tightens s') : s'.loose ⊆ s.loose := by
  intro id member
  obtain ⟨has, free, freezes⟩ := memLoose.mp member
  exact memLoose.mpr ⟨(h.has id).mp has, (h.free id).mp free, Nat.le_zero.mp (freezes ▸ h.freezes id)⟩

/-- A displacement of `id` in `s'` that moving a value in `s` can ask for: the resource has an owner
now, it could be had when it was chosen, and nothing has been thawed meanwhile. -/
structure Requests (s s' : State) (id : ResourceId) : Prop where
  owned : ∃ o, s'.owner? id = some o
  chosen : ∃ u, s.Tightens u ∧ (u.resources.get id).isUnavailable = false ∧ u.Tightens s'

/-- A displacement of `id'` in `s'` within one of `id` that began in `s`: `id` was frozen first. -/
def Nested (s : State) (id : ResourceId) (s' : State) (id' : ResourceId) : Prop :=
  ∃ t, s.Tightens t ∧ 0 < (t.resources.get id).freezes ∧ t.Requests s' id'

theorem Requests.after (h : t.Requests s' id) (before : s.Tightens t) : s.Requests s' id := by
  obtain ⟨u, first, available, later⟩ := h.chosen
  exact ⟨h.owned, u, before.trans first, available, later⟩

theorem Requests.memLoose (h : s.Requests s' id) : id ∈ s.loose := by
  obtain ⟨o, owner⟩ := h.owned
  obtain ⟨u, first, available, later⟩ := h.chosen
  simp only [Resource.isUnavailable, Bool.or_eq_false_iff, decide_eq_false_iff_not] at available
  have loose := first.freezes id
  exact State.memLoose.mpr ⟨((first.trans later).has id).mp (ResourceTable.hasOfOwner owner),
    (first.free id).mp available.1.1, by omega⟩

theorem Requests.free (h : s.Requests s' id) : s'.Free id := by
  obtain ⟨u, first, -, later⟩ := h.chosen
  exact ((first.trans later).free id).mpr (State.memLoose.mp h.memLoose).2.1

theorem Requests.tightens (h : s.Requests s' id) : s.Tightens s' := by
  obtain ⟨u, first, -, later⟩ := h.chosen
  exact first.trans later

def spare (s : State) (id : ResourceId) : Finset ResourceId := s.loose.erase id

theorem Nested.fewer (h : s.Nested id s' id') : (s'.spare id').card < (s.spare id).card := by
  obtain ⟨t, before, frozen, asked⟩ := h
  have member := asked.memLoose
  have apart : id' ≠ id := by
    rintro rfl
    have := (State.memLoose.mp member).2.2
    omega
  have inside : id' ∈ s.spare id := Finset.mem_erase.mpr ⟨apart, before.loose member⟩
  refine Finset.card_lt_card (Finset.ssubset_iff.mpr ⟨id', Finset.notMem_erase id' _, ?_⟩)
  intro k listed
  rcases Finset.mem_insert.mp listed with rfl | listed
  · exact inside
  · have loose := asked.tightens.loose (Finset.mem_of_mem_erase listed)
    have other : k ≠ id := by
      rintro rfl
      have := (State.memLoose.mp loose).2.2
      omega
    exact Finset.mem_erase.mpr ⟨other, before.loose loose⟩

end State

section

variable {e e' : Evict} {s s' : State} {v : ValueId} {i : SiteId} {id : ResourceId}

theorem State.Ready.unguarded (formed : s.WellFormed) (named : s.Named) : Ready 0 s [] [] :=
  ⟨formed, named, .nil, fun _ member => absurd member List.not_mem_nil, Nat.zero_le _⟩

/-! Two ways to displace that agree on what they are asked for are as good as each other. -/

theorem acquireResourceCongr {o : Owner}
    (agree : s.Free id → (∃ p, s.owner? id = some p) → e id (some o.value) s = e' id (some o.value) s) :
    acquireResource e id o s = acquireResource e' id o s := by
  unfold acquireResource
  rw [getBind, getBind]
  cases reserved : (s.resources.get id).reserved with
  | true => rfl
  | false =>
    cases owner : (s.resources.get id).owner with
    | none => rfl
    | some p => exact bindCongr (agree reserved ⟨p, owner⟩) fun _ _ _ => rfl

theorem acquireCongr
    (named : ∀ id, s.resource? i = some id → s.Free id → (∃ p, s.owner? id = some p) →
      e id (some v) (s.reach i) = e' id (some v) (s.reach i))
    (settled : ∀ mask n, s.site i = .register mask none →
      (s.resources.get (.register n)).isUnavailable = false → (∃ p, s.owner? (.register n) = some p) →
      e (.register n) (some v) s = e' (.register n) (some v) s) :
    acquireWith e v i s = acquireWith e' v i s := by
  have named' : ∀ id, s.resource? i = some id →
      acquireResource e id ⟨v, i⟩ (s.reach i) = acquireResource e' id ⟨v, i⟩ (s.reach i) := by
    intro id names
    refine acquireResourceCongr fun free owned => ?_
    rw [reachOwner] at owned
    exact named id names (((s.keepsReach i).free id).mp free) owned
  unfold acquireWith
  rw [getBind, getBind]
  cases site : s.site i with
  | constant p => rfl
  | address p => rfl
  | register mask number =>
    have reach : s.reach i = s := reachBare (by rw [site]; rfl)
    rw [reach] at named'
    cases number with
    | none =>
      refine bindCongr rfl fun n u chosen => ?_
      obtain ⟨rfl, available, -⟩ := settleRegisterSpec chosen
      exact bindCongr (acquireResourceCongr fun _ owned => settled mask n site available owned)
        fun _ _ _ => rfl
    | some n =>
      simp only [settleRegister, pureBind]
      refine bindCongr (named' (.register n) ?_) fun _ _ _ => rfl
      simp [resource?, site, Site.resource?]
  | memory m acquired =>
    have reach : s.reach i = s.referTo m := by simp [State.reach, site, Site.addressed, referToEq]
    have slot : (s.reach i).slotResource? (.memory m acquired) = s.resource? i := by
      rw [resource?, site]
      rfl
    simp only [modifyBind, getBind, ← reach, slot]
    cases names : s.resource? i with
    | none => rfl
    | some id => exact bindCongr (named' id names) fun _ _ _ => rfl

theorem placeCongr (same : acquireWith e v i s = acquireWith e' v i s) :
    placeWith e v i s = placeWith e' v i s := by
  unfold placeWith
  rw [getBind, getBind]
  split
  · rfl
  · exact bindCongr same fun _ _ _ => rfl

def AgreeFrom (e e' : Evict) (s : State) : Prop :=
  ∀ ⦃id thief s'⦄, s.Requests s' id → Ready 0 s' [] [] → e id thief s' = e' id thief s'

theorem AgreeFrom.later {t : State} (agree : AgreeFrom e e' s) (tightens : s.Tightens t) :
    AgreeFrom e e' t :=
  fun _ _ _ asked ready => agree (asked.after tightens) ready

theorem placeChosenCongr {u : State} (agree : AgreeFrom e e' s)
    (chosen : s.Tightens u) (available : (u.resources.get id).isUnavailable = false)
    (later : u.Tightens s') (ready' : Ready 0 s' [] []) (fit : Fit 0 s' [] id i) :
    placeWith e v i s' = placeWith e' v i s' := by
  have reached := ready'.reach fit.known fit.unowned
  refine placeCongr (acquireCongr (fun id' names free owned => ?_) fun mask n site => ?_)
  · cases names.symm.trans fit.names
    refine agree ⟨?_, u, chosen, available, later.trans (s'.keepsReach i).tightens⟩
      (.unguarded reached.formed reached.named)
    simpa only [reachOwner] using owned
  · have names := fit.names
    simp [resource?, site, Site.resource?] at names

theorem stageCongr {src : SiteId} {mask : OperandMask} (agree : AgreeFrom e e' s)
    (ready : Ready 0 s [] []) : stageWith e v src mask s = stageWith e' v src mask s := by
  unfold stageWith probe
  simp only [modifyGetBind]
  refine bindCongr rfl fun j t chosen => bindCongr ?_ fun _ _ _ => rfl
  have probed : Moves 0 [] [] s []
      { s with reads := (s.reads.single v (.ofOperand mask) (some v)).2 } :=
    .ask _ s.statistics s.resources.available (ReadTable.evolvesPush _ _ _ _)
  obtain ⟨target, picked, moves, -, resources, -, -, fresh⟩ :=
    chooseSiteMoves (ready.moves probed) chosen
  have before := (moves [] []).keeps.tightens
  refine placeChosenCongr agree (probed.keeps.tightens.trans before) ?_ (.refl _)
    ((ready.moves probed).moves (moves [] [])) fresh
  rw [resources]
  exact (picked.obtainable picked.possible).1

theorem relocateCongr {r : ReadId} {strict : Bool} {reserve : Nat} (evicts : Evicts e)
    (agree : AgreeFrom e e' s) (ready : Ready 0 s [] []) (value : s.IsValue (s.reads.value r)) :
    relocateWith e r strict reserve s = relocateWith e' r strict reserve s := by
  unfold relocateWith
  rw [getBind, getBind]
  refine bindCongr rfl fun dst s₁ chosen => ?_
  generalize s.reads.value r = v at value
  obtain ⟨t, target, moves, values, resources, site, -, fresh⟩ := chooseSiteMoves ready chosen
  obtain ⟨available, slots, numbered⟩ := target.obtainable target.possible
  have before := moves [] []
  have ready₁ := ready.moves before
  have keeps := before.keeps
  have available₁ : (s₁.resources.get t.resource).isUnavailable = false := by
    rw [resources]
    exact available
  rw [getBind, getBind]
  cases cheapest : cheapestSource (s₁.copyCosts v (s₁.site dst)
      (SiteMask.ofOperand (s₁.machine.planMove wordSize (s₁.site dst).operandMask).source)) with
  | none => rfl
  | some c =>
    obtain ⟨src, cost⟩ := c
    dsimp only
    by_cases zero : cost = 0
    · simp only [zero, beq_self_eq_true, if_true]
    have nonzero : (cost == 0) = false := by simpa using zero
    simp only [nonzero, Bool.false_eq_true, if_false]
    have unlisted : dst ≠ src := by
      rintro rfl
      obtain ⟨m, -, listed⟩ := (copyCostsMem (cheapestSourceMem cheapest)).1
      exact fresh.unlisted m listed
    have frozen : Ready 0 (s₁.freezeSite src) [] [] :=
      .unguarded (wellFormedFreeze ready₁.formed src) (namedFreeze ready₁.named)
    have fit : Fit 0 (s₁.freezeSite src) [] t.resource dst :=
      (fresh.freeze unlisted).sub fun _ member => absurd member List.not_mem_nil
    refine bindCongr (whileFrozenCongr (placeChosenCongr agree keeps.tightens available₁
      (s₁.tightensFreeze src) frozen fit)) fun _ s₂ placed => ?_
    have numbered₁ : ∀ r, t.resource = .register r → r < 64 ∧ r < s₁.machine.registerCount := by
      rw [keeps.machine]
      exact numbered
    rw [← keeps.geometry] at site
    obtain ⟨-, taken, -⟩ := placeCheapestSpec evicts ready₁ ((keeps.isValue v).mpr value) site fresh
      available₁ numbered₁ cheapest zero placed
    have ready₂ := ready₁.moves taken
    have later := keeps.tightens.trans taken.keeps.tightens
    rw [getBind, getBind]
    split
    · rfl
    · refine bindCongr (whileFrozenCongr (whileFrozenCongr (stageCongr (agree.later ?_) ?_)))
        fun _ _ _ => rfl
      · exact (later.trans (s₂.tightensFreeze src)).trans (tightensFreeze _ dst)
      · exact .unguarded (wellFormedFreeze (wellFormedFreeze ready₂.formed src) dst)
          (namedFreeze (namedFreeze ready₂.named))

theorem evictWithCongr {thief : Option ValueId} (evicts : Evicts e) (ready : Ready 0 s [] [])
    (free : s.Free id)
    (agree : ∀ id' thief' s', s.Nested id s' id' → Ready 0 s' [] [] → e id' thief' s' = e' id' thief' s') :
    evictWith e id thief s = evictWith e' id thief s := by
  unfold evictWith
  rw [getBind, getBind]
  cases owner : (s.resources.get id).owner with
  | none => rfl
  | some o =>
    simp only [modifyBind]
    obtain ⟨value, known, names⟩ := ready.named id o free owner
    by_cases alone : (!thief.any (s.areAliases · o.value) && s.isLastSite o.value o.site) = true
    · have counted : Moves 0 [] [] s [] (s.count (·.countSteal)) := Moves.count _
      have ready₁ := ready.moves counted
      obtain ⟨reads, state, evolves, found, -⟩ := liveReadSpec ready₁.formed o.value
      have asked : Moves 0 [] [] s [] { s.count (·.countSteal) with reads } :=
        counted.trans (.ask reads _ s.resources.available evolves)
      have ready₂ := ready.moves asked
      simp only [alone, if_true, modifyGetBind, state]
      cases read : ((s.count (·.countSteal)).liveRead? o.value).1 with
      | none => rfl
      | some r =>
        obtain ⟨-, m, member, chain⟩ := found r read
        refine bindCongr (whileFrozenCongr (relocateCongr evicts ?_ ?_ ?_)) fun _ _ _ => rfl
        · intro id' thief' s' requested ready'
          refine agree id' thief' s' ⟨_, asked.keeps.tightens.trans (tightensFreeze _ o.site), ?_,
            requested⟩ ready'
          exact (State.pinnedFreeze _ o.site) id ((freezeSiteResource _ _ _).trans names)
            ((freezeSiteHas _ _ _).mpr (ResourceTable.hasOfOwner owner))
            ((freezeSiteFree _ _ _).mpr free)
        · exact .unguarded (wellFormedFreeze ready₂.formed _) (namedFreeze ready₂.named)
        · have reader : { s.count (·.countSteal) with reads }.reads.value r ∈ s.ring o.value := by
            rw [(ready₂.formed.heads m r chain).2, ← counted.keeps.ring]
            exact member
          have there := isValueOfRing ready.formed.rings value reader
          rw [freezeSiteRest]
          exact there
    · simp only [alone, Bool.false_eq_true, if_false]

/-! The descent. -/

theorem evictAboveEnough (bottom : Evict) (n : Nat) : ∀ {s : State} {id : ResourceId}
    {thief : Option ValueId}, Ready 0 s [] [] → s.Free id → (s.spare id).card < n →
    evictAbove bottom n id thief s = evictWithin n id thief s := by
  induction n with
  | zero => exact fun _ _ none => absurd none (Nat.not_lt_zero _)
  | succ n ih =>
    intro s id thief ready free few
    refine (evictWithCongr (e := evictWithin n) (evictWithinSpec n) ready free ?_).symm
    intro id' thief' s' nested ready'
    have fewer := nested.fewer
    obtain ⟨t, -, -, asked⟩ := nested
    exact (ih ready' asked.free (by omega)).symm

theorem spareBound (s : State) (id : ResourceId) : (s.spare id).card ≤ s.loose.card :=
  Finset.card_le_card (Finset.erase_subset _ _)

theorem looseBound (s : State) : s.loose.card < s.displacementBound := by
  have listed : s.loose.card ≤ s.resources.ids.length :=
    (Finset.card_filter_le _ _).trans (List.toFinset_card_le _)
  have length : s.resources.ids.length = s.resources.registers.length + s.resources.slots.length := by
    simp [ResourceTable.ids]
  unfold displacementBound
  omega

theorem evictAboveIsEvict (bottom : Evict) {n : Nat} {thief : Option ValueId}
    (ready : Ready 0 s [] []) (free : s.Free id) (few : (s.spare id).card < n) :
    evictAbove bottom n id thief s = evict id thief s := by
  have least : ∀ (bottom : Evict) (m : Nat), (s.spare id).card < m →
      evictAbove bottom m id thief s = evictWithin ((s.spare id).card + 1) id thief s := by
    intro bottom m enough
    obtain ⟨k, rfl⟩ := Nat.exists_eq_add_of_le' enough
    rw [evictAboveAdd]
    exact evictAboveEnough _ _ ready free (Nat.lt_succ_self _)
  have bound : (s.spare id).card < s.displacementBound :=
    Nat.lt_of_le_of_lt (spareBound s id) (looseBound s)
  rw [least bottom n few, evict, getBind, evictWithinAbove s.displacementBound, least _ _ bound]

theorem evictAboveLater (bottom : Evict) {n : Nat} {thief : Option ValueId}
    (tightens : s.Tightens s') (ready : Ready 0 s' [] []) (free : s'.Free id)
    (few : s.loose.card < n) : evictAbove bottom n id thief s' = evict id thief s' :=
  evictAboveIsEvict bottom ready free
    (Nat.lt_of_le_of_lt ((spareBound s' id).trans (Finset.card_le_card tightens.loose)) few)

theorem agreeAbove (bottom : Evict) {n : Nat} (few : s.loose.card < n) :
    AgreeFrom evict (evictAbove bottom n) s :=
  fun _ _ _ asked ready => (evictAboveLater bottom asked.tightens ready asked.free few).symm

theorem acquireAbove (bottom : Evict) {n : Nat} (ready : Ready 0 s [] []) (few : s.loose.card < n) :
    acquireWith (evictAbove bottom n) v i s = acquire v i s := by
  have keeps := s.keepsReach i
  have named := keeps.named (fun _ _ owner => by rwa [reachOwner] at owner) ready.named
  refine acquireCongr (fun id _ free _ => ?_) fun mask n _ available _ => ?_
  · exact evictAboveLater bottom keeps.tightens
      (.unguarded (keeps.wellFormed ready.formed ready.formed.listed) named)
      ((keeps.free id).mpr free) few
  · refine evictAboveLater bottom (.refl s) ready ?_ few
    simp only [Resource.isUnavailable, Bool.or_eq_false_iff] at available
    exact available.1.1

/-! The bottom, if it were reached, could complain. -/

theorem failsEvictAbove {bottom : Evict} (fails : FailsEvicting bottom) (n : Nat) :
    FailsEvicting (evictAbove bottom n) := by
  induction n with
  | zero => exact fails
  | succ n ih =>
    intro id thief
    refine .bind .get fun s => ?_
    split
    · exact .pure
    · refine .bind .modify fun _ => .ite (.bind .modifyGet fun read => ?_) .modify
      split
      · exact .modify
      · exact .bind (failsWhileFrozen (failsRelocate ih ..)) fun _ => .bind .modify fun _ => .modify

theorem evictWithVacant (inner : Evict) {thief : Option ValueId} (none : s.owner? id = none) :
    evictWith inner id thief s = .ok () s := by
  have owner : (s.resources.get id).owner = .none := none
  rw [evictWith, getBind, owner]
  rfl

end

theorem failsAboveBottom {α : Type} {n : Nat} {f : Evict → Build α} {s t : State} {err : Error}
    (same : ∀ bottom, f (evictAbove bottom n) s = f evict s)
    (fails : ∀ {e}, FailsEvicting e → FailsPlacing (f e)) (failed : f evict s = .error err t) :
    err.OfPlacing := by
  have bottom : FailsEvicting fun _ _ => throw (.scratch .emptyPool) := fun _ _ => .throw trivial
  rw [← same fun _ _ => throw (.scratch .emptyPool)] at failed
  exact (fails (failsEvictAbove bottom n)).fails failed

/-- Work that displaces at most `n` deep: what is below does not matter, and no complaint about the
depth is heard. -/
structure Shallow {α : Type} (n : Nat) (act : Evict → Build α) (s : State) : Prop where
  same : ∀ bottom, act (evictAbove bottom n) s = act evict s
  quiet : ∀ t, act evict s ≠ .error (.invariant .relocationDepth) t

theorem Shallow.ofSame {α : Type} {n : Nat} {act : Evict → Build α} {s : State}
    (same : ∀ bottom, act (evictAbove bottom n) s = act evict s)
    (fails : ∀ {e}, FailsEvicting e → FailsPlacing (act e)) : Shallow n act s := by
  refine ⟨same, fun t failed => ?_⟩
  obtain ⟨v, depth⟩ := failsAboveBottom same fails failed
  cases depth

/- A displacement asks for displacements of resources that could be had while its own was frozen,
and of no others. Moving a value nests at most one more displacement than there are resources that
nobody has reserved or frozen: with that many levels, nothing depends on what is below. -/
theorem relocationEnds :
    (∀ (s : State) (id : ResourceId) (thief : Option ValueId) (inner : Evict), s.WellFormed →
      s.Named → s.Free id →
      (∀ id' thief' s', s.Nested id s' id' → s'.WellFormed → s'.Named →
        inner id' thief' s' = evict id' thief' s') →
      evictWith inner id thief s = evict id thief s) ∧
    ∀ (s : State) (lent : List Register) (n : Nat), s.Coherent lent → s.loose.card + 1 ≤ n →
      (∀ id thief, Shallow n (· id thief) s) ∧
      (∀ id o, Shallow n (acquireResource · id o) s) ∧
      (∀ v i, Shallow n (placeWith · v i) s) ∧
      (∀ v src mask, Shallow n (stageWith · v src mask) s) ∧
      (∀ r strict reserve, s.IsValue (s.reads.value r) →
        Shallow n (relocateWith · r strict reserve) s) := by
  constructor
  · intro s id thief inner formed named free agree
    have ready := Ready.unguarded formed named
    rw [← evictAboveIsEvict (fun _ _ => invariant .relocationDepth) ready free
      (Nat.lt_succ_self _), evictAbove, ← evictWithinAbove]
    refine (evictWithCongr (evictWithinSpec _) ready free ?_).symm
    intro id' thief' s' nested ready'
    have fewer := nested.fewer
    rw [agree id' thief' s' nested ready'.formed ready'.named, evictWithinAbove]
    obtain ⟨t, -, -, asked⟩ := nested
    exact evictAboveIsEvict _ ready' asked.free fewer
  · intro s lent n coherent few
    have ready := Ready.unguarded coherent.formed (coherent.owned.named coherent.formed)
    refine ⟨fun id thief => .ofSame (fun bottom => ?_) fun fails => fails id thief,
      fun id o => .ofSame (fun bottom => ?_) fun fails => failsAcquireResource fails id o,
      fun v i => .ofSame (fun bottom => ?_) fun fails => failsPlace fails v i,
      fun v src mask => .ofSame (fun bottom => ?_) fun fails => failsStage fails v src mask,
      fun r strict reserve value => .ofSame (fun bottom => ?_) fun fails =>
        failsRelocate fails r strict reserve⟩
    · by_cases free : s.Free id
      · exact evictAboveLater bottom (.refl s) ready free few
      · have none := coherent.vacant id free
        obtain ⟨m, rfl⟩ := Nat.exists_eq_add_of_le' few
        rw [evictVacant none]
        exact evictWithVacant _ none
    · exact acquireResourceCongr fun free _ => evictAboveLater bottom (.refl s) ready free few
    · exact placeCongr (acquireAbove bottom ready few)
    · exact (stageCongr (agreeAbove bottom few) ready).symm
    · exact (relocateCongr evictSpec (agreeAbove bottom few) ready value).symm

/- To put one value where the other is, the other is moved away first. -/
theorem crossedRelocationEnds : crossed.Coherent [] ∧ crossed.loose.card + 1 ≤ 35 ∧
    crossed.Nested (.register X64.rsi) (crossed.freezeSite ⟨1⟩) (.register X64.rdi) ∧
    evictWith evict (.register X64.rsi) none crossed = evict (.register X64.rsi) none crossed ∧
    Shallow 35 (relocateWith · ⟨0⟩ true 0) crossed ∧ Succeeds (relocate ⟨0⟩ true 0) crossed := by
  have coherent : crossed.Coherent [] := by decide +kernel
  have few : crossed.loose.card + 1 ≤ 35 := by decide +kernel
  have nested : crossed.Nested (.register X64.rsi) (crossed.freezeSite ⟨1⟩) (.register X64.rdi) := by
    refine ⟨_, crossed.tightensFreeze ⟨1⟩, by decide +kernel, ⟨⟨⟨⟨0⟩, ⟨0⟩⟩, by decide +kernel⟩, ?_⟩⟩
    exact ⟨_, .refl _, by decide +kernel, .refl _⟩
  have free : crossed.Free (.register X64.rsi) := by decide +kernel
  obtain ⟨asks, ends⟩ := relocationEnds
  refine ⟨coherent, few, nested, ?_, ?_, by decide +kernel⟩
  · exact asks crossed (.register X64.rsi) none evict coherent.formed
      (coherent.owned.named coherent.formed) free fun _ _ _ _ _ _ => rfl
  · obtain ⟨-, -, -, -, moves⟩ := ends crossed [] 35 coherent few
    exact moves ⟨0⟩ true 0 (by decide +kernel)

end Lowering
