import Lowering.Proofs.Merging
/-!
The paths of a fork do not see each other.

When a path is entered, the rings are put back first and all resources are vacated. Then every
value is placed where it was at the fork. At the fork no two live values had one resource, so that
nothing has to make room, whatever the other paths did in between.
-/
namespace Lowering

open State Build

/-! Resources that have an owner. -/

theorem ResourceTable.ownedEq (t : ResourceTable) :
    t.owned = t.ids.filterMap fun id => (t.get id).owner.map (id, ·) := by
  have indexed : ∀ rs : List Resource,
      rs.zipIdx = (List.range rs.length).map fun n => (rs.getD n default, n) := by
    intro rs
    refine List.ext_getElem (by simp) fun n first second => ?_
    have inside : n < rs.length := by simpa using first
    simp [List.getD_eq_getElem?_getD, inside]
  unfold owned ids
  rw [indexed, indexed]
  simp only [List.filterMap_append, List.filterMap_map]
  rfl

theorem filterMapSublist {α β : Type} {f g : α → Option β} (l : List α)
    (fewer : ∀ a b, f a = some b → g a = some b) : (l.filterMap f).Sublist (l.filterMap g) := by
  induction l with
  | nil => exact .slnil
  | cons a rest ih =>
    cases first : f a with
    | none =>
      cases second : g a with
      | none => simpa [first, second] using ih
      | some b => simpa [first, second] using ih.cons b
    | some b =>
      have second := fewer a b first
      simpa [first, second] using ih

section

variable {s s' t t' : State} {id : ResourceId} {v w : ValueId} {i : SiteId}

theorem clearSitesListed {j : SiteId} (listed : j ∈ ((s.clearSites v).value w).sites) :
    j ∈ (s.value w).sites :=
  (detachAllListed (o := ⟨w, j⟩) _ listed).1

theorem clearSitesOwner {o : Owner} (owner : (s.clearSites v).owner? id = some o) :
    s.owner? id = some o :=
  detachAllOwner _ owner

structure Relinquishes (s s' : State) : Prop where
  keeps : Keeps s s'
  listed : ∀ v, ∀ i ∈ (s'.value v).sites, i ∈ (s.value v).sites
  owner : ∀ id o, s'.owner? id = some o → s.owner? id = some o

theorem Relinquishes.refl (s : State) : Relinquishes s s :=
  ⟨.refl s, fun _ _ listed => listed, fun _ _ owner => owner⟩

theorem Relinquishes.trans (first : Relinquishes s t) (second : Relinquishes t s') :
    Relinquishes s s' :=
  ⟨first.keeps.trans second.keeps, fun v i listed => first.listed v i (second.listed v i listed),
    fun id o owner => first.owner id o (second.owner id o owner)⟩

theorem Relinquishes.bare (h : Relinquishes s s') (bare : (s.value v).sites = []) :
    (s'.value v).sites = [] := by
  refine List.eq_nil_iff_forall_not_mem.mpr fun i listed => ?_
  have before := h.listed v i listed
  rw [bare] at before
  cases before

theorem clearRelinquishes (s : State) (v : ValueId) : Relinquishes s (s.clearSites v) :=
  ⟨keepsClearSites s v, fun _ _ => clearSitesListed, fun _ _ => clearSitesOwner⟩

theorem clearAllRelinquishes (vs : List ValueId) : ∀ s : State,
    Relinquishes s (vs.foldl State.clearSites s) ∧
      ∀ v ∈ vs, ((vs.foldl State.clearSites s).value v).sites = [] := by
  induction vs with
  | nil => exact fun s => ⟨.refl s, by simp⟩
  | cons v rest ih =>
    intro s
    obtain ⟨later, bare⟩ := ih (s.clearSites v)
    refine ⟨(clearRelinquishes s v).trans later, fun w member => ?_⟩
    rcases List.mem_cons.mp member with rfl | member
    · exact later.bare (clearSitesBare (selfMemRing s w))
    · exact bare w member

def State.dispossess (s : State) (id : ResourceId) (o : Owner) : State :=
  (s.clearSites o.value).modifyResources (·.setOwner id none)

theorem dispossessOwner {o p : Owner} {other : ResourceId}
    (owner : (s.dispossess id o).owner? other = some p) : s.owner? other = some p ∧ other ≠ id := by
  have table : (((s.clearSites o.value).resources.setOwner id none).get other).owner = some p := owner
  rw [ResourceTable.getSetOwner] at table
  split at table
  · cases table
  · rename_i apart
    refine ⟨clearSitesOwner table, fun same => apart ⟨same, ?_⟩⟩
    rw [← same]
    exact ResourceTable.hasOfOwner table

theorem dispossessRelinquishes (s : State) (id : ResourceId) (o : Owner) :
    Relinquishes s (s.dispossess id o) := by
  have cleared := clearRelinquishes s o.value
  have steady : Keeps (s.clearSites o.value) (s.dispossess id o) :=
    keepsResources _ (.setOwner _ _ _)
  exact ⟨cleared.keeps.trans steady, cleared.listed, fun _ _ owner => (dispossessOwner owner).1⟩

theorem dispossessFewer {o : Owner} (owner : s.owner? id = some o) :
    (s.dispossess id o).resources.owned.length < s.resources.owned.length := by
  have relinquishes := dispossessRelinquishes s id o
  have ids : (s.dispossess id o).resources.ids = s.resources.ids := by
    have shape := relinquishes.keeps.resources.shape
    rw [ResourceTable.ids, shape.registers, shape.slots]
    rfl
  have fewer : (s.dispossess id o).resources.owned.Sublist s.resources.owned := by
    rw [ResourceTable.ownedEq, ResourceTable.ownedEq, ids]
    refine filterMapSublist _ fun other entry found => ?_
    obtain ⟨p, owner', rfl⟩ := Option.map_eq_some_iff.mp found
    exact Option.map_eq_some_iff.mpr ⟨p, relinquishes.owner other p owner', rfl⟩
  refine lt_of_le_of_ne fewer.length_le fun same => ?_
  have equal := fewer.eq_of_length same
  have inside : (id, o) ∈ s.resources.owned := by
    rw [ResourceTable.ownedEq]
    exact List.mem_filterMap.mpr ⟨id, ResourceTable.memIds.mpr (ResourceTable.hasOfOwner owner),
      Option.map_eq_some_iff.mpr ⟨o, owner, rfl⟩⟩
  rw [← equal] at inside
  exact (dispossessOwner (ResourceTable.memOwned inside)).2 rfl

theorem vacateResourcesSpec (fuel : Nat) : ∀ {s : State}, s.resources.owned.length ≤ fuel →
    Relinquishes s (vacateResources fuel s) ∧ ∀ id, (vacateResources fuel s).owner? id = none := by
  have vacant : ∀ {s : State}, s.resources.owned.head? = none → ∀ id, s.owner? id = none := by
    intro s none id
    by_contra some
    obtain ⟨o, owner⟩ := Option.ne_none_iff_exists'.mp some
    have inside : (id, o) ∈ s.resources.owned := by
      rw [ResourceTable.ownedEq]
      exact List.mem_filterMap.mpr ⟨id, ResourceTable.memIds.mpr (ResourceTable.hasOfOwner owner),
        Option.map_eq_some_iff.mpr ⟨o, owner, rfl⟩⟩
    rw [List.head?_eq_none_iff.mp none] at inside
    cases inside
  induction fuel with
  | zero =>
    intro s short
    have empty := List.length_eq_zero_iff.mp (Nat.le_zero.mp short)
    have none := vacant (s := s) (by rw [empty]; rfl)
    exact ⟨.refl s, none⟩
  | succ fuel ih =>
    intro s short
    unfold vacateResources
    cases first : s.resources.owned.head? with
    | none => exact ⟨.refl s, vacant first⟩
    | some entry =>
      obtain ⟨id, o⟩ := entry
      have owner : s.owner? id = some o := ResourceTable.memOwned (List.mem_of_head? first)
      have fewer := dispossessFewer owner
      obtain ⟨later, none⟩ := ih (s := s.dispossess id o) (by omega)
      exact ⟨(dispossessRelinquishes s id o).trans later, none⟩

theorem vacateFrameSpec (s : State) (e : EventId) :
    Relinquishes s (s.vacateFrame e) ∧ (∀ id, (s.vacateFrame e).owner? id = none) ∧
      ∀ v ∈ s.frames.values (s.event e).stackBefore (s.event e).localsBefore,
        ((s.vacateFrame e).value v).sites = [] := by
  obtain ⟨cleared, bare⟩ := clearAllRelinquishes
    (s.frames.values (s.event e).stackBefore (s.event e).localsBefore) s
  obtain ⟨vacated, none⟩ := vacateResourcesSpec _ (le_refl
    ((s.frames.values (s.event e).stackBefore (s.event e).localsBefore).foldl
      State.clearSites s).resources.owned.length)
  exact ⟨cleared.trans vacated, none, fun v member => vacated.bare (bare v member)⟩

/-! Placing a value where nobody is. -/

theorem acquireFree {o : Owner} (vacant : s.Free id → s.owner? id = none) :
    acquireResource evict id o s =
      .ok () (if s.Free id then s.modifyResources (·.setOwner id (some o)) else s) := by
  unfold acquireResource
  rw [getBind]
  by_cases free : s.Free id
  · have reserved : (s.resources.get id).reserved = false := free
    have none : (s.resources.get id).owner = none := vacant free
    simp only [reserved, none, Option.isSome_none, Bool.false_eq_true, if_false]
    rw [if_pos free]
    rfl
  · have reserved : (s.resources.get id).reserved = true := by simpa [Free] using free
    simp only [reserved, if_true]
    rw [if_neg free]
    rfl

theorem acquireVacant {o : Owner} (vacant : s.Free id → s.owner? id = none)
    (ok : acquireResource evict id o s = .ok () s') :
    s' = if s.Free id then s.modifyResources (·.setOwner id (some o)) else s := by
  rw [acquireFree vacant] at ok
  cases ok
  rfl

theorem acquireSettles (open_ : ∀ mask n, s.site i ≠ .register mask (some n))
    (vacant : ∀ (y : Site) (id : ResourceId), y.coincides (s.site i) = true →
      y.resource? s.geometry = some id → s.Free id → s.owner? id = none)
    (ok : acquireWith evict v i s = .ok () s') :
    ∃ y : Site, y.coincides (s.site i) = true ∧
      s' = ((s.reach i).own ⟨v, i⟩ y).setSite i y := by
  unfold acquireWith at ok
  rw [getBind] at ok
  cases site : s.site i with
  | constant p =>
    simp only [site, pureOk] at ok
    refine ⟨.constant p, by simp [Site.coincides], ?_⟩
    rw [reachBare (by rw [site]; rfl), ← ok.2]
    simp only [own, Site.resource?]
    rw [← site, setSiteSame]
  | address p =>
    simp only [site, pureOk] at ok
    refine ⟨.address p, by simp [Site.coincides], ?_⟩
    rw [reachBare (by rw [site]; rfl), ← ok.2]
    simp only [own, Site.resource?]
    rw [← site, setSiteSame]
  | register mask number =>
    cases number with
    | some n => exact absurd site (open_ mask n)
    | none =>
      simp only [site, bindOk, modifyOk] at ok
      obtain ⟨n, u, settled, ⟨⟩, w, taken, rfl⟩ := ok
      obtain ⟨rfl, -, member⟩ := settleRegisterSpec settled
      have vacant' : u.Free (.register n) → u.owner? (.register n) = none :=
        vacant (.register mask (some n)) (.register n) (by rw [site]; exact member) rfl
      refine ⟨.register mask (some n), member, ?_⟩
      rw [reachBare (by rw [site]; rfl), acquireVacant vacant' taken]
      rfl
  | memory m acquired =>
    have reach : s.reach i = s.referTo m := by simp [State.reach, site, Site.addressed, referToEq]
    have slot : (s.reach i).slotResource? (.memory m acquired) =
        (Site.memory m true).resource? (s.reach i).geometry := rfl
    simp only [site, modifyBind, getBind, ← reach, slot] at ok
    refine ⟨.memory m true, by simp [Site.coincides], ?_⟩
    cases names : (Site.memory m true).resource? (s.reach i).geometry with
    | none =>
      simp only [names, modifyOk] at ok
      rw [ok, own, names]
    | some id =>
      simp only [names, bindOk, modifyOk] at ok
      obtain ⟨⟨⟩, w, taken, rfl⟩ := ok
      have vacant' : (s.reach i).Free id → (s.reach i).owner? id = none := by
        intro free
        rw [reachOwner]
        refine vacant (.memory m true) id ?_ names (((s.keepsReach i).free id).mp free)
        rw [site]
        simp [Site.coincides]
      rw [acquireVacant vacant' taken, own, names]

theorem placeAtSettles {x : Site} (formed : s.WellFormed)
    (open_ : ∀ mask n, x ≠ .register mask (some n))
    (vacant : ∀ (y : Site) (id : ResourceId), y.coincides x = true →
      y.resource? s.geometry = some id → s.Free id → s.owner? id = none)
    (ok : placeAt v x s = .ok () s') :
    ∃ y : Site, y.coincides x = true ∧
      s' = ((s.newSite x).2.reach ⟨s.sites.size⟩).settleAt v ⟨s.sites.size⟩ y := by
  have site : (s.newSite x).2.site ⟨s.sites.size⟩ = x := siteNewSelf s x
  have absent : ((s.newSite x).2.value v).sites.contains ⟨s.sites.size⟩ = false := by
    simp only [List.contains_eq_mem, decide_eq_false_iff_not]
    intro listed
    have there := formed.listed v _ listed
    simp [IsSite] at there
  simp only [placeAt, modifyGetBind, place, placeWith, getBind] at ok
  rw [show (s.newSite x).1 = ⟨s.sites.size⟩ from rfl, absent] at ok
  simp only [Bool.false_eq_true, if_false, bindOk, modifyOk] at ok
  obtain ⟨⟨⟩, t, acquired, rfl⟩ := ok
  obtain ⟨y, same, rfl⟩ := acquireSettles (s := (s.newSite x).2) (by rw [site]; exact open_)
    (fun y id same names free => vacant y id (by rwa [site] at same) names free) acquired
  rw [site] at same
  exact ⟨y, same, rfl⟩

/-! What a fork records. -/

def State.snapshot (s : State) (v : ValueId) : Snapshot :=
  ⟨v, (s.value v).next, (s.value v).sites.map fun i => (s.site i).copy⟩

theorem memSnapshots {vs : List ValueId} {n : Snapshot} :
    n ∈ vs.flatMap s.snapshotsOf ↔ ∃ v ∈ vs, ∃ m ∈ s.ring v, s.snapshot m = n := by
  rw [List.mem_flatMap]
  refine exists_congr fun v => and_congr_right fun _ => ?_
  exact List.mem_map

theorem snapshotsWhole {vs : List ValueId} (rings : s.Permutes) (known : ∀ v ∈ vs, s.IsValue v)
    (size : s.values.size ≤ t.values.size) : Whole t (vs.flatMap s.snapshotsOf) := by
  have there : ∀ n ∈ vs.flatMap s.snapshotsOf, s.IsValue n.value := by
    intro n member
    obtain ⟨v, inside, m, inRing, rfl⟩ := memSnapshots.mp member
    exact isValueOfRing rings (known v inside) inRing
  refine ⟨fun n member => Nat.lt_of_lt_of_le (there n member) size, fun n member => ?_,
    fun n first m second => ?_⟩
  · obtain ⟨v, inside, m, inRing, rfl⟩ := memSnapshots.mp member
    refine ⟨s.snapshot (s.value m).next, memSnapshots.mpr ⟨v, inside, _, ?_, rfl⟩, rfl⟩
    have value := isValueOfRing rings (known v inside) inRing
    rw [memRing rings (known v inside)] at inRing ⊢
    obtain ⟨k, same⟩ := inRing
    refine ⟨k + 1, ?_⟩
    rw [Function.iterate_succ_apply', same, followKnown value]
  · have value := there n first
    have value' := there m second
    obtain ⟨-, -, a, -, rfl⟩ := memSnapshots.mp first
    obtain ⟨-, -, b, -, rfl⟩ := memSnapshots.mp second
    constructor
    · intro same
      exact congrArg (fun v => (s.value v).next) same
    · exact rings.injective a b value value'

/-! Rings that are put back. -/

section

variable {snapshots : List Snapshot}

theorem restoreRingsRelinks (s : State) (snapshots : List Snapshot) :
    Relinks s (s.restoreRings snapshots) :=
  (scatterRelinks snapshots s).trans (gatherRelinks snapshots _)

theorem scatterPermutes (snapshots : List Snapshot) : ∀ {s : State}, s.Permutes →
    (∀ n ∈ snapshots, s.IsValue n.value) → (s.scatter snapshots).Permutes := by
  induction snapshots with
  | nil => exact fun rings _ => rings
  | cons n rest ih =>
    intro s rings known
    refine ih (permutesLeave rings (known n List.mem_cons_self)) fun m member => ?_
    exact ((s.leaveRingRelinks _).isValue _).mpr (known m (List.mem_cons_of_mem _ member))

theorem restoreRingsPermutes (rings : s.Permutes) (whole : Whole s snapshots) :
    (s.restoreRings snapshots).Permutes ∧
      ∀ n ∈ snapshots, ((s.restoreRings snapshots).value n.value).next = n.next := by
  have scattered := scatterRelinks snapshots s
  have known : ∀ n ∈ snapshots, (s.scatter snapshots).IsValue n.value :=
    fun n member => (scattered.isValue _).mpr (whole.known n member)
  have alone := fun n member =>
    scatterAlone snapshots rings whole.known n.value (.inr ⟨n, member, rfl⟩)
  have rings' := scatterPermutes snapshots rings whole.known
  refine ⟨permutesGather rings' ⟨known, whole.closed, whole.single⟩ alone, fun n member => ?_⟩
  rcases followGather snapshots known n.value with ⟨m, inside, same, follow⟩ | ⟨others, -⟩
  · have value : ((s.scatter snapshots).gather snapshots).IsValue n.value :=
      ((gatherRelinks snapshots _).isValue _).mpr (known n member)
    rw [followKnown value] at follow
    rw [restoreRingsEq, follow]
    exact (whole.single m inside n member).mp same
  · exact absurd rfl (others n member)

end

/-! What may have happened since the fork. -/

structure State.Since (s₀ s : State) : Prop where
  size : s₀.values.size ≤ s.values.size
  geometry : s.geometry = s₀.geometry
  shape : s₀.resources.SameShape s.resources
  reserved : ∀ id, (s.resources.get id).reserved = (s₀.resources.get id).reserved

theorem sinceIff {s₀ : State} : (s₀.values.size ≤ s.values.size ∧ s.geometry = s₀.geometry ∧
    (s.resources.registers.length = s₀.resources.registers.length ∧
      s.resources.slots.length = s₀.resources.slots.length) ∧
    ∀ id ∈ s.resources.ids,
      (s.resources.get id).reserved = (s₀.resources.get id).reserved) ↔ s₀.Since s := by
  constructor
  · rintro ⟨size, geometry, ⟨registers, slots⟩, reserved⟩
    refine ⟨size, geometry, ⟨registers, slots⟩, fun id => ?_⟩
    by_cases has : s.resources.Has id
    · exact reserved id (ResourceTable.memIds.mpr has)
    · have has' : ¬ s₀.resources.Has id := fun there =>
        has (((⟨registers, slots⟩ : s₀.resources.SameShape s.resources).has id).mpr there)
      rw [ResourceTable.getOutside has, ResourceTable.getOutside has']
  · exact fun h => ⟨h.size, h.geometry, ⟨h.shape.registers, h.shape.slots⟩, fun id _ => h.reserved id⟩

instance (s₀ s : State) : Decidable (s₀.Since s) := decidable_of_iff _ sinceIff

theorem State.Since.extends {s₀ : State} (since : s₀.Since s) (extend : Extends s s') :
    s₀.Since s' :=
  ⟨since.size.trans extend.size, extend.geometry.trans since.geometry,
    since.shape.trans extend.shape, fun id => (extend.reserved id).trans (since.reserved id)⟩

theorem State.Since.free {s₀ : State} (since : s₀.Since s) (id : ResourceId) :
    s.Free id ↔ s₀.Free id := by
  rw [Free, Free, since.reserved]

def State.Chosen (s : State) : Prop :=
  ∀ v, s.Live v → ∀ i ∈ (s.value v).sites, ∀ mask, s.site i ≠ .register mask none

theorem resourceOfCopy {g : FrameGeometry} {x y : Site} (chosen : ∀ mask, x ≠ .register mask none)
    (same : y.coincides x.copy = true) : y.resource? g = x.resource? g := by
  cases x with
  | constant p => cases y <;> simp_all [Site.copy, Site.coincides, Site.resource?]
  | address p => cases y <;> simp_all [Site.copy, Site.coincides, Site.resource?]
  | memory m acquired =>
    cases y <;> simp_all [Site.copy, Site.ofMemory, Site.coincides, Site.resource?]
  | register mask number =>
    cases number with
    | none => exact absurd rfl (chosen mask)
    | some n =>
      cases y with
      | register mask' number' =>
        cases number' with
        | none => simp [Site.coincides] at same
        | some n' =>
          simp only [Site.copy, Site.ofRegisters, Site.coincides] at same
          rw [RegisterSet.hasSingle same]
          rfl
      | constant p => simp [Site.copy, Site.ofRegisters, Site.coincides] at same
      | address p => simp [Site.copy, Site.ofRegisters, Site.coincides] at same
      | memory m acquired => simp [Site.copy, Site.ofRegisters, Site.coincides] at same

theorem copyCopy (x : Site) : x.copy.copy = x.copy := by
  cases x with
  | register mask number => cases number <;> rfl
  | constant p => rfl
  | address p => rfl
  | memory m acquired => rfl

theorem copyOpen (x : Site) (mask : RegisterSet) (n : Register) :
    x.copy ≠ .register mask (some n) := by
  cases x with
  | register mask number => cases number <;> simp [Site.copy, Site.ofRegisters]
  | constant p => simp [Site.copy]
  | address p => simp [Site.copy]
  | memory m acquired => simp [Site.copy, Site.ofMemory]

/-! Sites that are put back. -/

section

variable {s₀ base : State} {snapshots : List Snapshot} {done : ValueId → List SiteId} {j : SiteId}

def State.Denotes (s₀ t : State) (now then_ : List SiteId) : Prop :=
  List.Forall₂ (fun i j => t.IsSite i ∧ (t.site i).coincides (s₀.site j).copy = true) now then_

theorem Denotes.extends {now then_ : List SiteId} (denotes : s₀.Denotes t now then_)
    (extend : Extends t t') : s₀.Denotes t' now then_ := by
  refine denotes.imp fun i j ⟨known, same⟩ => ⟨extend.isSite known, ?_⟩
  rw [coincidesPlace (extend.place i known)]
  exact same

/-- Values are being placed where they were. The sites in `done` have been put back, and what they
stand for is all that has an owner. -/
structure Restoring (s₀ base : State) (snapshots : List Snapshot) (t : State)
    (done : ValueId → List SiteId) : Prop where
  formed : t.WellFormed
  extend : Extends base t
  suffix : ∀ v, done v <:+ (s₀.value v).sites
  sites : ∀ v, ((t.value v).sites = (base.value v).sites ∧ done v = []) ∨
    s₀.Denotes t (t.value v).sites (done v)
  owned : ∀ id o, t.owner? id = some o → s₀.Live o.value ∧ (∃ n ∈ snapshots, n.value = o.value) ∧
    ∃ j ∈ done o.value, s₀.resource? j = some id

theorem Restoring.vacant {lent : List Register} (h : Restoring s₀ base snapshots t done)
    (coherent : s₀.Coherent lent) (chosen : s₀.Chosen) (since : s₀.Since base) (alive : s₀.Live v)
    (suffix : j :: done v <:+ (s₀.value v).sites) {y : Site}
    (same : y.coincides (s₀.site j).copy = true) (names : y.resource? t.geometry = some id)
    (free : t.Free id) : t.owner? id = none := by
  have since' := since.extends h.extend
  have listed : j ∈ (s₀.value v).sites := suffix.subset List.mem_cons_self
  by_contra some
  obtain ⟨o, owner⟩ := Option.ne_none_iff_exists'.mp some
  obtain ⟨alive', -, j', before, names'⟩ := h.owned id o owner
  have has := (since'.shape.has id).mp (ResourceTable.hasOfOwner owner)
  have free' := (since'.free id).mp free
  have stands : s₀.resource? j = Option.some id := by
    rw [resource?, ← resourceOfCopy (chosen v alive j listed) same, ← since'.geometry]
    exact names
  have here := coherent.owned.held v j id alive listed stands has free'
  have there := coherent.owned.held o.value j' id alive' ((h.suffix _).subset before) names' has free'
  obtain ⟨same, rfl⟩ := Owner.mk.inj (Option.some.inj (here.symm.trans there))
  rw [← same] at before
  have once := (coherent.once.each v).sublist suffix.sublist
  exact (List.nodup_cons.mp once).1 before

def State.settleNew (s : State) (v : ValueId) (x y : Site) : State :=
  ((s.newSite x).2.reach ⟨s.sites.size⟩).settleAt v ⟨s.sites.size⟩ y

section

variable {x y : Site}

theorem keepsCreated (s : State) (x : Site) :
    Keeps s ((s.newSite x).2.reach ⟨s.sites.size⟩) :=
  (s.keepsNewSite x).trans ((s.newSite x).2.keepsReach _)

theorem createdIsSite (s : State) (x : Site) :
    ((s.newSite x).2.reach ⟨s.sites.size⟩).IsSite ⟨s.sites.size⟩ := by
  show s.sites.size < (s.sites.push x).size
  simp

theorem settleNewExtends (s : State) (v : ValueId) (x y : Site) : Extends s (s.settleNew v x y) := by
  have owned := (keepsCreated s x).trans
    (((s.newSite x).2.reach ⟨s.sites.size⟩).keepsOwn ⟨v, ⟨s.sites.size⟩⟩ y)
  refine (extendsSetSite owned.extends ?_ y).trans (keepsEnlist _ v _).extends
  simp [IsSite]

theorem settleNewFormed (formed : s.WellFormed) (value : s.IsValue v) :
    (s.settleNew v x y).WellFormed := by
  have keeps := keepsCreated s x
  refine settleAtFormed _ _ (keeps.wellFormed formed fun w i listed => ?_)
    ((keeps.isValue v).mpr value) (createdIsSite s x)
  exact keeps.isSite (formed.listed w i listed)

theorem settleNewSites (value : s.IsValue v) (w : ValueId) :
    ((s.settleNew v x y).value w).sites =
      if w = v then ⟨s.sites.size⟩ :: (s.value w).sites else (s.value w).sites :=
  settleAtSites _ _ ((keepsCreated s x).isValue v |>.mpr value) w

theorem settleNewSite (s : State) (v : ValueId) (x y : Site) :
    (s.settleNew v x y).IsSite ⟨s.sites.size⟩ ∧ (s.settleNew v x y).site ⟨s.sites.size⟩ = y := by
  have there := createdIsSite s x
  constructor
  · rw [IsSite, settleNew, (settleAtSize _ y).2]
    exact there
  · rw [settleNew, settleAtSite _ _ there, if_pos rfl]

theorem settleNewOwner {o : Owner} (owner : (s.settleNew v x y).owner? id = some o) :
    s.owner? id = some o ∨ (o.value = v ∧ y.resource? s.geometry = some id) := by
  have resources : (s.settleNew v x y).resources =
      (((s.newSite x).2.reach ⟨s.sites.size⟩).own ⟨v, ⟨s.sites.size⟩⟩ y).resources := by
    rw [settleNew, settleAtRest]
  rw [owner?, resources] at owner
  have found := (ownOwner _ _ y id).symm.trans owner
  split at found
  · rename_i here
    cases found
    exact .inr ⟨rfl, here.1⟩
  · rw [reachOwner] at found
    exact .inl found

end

theorem Restoring.step {lent : List Register} (h : Restoring s₀ base snapshots t done)
    (coherent : s₀.Coherent lent) (chosen : s₀.Chosen) (since : s₀.Since base) (alive : s₀.Live v)
    (value : t.IsValue v) (captured : ∃ n ∈ snapshots, n.value = v)
    (suffix : j :: done v <:+ (s₀.value v).sites)
    (denotes : s₀.Denotes t (t.value v).sites (done v))
    (ok : placeAt v (s₀.site j).copy t = .ok () t') :
    Restoring s₀ base snapshots t' (Function.update done v (j :: done v)) ∧ t'.IsValue v ∧
      s₀.Denotes t' (t'.value v).sites (j :: done v) := by
  obtain ⟨y, same, rfl⟩ := placeAtSettles h.formed (copyOpen _)
    (fun y id same names free => h.vacant coherent chosen since alive suffix same names free) ok
  have extend := settleNewExtends t v (s₀.site j).copy y
  have since' := since.extends h.extend
  obtain ⟨known, site⟩ := settleNewSite t v (s₀.site j).copy y
  have here : s₀.Denotes (t.settleNew v (s₀.site j).copy y)
      ((t.settleNew v (s₀.site j).copy y).value v).sites (j :: done v) := by
    rw [settleNewSites value, if_pos rfl]
    refine .cons ⟨known, ?_⟩ (Denotes.extends denotes extend)
    rw [site]
    exact same
  refine ⟨⟨settleNewFormed h.formed value, h.extend.trans extend, fun w => ?_, fun w => ?_,
    fun id o owner => ?_⟩, extend.isValue value, here⟩
  · by_cases self : w = v
    · subst self
      simpa using suffix
    · rw [Function.update_of_ne self]
      exact h.suffix w
  · by_cases self : w = v
    · subst self
      rw [Function.update_self]
      exact .inr here
    · rw [Function.update_of_ne self]
      rcases h.sites w with ⟨unchanged, none⟩ | denotes'
      · refine .inl ⟨?_, none⟩
        show ((t.settleNew v (s₀.site j).copy y).value w).sites = _
        rw [settleNewSites value, if_neg self]
        exact unchanged
      · refine .inr ?_
        show s₀.Denotes (t.settleNew v _ y) ((t.settleNew v (s₀.site j).copy y).value w).sites _
        rw [settleNewSites value, if_neg self]
        exact Denotes.extends denotes' extend
  · rcases settleNewOwner owner with before | ⟨rfl, names⟩
    · obtain ⟨alive', captured', j', inside, names'⟩ := h.owned id o before
      refine ⟨alive', captured', j', ?_, names'⟩
      by_cases self : o.value = v
      · rw [self, Function.update_self]
        rw [self] at inside
        exact List.mem_cons_of_mem _ inside
      · rw [Function.update_of_ne self]
        exact inside
    · refine ⟨alive, captured, j, by simp, ?_⟩
      have listed : j ∈ (s₀.value o.value).sites := suffix.subset List.mem_cons_self
      rw [resource?, ← resourceOfCopy (chosen _ alive j listed) same, ← since'.geometry]
      exact names

theorem Restoring.all {lent : List Register} (coherent : s₀.Coherent lent) (chosen : s₀.Chosen)
    (since : s₀.Since base) (alive : s₀.Live v) (captured : ∃ n ∈ snapshots, n.value = v)
    (todo : List SiteId) : ∀ {t : State} {done : ValueId → List SiteId},
    Restoring s₀ base snapshots t done → t.IsValue v → todo ++ done v = (s₀.value v).sites →
    s₀.Denotes t (t.value v).sites (done v) →
    (todo.map fun j => (s₀.site j).copy).reverse.forM (fun x => placeAt v x.copy) t = .ok ⟨⟩ t' →
    Restoring s₀ base snapshots t' (Function.update done v (s₀.value v).sites) := by
  induction todo using List.reverseRecOn with
  | nil =>
    intro t done h _ whole _ ok
    obtain ⟨-, rfl⟩ := pureOk.mp ok
    rw [← whole, List.nil_append, Function.update_eq_self]
    exact h
  | append_singleton todo j ih =>
    intro t done h value whole denotes ok
    rw [List.map_append, List.reverse_append] at ok
    obtain ⟨⟨⟩, u, placed, later⟩ := bindOk.mp ok
    have first : placeAt v (s₀.site j).copy t = .ok ⟨⟩ u := by
      rw [← copyCopy]
      exact placed
    rw [List.append_assoc] at whole
    obtain ⟨h', value', denotes'⟩ := h.step coherent chosen since alive value captured
      ⟨todo, whole⟩ denotes first
    have after := ih h' value' (by rw [Function.update_self]; exact whole)
      (by rw [Function.update_self]; exact denotes') later
    rwa [Function.update_idem] at after

theorem Restoring.ask {reads : ReadTable} (h : Restoring s₀ base snapshots t done)
    (evolves : t.reads.Evolves reads) :
    Restoring s₀ base snapshots { t with reads } done := by
  have keeps := t.keepsReads evolves
  refine ⟨keeps.wellFormed h.formed h.formed.listed, h.extend.trans keeps.extends, h.suffix,
    fun w => ?_, h.owned⟩
  rcases h.sites w with unchanged | denotes
  · exact .inl unchanged
  · exact .inr (Denotes.extends denotes keeps.extends)

def Entire (s₀ base : State) (done : ValueId → List SiteId) : Prop :=
  ∀ v, done v = [] ∨ base.Live v ∧ done v = (s₀.value v).sites

def PutBack (s₀ base : State) (done : ValueId → List SiteId) (n : Snapshot) : Prop :=
  (base.value n.value).sites = [] → base.Live n.value → done n.value = (s₀.value n.value).sites

theorem restoreSitesSpec {lent : List Register} (formed : base.WellFormed)
    (coherent : s₀.Coherent lent) (chosen : s₀.Chosen) (since : s₀.Since base)
    (path : base.Live v → s₀.Live v) (value : base.IsValue v) (member : s₀.snapshot v ∈ snapshots)
    (h : Restoring s₀ base snapshots t done) (entire : Entire s₀ base done)
    (ok : restoreSites (s₀.snapshot v) t = .ok () t') :
    ∃ done', Restoring s₀ base snapshots t' done' ∧ Entire s₀ base done' ∧
      PutBack s₀ base done' (s₀.snapshot v) ∧
      ∀ n, PutBack s₀ base done n → PutBack s₀ base done' n := by
  obtain ⟨reads, state, evolves, -⟩ := liveReadSpec h.formed v
  have live : (t.isLive v).1 = true ↔ base.Live v := h.extend.live formed h.formed value
  have asked := h.ask evolves
  simp only [restoreSites, Lowering.live, modifyGetBind, getBind, isLiveState] at ok
  rw [show (s₀.snapshot v).value = v from rfl, state] at ok
  split at ok
  · rename_i due
    simp only [Bool.and_eq_true, Bool.not_eq_true', List.isEmpty_iff] at due
    obtain ⟨⟨alive, -⟩, bare⟩ := due
    have nothing : done v = [] := by
      rcases asked.sites v with ⟨-, none⟩ | denotes
      · exact none
      · rw [bare] at denotes
        exact List.forall₂_nil_left_iff.mp denotes
    refine ⟨_, Restoring.all coherent chosen since (path (live.mp alive)) ⟨_, member, rfl⟩ _ asked
      (asked.extend.isValue value) (by rw [nothing, List.append_nil]) ?_ ok, fun w => ?_,
      fun _ _ => ?_, fun n before empty alive' => ?_⟩
    · rw [bare, nothing]
      exact .nil
    · by_cases self : w = v
      · subst self
        rw [Function.update_self]
        exact .inr ⟨live.mp alive, rfl⟩
      · rw [Function.update_of_ne self]
        exact entire w
    · exact Function.update_self ..
    · by_cases self : n.value = v
      · rw [self, Function.update_self]
      · rw [Function.update_of_ne self]
        exact before empty alive'
  · rename_i skipped
    obtain ⟨-, rfl⟩ := pureOk.mp ok
    refine ⟨done, asked, entire, fun empty alive => ?_, fun n before => before⟩
    rcases entire v with none | ⟨-, whole⟩
    · -- the value has not got a site since, so there was nothing to put back
      have bare : (t.value v).sites = [] := by
        rcases asked.sites v with ⟨unchanged, -⟩ | denotes
        · exact unchanged.trans empty
        · rw [none] at denotes
          exact List.forall₂_nil_right_iff.mp denotes
      have nowhere : (s₀.snapshot v).sites = [] := by
        simpa [live.mpr alive, bare, show ({ t with reads } : State).value v = t.value v from rfl]
          using skipped
      exact none.trans (List.map_eq_nil_iff.mp nowhere).symm
    · exact whole

theorem restoreEachSpec {lent : List Register} (formed : base.WellFormed)
    (coherent : s₀.Coherent lent) (chosen : s₀.Chosen) (since : s₀.Since base)
    (path : ∀ n ∈ snapshots, base.Live n.value → s₀.Live n.value)
    (known : ∀ n ∈ snapshots, base.IsValue n.value)
    (exact_ : ∀ n ∈ snapshots, s₀.snapshot n.value = n) (rest : List Snapshot) :
    ∀ {t : State} {done : ValueId → List SiteId}, (∀ n ∈ rest, n ∈ snapshots) →
    Restoring s₀ base snapshots t done → Entire s₀ base done →
    rest.forM restoreSites t = .ok ⟨⟩ t' →
    ∃ done', Restoring s₀ base snapshots t' done' ∧ Entire s₀ base done' ∧
      (∀ n ∈ rest, PutBack s₀ base done' n) ∧
      ∀ n, PutBack s₀ base done n → PutBack s₀ base done' n := by
  induction rest with
  | nil =>
    intro t done _ h entire ok
    obtain ⟨-, rfl⟩ := pureOk.mp ok
    exact ⟨done, h, entire, by simp, fun _ before => before⟩
  | cons n rest ih =>
    intro t done sub h entire ok
    obtain ⟨⟨⟩, u, first, later⟩ := bindOk.mp ok
    have member := sub n List.mem_cons_self
    rw [← exact_ n member] at first
    obtain ⟨done₁, h₁, entire₁, put, more⟩ := restoreSitesSpec formed coherent chosen since
      (path n member) (known n member) (by rw [exact_ n member]; exact member) h entire first
    obtain ⟨done₂, h₂, entire₂, puts, more'⟩ := ih
      (fun m inside => sub m (List.mem_cons_of_mem _ inside)) h₁ entire₁ later
    refine ⟨done₂, h₂, entire₂, fun m inside => ?_, fun m before => more' m (more m before)⟩
    rcases List.mem_cons.mp inside with rfl | inside
    · rw [exact_ m member] at put
      exact more' m put
    · exact puts m inside

def State.forkValues (s : State) (e : EventId) : List ValueId :=
  let d := s.event e
  let saved := match d.successors.getLast?.bind fun l => (s.link l).fork with
    | some f => (s.forkAt f).saved
    | none => []
  s.frames.values d.stackAfter d.finalLocals ++ saved

theorem captureSnapshotsEq {e : EventId} (fork : 1 < (s.event e).successors.length)
    (first : (s.event e).snapshots = []) :
    ((s.captureSnapshots e).event e).snapshots = (s.forkValues e).flatMap s.snapshotsOf := by
  have inside : e.index < s.events.size := by
    by_contra outside
    have empty : s.event e = default := by simp [event, outside]
    rw [empty] at fork
    exact absurd fork (by decide)
  unfold captureSnapshots
  dsimp only
  rw [if_neg (by omega), eventModify, if_pos ⟨rfl, inside⟩]
  simp only [first, List.nil_append]
  rfl

/-- The value is one of those whose rings were recorded, or an alias. -/
def State.Captured (s₀ : State) (vs : List ValueId) (v : ValueId) : Prop :=
  ∃ u ∈ vs, v ∈ s₀.ring u

theorem capturedSnapshot {vs : List ValueId} :
    s₀.Captured vs v ↔ s₀.snapshot v ∈ vs.flatMap s₀.snapshotsOf := by
  rw [memSnapshots]
  constructor
  · rintro ⟨u, member, inRing⟩
    exact ⟨u, member, v, inRing, rfl⟩
  · rintro ⟨u, member, m, inRing, same⟩
    have self : m = v := congrArg Snapshot.value same
    exact ⟨u, member, self ▸ inRing⟩

theorem ringPutBack {vs : List ValueId} (rings : s₀.Permutes) (known : ∀ v ∈ vs, s₀.IsValue v)
    (rings' : t.Permutes) (size : s₀.values.size ≤ t.values.size)
    (next : ∀ v, s₀.Captured vs v → (t.value v).next = (s₀.value v).next)
    (captured : s₀.Captured vs v) : t.ring v = s₀.ring v := by
  have value : ∀ u, s₀.Captured vs u → s₀.IsValue u := fun u ⟨_, inside, inRing⟩ =>
    isValueOfRing rings (known _ inside) inRing
  have value' : ∀ u, s₀.Captured vs u → t.IsValue u := fun u there =>
    Nat.lt_of_lt_of_le (value u there) size
  have steps : ∀ k, t.follow^[k] v = s₀.follow^[k] v ∧ s₀.Captured vs (s₀.follow^[k] v) := by
    intro k
    induction k with
    | zero => exact ⟨rfl, captured⟩
    | succ k ih =>
      obtain ⟨same, there⟩ := ih
      rw [Function.iterate_succ_apply', Function.iterate_succ_apply', same,
        followKnown (value' _ there), followKnown (value _ there), next _ there]
      obtain ⟨u, inside, inRing⟩ := there
      refine ⟨rfl, u, inside, memRingTrans rings (known u inside) inRing ?_⟩
      have there := isValueOfRing rings (known u inside) inRing
      rw [memRing rings there]
      exact ⟨1, followKnown there⟩
  have period : Function.minimalPeriod t.follow v = Function.minimalPeriod s₀.follow v := by
    refine Function.minimalPeriod_eq_minimalPeriod_iff.mpr fun n => ?_
    rw [Function.IsPeriodicPt, Function.IsFixedPt, (steps n).1]
    rfl
  rw [ringEq rings' (value' v captured), ringEq rings (value v captured), period]
  exact List.map_congr_left fun k _ => (steps k).1

/-- The rings of the fork are back, nothing has an owner, and the values in the frame are nowhere. A
value that is live was so at the fork. -/
structure Cleared (s₀ : State) (vs frame : List ValueId) (base : State) : Prop where
  formed : base.WellFormed
  since : s₀.Since base
  next : ∀ v, s₀.Captured vs v → (base.value v).next = (s₀.value v).next
  vacant : ∀ id, base.owner? id = none
  bare : ∀ v ∈ frame, (base.value v).sites = []
  path : ∀ v, s₀.Captured vs v → base.Live v → s₀.Live v

theorem isValueOfCaptured {vs : List ValueId} (rings : s₀.Permutes)
    (known : ∀ v ∈ vs, s₀.IsValue v) (captured : s₀.Captured vs v) : s₀.IsValue v := by
  obtain ⟨u, inside, inRing⟩ := captured
  exact isValueOfRing rings (known u inside) inRing

theorem clearedSpec {vs : List ValueId} (formed₀ : s₀.WellFormed)
    (known : ∀ v ∈ vs, s₀.IsValue v) (formed : s.WellFormed) (since : s₀.Since s)
    (read : ∀ v, s₀.Captured vs v → ∀ r, (s.value v).reads = some r → s.reads.Pending r →
      s₀.Live v) (f : EventId) :
    Cleared s₀ vs (s.frames.values (s.event f).stackBefore (s.event f).localsBefore)
      ((s.restoreRings (vs.flatMap s₀.snapshotsOf)).vacateFrame f) := by
  have rings := formed₀.rings
  have whole := snapshotsWhole rings known since.size
  have relinks := restoreRingsRelinks s (vs.flatMap s₀.snapshotsOf)
  obtain ⟨rings', next⟩ := restoreRingsPermutes formed.rings whole
  have formed₁ := relinks.wellFormed formed rings'
  have rest := relinks.rest
  generalize s.restoreRings (vs.flatMap s₀.snapshotsOf) = u at *
  have since₁ : s₀.Since u :=
    ⟨since.size.trans relinks.size.ge, relinks.unmoved.geometry.trans since.geometry,
      since.shape.trans relinks.unmoved.shape,
      fun id => (relinks.unmoved.reserved id).trans (since.reserved id)⟩
  have aliases : ∀ v, s₀.Captured vs v → (u.value v).next = (s₀.value v).next :=
    fun v captured => next _ (capturedSnapshot.mp captured)
  obtain ⟨vacated, none, bare⟩ := vacateFrameSpec u f
  have keeps := vacated.keeps
  have formed₂ := keeps.wellFormed formed₁ fun v i listed =>
    keeps.isSite (formed₁.listed v i (vacated.listed v i listed))
  refine ⟨formed₂, since₁.extends keeps.extends,
    fun v captured => (keeps.next v).trans (aliases v captured), none, ?_, fun v captured alive => ?_⟩
  · rw [rest] at bare
    rw [rest]
    exact bare
  · rw [keeps.live formed₁ formed₂, liveIff formed₁] at alive
    obtain ⟨m, inRing, r, chain, pending⟩ := alive
    have inRing₀ : m ∈ s₀.ring v :=
      ringPutBack rings known rings' since₁.size aliases captured ▸ inRing
    have value := isValueOfCaptured rings known captured
    obtain ⟨a, inside, there⟩ := captured
    rw [relinks.head] at chain
    rw [rest] at pending
    refine (liveOfAlias formed₀ value inRing₀).mp ?_
    exact read m ⟨a, inside, memRingTrans rings (known a inside) there inRing₀⟩ r chain pending

theorem restoreClearedSpec {lent : List Register} {vs frame : List ValueId}
    (coherent : s₀.Coherent lent) (chosen : s₀.Chosen) (known : ∀ v ∈ vs, s₀.IsValue v)
    (cleared : Cleared s₀ vs frame base)
    (ok : (vs.flatMap s₀.snapshotsOf).reverse.forM restoreSites base = .ok ⟨⟩ s') :
    ∃ done, Restoring s₀ base (vs.flatMap s₀.snapshotsOf) s' done ∧ Entire s₀ base done ∧
      ∀ v, s₀.Captured vs v → PutBack s₀ base done (s₀.snapshot v) := by
  have recorded : ∀ n ∈ vs.flatMap s₀.snapshotsOf,
      s₀.snapshot n.value = n ∧ s₀.Captured vs n.value := by
    intro n member
    obtain ⟨a, inside, m, inRing, rfl⟩ := memSnapshots.mp member
    exact ⟨rfl, a, inside, inRing⟩
  have start : Restoring s₀ base (vs.flatMap s₀.snapshotsOf) base fun _ => [] := by
    refine ⟨cleared.formed, .refl _, fun _ => List.nil_suffix, fun _ => .inl ⟨rfl, rfl⟩,
      fun id o owner => ?_⟩
    rw [cleared.vacant] at owner
    cases owner
  have there : ∀ n ∈ vs.flatMap s₀.snapshotsOf, base.IsValue n.value := fun n member =>
    Nat.lt_of_lt_of_le (isValueOfCaptured coherent.formed.rings known (recorded n member).2)
      cleared.since.size
  obtain ⟨done, restored, entire, put, -⟩ := restoreEachSpec cleared.formed coherent chosen
    cleared.since (fun n member => cleared.path _ (recorded n member).2) there
    (fun n member => (recorded n member).1) _ (fun n member => List.mem_reverse.mp member) start
    (fun _ => .inl rfl) ok
  refine ⟨done, restored, entire, fun v captured => put _ ?_⟩
  exact List.mem_reverse.mpr (capturedSnapshot.mp captured)

theorem pathsAreIsolated {lent lent' : List Register} {e f : EventId} (coherent : s₀.Coherent lent)
    (chosen : s₀.Chosen) (known : ∀ v ∈ s₀.forkValues e, s₀.IsValue v)
    (fork : 1 < (s₀.event e).successors.length) (first : (s₀.event e).snapshots = [])
    (later : s.Coherent lent') (since : s₀.Since s)
    (read : ∀ v, s₀.Captured (s₀.forkValues e) v → ∀ r, (s.value v).reads = some r →
      s.reads.Pending r → s₀.Live v)
    (ok : restoreSnapshots f ((s₀.captureSnapshots e).event e).snapshots s = .ok () s') :
    (∀ v ∈ s.frames.values (s.event f).stackBefore (s.event f).localsBefore,
      s₀.Captured (s₀.forkValues e) v → (s'.value v).next = (s₀.value v).next ∧
        if s'.Live v then List.Forall₂ (fun i j => (s'.site i).coincides (s₀.site j).copy = true)
          (s'.value v).sites (s₀.value v).sites
        else (s'.value v).sites = []) ∧
    ∀ id o, s'.owner? id = some o → s₀.Captured (s₀.forkValues e) o.value := by
  rw [captureSnapshotsEq fork first] at ok
  simp only [restoreSnapshots, modifyBind] at ok
  have cleared := clearedSpec coherent.formed known later.formed since read f
  obtain ⟨done, restored, entire, put⟩ := restoreClearedSpec coherent chosen known cleared ok
  constructor
  · intro v framed captured
    have empty := cleared.bare v framed
    have value := Nat.lt_of_lt_of_le (isValueOfCaptured coherent.formed.rings known captured)
      cleared.since.size
    have live := restored.extend.live cleared.formed restored.formed value
    have sites : s₀.Denotes s' (s'.value v).sites (done v) := by
      rcases restored.sites v with ⟨unchanged, nothing⟩ | denotes
      · rw [unchanged, empty, nothing]
        exact .nil
      · exact denotes
    refine ⟨(restored.extend.next value).trans (cleared.next v captured), ?_⟩
    split
    · rename_i alive
      have all : done v = (s₀.value v).sites := put v captured empty (live.mp alive)
      rw [all] at sites
      exact sites.imp fun _ _ both => both.2
    · rename_i dead
      rcases entire v with nothing | ⟨alive, -⟩
      · rw [nothing] at sites
        exact List.forall₂_nil_right_iff.mp sites
      · exact absurd (live.mpr alive) dead
  · intro id o owner
    obtain ⟨-, ⟨n, member, same⟩, -⟩ := restored.owned id o owner
    obtain ⟨a, inside, m, inRing, rfl⟩ := memSnapshots.mp member
    rw [← same]
    exact ⟨a, inside, inRing⟩

end

end

theorem chosenOf {s : State} (all : ∀ k < s.values.size, ∀ i ∈ (s.value ⟨k⟩).sites, (s.site i).number?.isSome = true) :
    s.Chosen := by
  intro v _ i listed mask same
  have number := all v.index (s.isValueOfSites listed) i listed
  rw [same] at number
  cases number

def State.forked : State :=
  { crossed with
    frames := ⟨#[], #[[some ⟨0⟩, some ⟨1⟩]], 2⟩
    events := #[⟨.dummy, none, ⟨0⟩, 0, none, none, none, [], none, [], [], [⟨0⟩, ⟨1⟩], []⟩,
      ⟨.dummy, none, ⟨0⟩, 0, none, none, none, [], none, [], [⟨0⟩], [], []⟩,
      ⟨.dummy, none, ⟨0⟩, 0, none, none, none, [], none, [], [⟨1⟩], [], []⟩]
    links := #[⟨⟨0⟩, ⟨1⟩, none, []⟩, ⟨⟨0⟩, ⟨2⟩, none, []⟩] }

/-- On the first path one value was moved to the register of the other. -/
def State.diverged : State := after (relocate ⟨0⟩ true 0) (forked.captureSnapshots ⟨0⟩)

/- On the second path both are in their own registers again. -/
theorem divergedIsIsolated : diverged.Coherent [] ∧
    (diverged.site ⟨2⟩).coincides (.ofRegister X64.rsi) = true ∧ ⟨2⟩ ∈ (diverged.value ⟨0⟩).sites ∧
    ∃ s', restoreSnapshots ⟨2⟩ ((forked.captureSnapshots ⟨0⟩).event ⟨0⟩).snapshots diverged =
        .ok () s' ∧
      List.Forall₂ (fun i j => (s'.site i).coincides (forked.site j).copy = true)
        (s'.value ⟨0⟩).sites (forked.value ⟨0⟩).sites := by
  have coherent : forked.Coherent [] := by decide +kernel
  have later : diverged.Coherent [] := by decide +kernel
  have known : ∀ v ∈ forked.forkValues ⟨0⟩, forked.IsValue v := by decide +kernel
  have alive : ∀ k < forked.values.size, forked.Live ⟨k⟩ := by decide +kernel
  have chosen : forked.Chosen := chosenOf (by decide +kernel)
  have since : forked.Since diverged := by decide +kernel
  have member : forked.Captured (forked.forkValues ⟨0⟩) ⟨0⟩ :=
    ⟨⟨0⟩, by decide +kernel, selfMemRing _ _⟩
  obtain ⟨⟨⟩, s', ok⟩ : Succeeds (restoreSnapshots ⟨2⟩
      ((forked.captureSnapshots ⟨0⟩).event ⟨0⟩).snapshots) diverged := by decide +kernel
  have live : s'.Live ⟨0⟩ := by
    rw [← afterOk ok]
    decide +kernel
  obtain ⟨isolated, -⟩ := pathsAreIsolated coherent chosen known (by decide +kernel)
    (by decide +kernel) later since
    (fun v captured _ _ _ => alive v.index (isValueOfCaptured coherent.formed.rings known captured))
    ok
  have back := (isolated ⟨0⟩ (by decide +kernel) member).2
  rw [if_pos live] at back
  exact ⟨later, by decide +kernel, by decide +kernel, s', ok, back⟩

/-- Every live value in the frame of an event is where it was at the fork. -/
def State.Returns (s₀ : State) (f : EventId) (s' : State) : Prop :=
  ∀ v ∈ s'.frames.values (s'.event f).stackBefore (s'.event f).localsBefore, s'.Live v →
    List.Forall₂ (fun i j => (s'.site i).coincides (s₀.site j).copy = true) (s'.value v).sites (s₀.value v).sites

instance (s₀ : State) (f : EventId) (s' : State) : Decidable (s₀.Returns f s') :=
  inferInstanceAs (Decidable (∀ _ ∈ _, _))

/-- Of two live values at a fork one has a register, and the other one may go there but has not chosen it. -/
def State.forkedOpen : State :=
  { forked with
    sites := #[.ofRegisters (RegisterSet.single X64.rdi), .ofRegister X64.rdi]
    resources := (forked.resources.setOwner (.register X64.rdi) (some ⟨⟨1⟩, ⟨1⟩⟩)).setOwner (.register X64.rsi) none }

/-- A fork that has lost sight of the second path of a value. What the value lists is the register of another one. -/
def State.forkedStale : State :=
  { forkedOpen with
    values := #[{ kind := .general, next := ⟨0⟩, reads := some ⟨0⟩, sites := [⟨0⟩] },
      { kind := .general, next := ⟨1⟩, reads := some ⟨2⟩, sites := [⟨1⟩] }]
    sites := #[.ofRegister X64.rdi, .ofRegister X64.rdi]
    reads := ⟨#[⟨⟨0⟩, none, .fork [] [none, some ⟨1⟩] 0⟩, ⟨⟨0⟩, some ⟨2⟩, .single (.register X64.rdi) none none⟩,
      ⟨⟨1⟩, some ⟨2⟩, .single (.register X64.rdi) none none⟩]⟩
    links := #[⟨⟨0⟩, ⟨1⟩, some ⟨0⟩, []⟩, ⟨⟨0⟩, ⟨2⟩, some ⟨0⟩, []⟩]
    forks := #[⟨none, ⟨0⟩, [], some ⟨0⟩, 0, [(⟨0⟩, ⟨0⟩)]⟩] }

/-- The first path has been entered, and the second one is being entered. -/
def State.resumed : State := after (do enter ⟨1⟩; followLink ⟨1⟩ : Build Unit) (forkedStale.captureSnapshots ⟨0⟩)

/- The open register is chosen once more and taken from its owner. A value that comes to life on this path takes one,
too. -/
theorem forksDisturb :
    (forkedOpen.Coherent [] ∧ (forkedOpen.captureSnapshots ⟨0⟩).Coherent [] ∧
      (∀ k < forkedOpen.values.size, forkedOpen.Live ⟨k⟩) ∧
      Reaches (restoreSnapshots ⟨2⟩ ((forkedOpen.captureSnapshots ⟨0⟩).event ⟨0⟩).snapshots)
        (forkedOpen.captureSnapshots ⟨0⟩) fun s' => ¬ forkedOpen.Returns ⟨2⟩ s') ∧
    forkedStale.Coherent [] ∧ forkedStale.Chosen ∧ resumed.Coherent [] ∧ forkedStale.Since resumed ∧
      Reaches (restoreSnapshots ⟨2⟩ ((forkedStale.captureSnapshots ⟨0⟩).event ⟨0⟩).snapshots) resumed
        fun s' => ¬ forkedStale.Returns ⟨2⟩ s' := by
  refine ⟨by decide +kernel, by decide +kernel, chosenOf (by decide +kernel), by decide +kernel⟩

end Lowering
