import Lowering.Proofs.Splicing
import Lowering.Consumption
/-!
Every operation of the allocator keeps the tables in agreement.

Placing a value and moving one are rearrangements that end with a site being settled. Handing the
sites of a value to an alias takes them from the one and settles them for the other, one by one;
in between they are recorded without being listed.
-/
namespace Lowering

open State Build

variable {s s' t : State} {old : Nat} {id : ResourceId} {v w : ValueId} {i : SiteId}
  {lent : List Register} {due : List Owner}

/-! Placing a value. -/

theorem Seizes.tracked {x : Site} (h : Seizes old [] [] s id ⟨v, i⟩ t)
    (before : s.Tracked (x.addressed ++ lent) due) (value : s.IsValue v) (known : s.IsSite i)
    (fresh : s.Unlisted i) (settled : ∀ o ∈ due, o.site ≠ i) (early : i.index < old)
    (others : ∀ o ∈ due, o.site.index < old) (stands : x.resource? s.geometry = some id)
    (taken : x.isTaken = true) : ((t.setSite i x).enlist v i).Tracked lent due := by
  cases h with
  | reserved held =>
    have same : (s.setSite i x).enlist v i = s.settleAt v i x := by
      simp only [settleAt, own, stands, held, if_false]
    rw [same]
    refine before.settleAt value known fresh settled taken fun id' w j stands' free => ?_
    cases stands'.symm.trans stands
    exact absurd free held
  | @taken t u free run vacates =>
    have keeps := run.keeps.trans vacates.keeps
    have stands' : x.resource? u.geometry = some id := by
      rw [keeps.geometry]
      exact stands
    have same : ((u.modifyResources (·.setOwner id (some ⟨v, i⟩))).setSite i x).enlist v i =
        u.settleAt v i x := by
      simp only [settleAt, own, stands', (keeps.free id).mpr free, if_true]
    have middle := run.tracked before others
    rw [same]
    refine (vacates.tracked middle).settleAt ((keeps.isValue v).mpr value) (keeps.isSite known)
      (fun w listed => ?_) settled taken fun id' w j named _ listed => ?_
    · exact run.keepsUnlisted early fresh w (vacates.listed listed)
    · cases named.symm.trans stands'
      exact vacates.vacated middle.once listed

theorem Acquires.tracked (h : Acquires old [] [] s v i t) (before : s.Tracked lent due)
    (value : s.IsValue v) (known : s.IsSite i) (fresh : s.Unlisted i)
    (settled : ∀ o ∈ due, o.site ≠ i) (early : i.index < old)
    (others : ∀ o ∈ due, o.site.index < old) : (t.enlist v i).Tracked lent due := by
  have reached := before.reach i
  have address : (s.site i).taken.addressed = (s.site i).addressed :=
    Site.addressedOfPlace (Site.placeTaken _)
  have stands : (s.site i).taken.resource? s.geometry = s.resource? i :=
    Site.resourceOfPlace (Site.placeTaken _)
  rw [← address] at reached
  cases h with
  | bare names closed =>
    have none := stands.trans names
    have same : ((s.reach i).setSite i (s.site i).taken).enlist v i =
        (s.reach i).settleAt v i (s.site i).taken := by
      simp only [settleAt, own, show (s.reach i).geometry = s.geometry from rfl, none]
    rw [same]
    refine reached.settleAt value known fresh settled ?_ fun id w j named => ?_
    · cases site : s.site i with
      | register mask number =>
        cases number with
        | none => exact absurd site (closed mask)
        | some n => rfl
      | memory m acquired => rfl
      | constant p => rfl
      | address p => rfl
    · cases none.symm.trans named
  | named names seizes =>
    exact seizes.tracked reached value known fresh settled early others (stands.trans names)
      (takenIsTaken names)
  | settled site available seizes =>
    exact seizes.tracked (x := .register _ _) before value known fresh settled early others rfl rfl

theorem Acquires.size {kept hollow : List SiteId} (h : Acquires old kept hollow s v i t) : t.values.size = s.values.size := by
  cases h with
  | bare => rfl
  | named names seizes => exact seizes.keeps.size
  | settled site available seizes => exact seizes.keeps.size

theorem acquireAcquires (h : s.Tracked lent due) (ok : acquire v i s = .ok () t) :
    Acquires s.sites.size [] [] s v i t :=
  acquireSpec evictSpec ((h.reach i).ready le_rfl) (by simp) ok

theorem placeTracked (h : s.Tracked lent []) (value : s.IsValue v) (known : s.IsSite i)
    (own : ∀ w, i ∈ (s.value w).sites → w = v) (ok : place v i s = .ok () s') :
    s'.Tracked lent [] ∧ s'.values.size = s.values.size := by
  unfold place placeWith at ok
  rw [getBind] at ok
  split at ok
  · obtain ⟨-, rfl⟩ := pureOk.mp ok
    exact ⟨h, rfl⟩
  · rename_i absent
    simp only [bindOk, modifyOk] at ok
    obtain ⟨⟨⟩, t, acquired, rfl⟩ := ok
    have acquires := acquireAcquires h acquired
    have fresh : s.Unlisted i := by
      intro w listed
      rw [own w listed] at listed
      exact absent (by simpa using listed)
    refine ⟨acquires.tracked h value known fresh (by simp) known (by simp), ?_⟩
    rw [sizeModifyValue]
    exact acquires.size

theorem placeAtTracked {x : Site} (h : s.Tracked lent []) (value : s.IsValue v)
    (ok : placeAt v x s = .ok () s') :
    s'.Tracked lent [] ∧ s'.values.size = s.values.size := by
  unfold placeAt at ok
  rw [modifyGetBind] at ok
  have created : (s.newSite x).2.Tracked lent [] :=
    h.still (s.keepsNewSite x) (fun _ => rfl) (fun i => s.siteNewOld x) fun _ => rfl
  have known : (s.newSite x).2.IsSite (s.newSite x).1 := by simp [IsSite, newSite]
  refine placeTracked (s := (s.newSite x).2) created value known (fun w listed => ?_) ok
  have there := h.formed.listed w _ listed
  exact absurd there (by simp [IsSite, newSite])

/-! Asking. -/

theorem State.Tracked.asked (h : s.Tracked lent due) {reads : ReadTable}
    (evolves : s.reads.Evolves reads) : { s with reads }.Tracked lent due :=
  h.still (s.keepsAsk s.statistics s.resources.available evolves) (fun _ => rfl)
    (fun _ _ => rfl) fun _ => rfl

theorem State.Tracked.isLive (h : s.Tracked lent due) (v : ValueId) :
    (s.isLive v).2.Tracked lent due := by
  obtain ⟨reads, state, evolves, -⟩ := liveReadSpec h.formed v
  rw [isLiveState, state]
  exact h.asked evolves

theorem isLiveValues (s : State) (formed : s.WellFormed) (v : ValueId) :
    (s.isLive v).2.values = s.values := by
  obtain ⟨reads, state, -⟩ := liveReadSpec formed v
  rw [isLiveState, state]

/-! Taking sites away. -/

theorem keepsDetachAll (os : List Owner) : ∀ s : State, Keeps s (os.foldl State.detach s) := by
  induction os with
  | nil => exact Keeps.refl
  | cons o rest ih => exact fun s => (s.keepsDetach o).trans (ih _)

theorem keepsClearSites (s : State) (v : ValueId) : Keeps s (s.clearSites v) :=
  keepsDetachAll _ s

theorem detachAllListed (os : List Owner) : ∀ {s : State} {o : Owner},
    o.site ∈ ((os.foldl State.detach s).value o.value).sites →
      o.site ∈ (s.value o.value).sites ∧ o ∉ os := by
  induction os with
  | nil => exact fun listed => ⟨listed, by simp⟩
  | cons p rest ih =>
    intro s o listed
    obtain ⟨before, absent⟩ := ih listed
    obtain ⟨first, apart⟩ := (s.detachListed p).mp before
    refine ⟨first, fun inside => ?_⟩
    rcases List.mem_cons.mp inside with rfl | inside
    · exact apart rfl rfl
    · exact absent inside

theorem detachAllOwner (os : List Owner) : ∀ {s : State} {o : Owner},
    (os.foldl State.detach s).owner? id = some o → s.owner? id = some o := by
  induction os with
  | nil => exact fun owner => owner
  | cons p rest ih =>
    intro s o owner
    have before := ih owner
    rw [State.detachOwner] at before
    split at before
    · cases before
    · exact before

theorem clearSitesBare (member : w ∈ s.ring v) : ((s.clearSites v).value w).sites = [] := by
  refine List.eq_nil_iff_forall_not_mem.mpr fun i listed => ?_
  obtain ⟨before, absent⟩ := detachAllListed (o := ⟨w, i⟩) _ listed
  exact absent (memPlacements.mpr ⟨member, before⟩)

theorem clearAllTracked (vs : List ValueId) : ∀ {s : State}, s.Tracked lent due →
    (∀ v ∈ vs, s.IsValue v) → (vs.foldl State.clearSites s).Tracked lent due ∧
      Keeps s (vs.foldl State.clearSites s) := by
  induction vs with
  | nil => exact fun h _ => ⟨h, .refl _⟩
  | cons v rest ih =>
    intro s h known
    have keeps := keepsClearSites s v
    obtain ⟨tracked, later⟩ := ih (h.clearSites (known v List.mem_cons_self)) fun w member =>
      (keeps.isValue w).mpr (known w (List.mem_cons_of_mem _ member))
    exact ⟨tracked, keeps.trans later⟩

theorem ResourceTable.memOwned {t : ResourceTable} {o : Owner} (inside : (id, o) ∈ t.owned) :
    (t.get id).owner = some o := by
  unfold ResourceTable.owned at inside
  simp only [List.mem_append, List.mem_filterMap, Option.map_eq_some_iff, Prod.mk.injEq] at inside
  rcases inside with ⟨⟨r, n⟩, member, p, owner, rfl, rfl⟩ | ⟨⟨r, n⟩, member, p, owner, rfl, rfl⟩
  · have here := List.mk_mem_zipIdx_iff_getElem?.mp member
    simpa [ResourceTable.get, List.getD_eq_getElem?_getD, here] using owner
  · have here := List.mk_mem_zipIdx_iff_getElem?.mp member
    simpa [ResourceTable.get, List.getD_eq_getElem?_getD, here] using owner

theorem vacateResourcesTracked (fuel : Nat) : ∀ {s : State}, s.Tracked lent [] →
    (vacateResources fuel s).Tracked lent [] ∧ Keeps s (vacateResources fuel s) := by
  induction fuel with
  | zero => exact fun h => ⟨h, .refl _⟩
  | succ fuel ih =>
    intro s h
    unfold vacateResources
    cases first : s.resources.owned.head? with
    | none => exact ⟨h, .refl _⟩
    | some entry =>
      obtain ⟨id, o⟩ := entry
      have owner : s.owner? id = some o := ResourceTable.memOwned (List.mem_of_head? first)
      have free : s.Free id := by
        by_contra held
        rw [h.vacant id held] at owner
        cases owner
      have cleared := h.clearSites (h.named id o free owner).1
      have keeps := keepsClearSites s o.value
      have forgotten : (s.clearSites o.value).owner? id = none := by
        cases still : (s.clearSites o.value).owner? id with
        | none => rfl
        | some p =>
          cases owner.symm.trans (detachAllOwner _ still)
          have listed := (cleared.recorded id o ((keeps.free id).mpr free) still).1
          simp [clearSitesBare (selfMemRing s o.value)] at listed
      have same : ∀ other, ((s.clearSites o.value).resources.setOwner id none).get other =
          (s.clearSites o.value).resources.get other := by
        intro other
        rw [ResourceTable.getSetOwner]
        split
        · rename_i here
          rw [here.1, ← forgotten]
          rfl
        · rfl
      have steady : Keeps (s.clearSites o.value)
          ((s.clearSites o.value).modifyResources (·.setOwner id none)) :=
        keepsResources _ (.setOwner _ _ _)
      obtain ⟨tracked, later⟩ := ih (cleared.still steady (fun _ => rfl) (fun _ _ => rfl) same)
      exact ⟨tracked, (keeps.trans steady).trans later⟩

/-! Taking values out of rings. -/

def State.forsake (s : State) (v : ValueId) : State :=
  if (s.isLive v).1 then (s.isLive v).2 else (s.isLive v).2.clearSites v

theorem isolateEq (s : State) (v : ValueId) :
    s.isolate v = if (s.value v).next == v then s
      else ((s.leaveRing v).2.forsake (s.leaveRing v).1).forsake v := by
  unfold isolate forsake
  rcases s.leaveRing v with ⟨other, t⟩
  rfl

theorem forsakeTracked (h : s.Tracked lent due) (known : s.IsValue v) :
    (s.forsake v).Tracked lent due ∧ (s.forsake v).values.size = s.values.size := by
  have values := isLiveValues s h.formed v
  have asked := h.isLive v
  unfold forsake
  split
  · exact ⟨asked, by rw [values]⟩
  · have known' : (s.isLive v).2.IsValue v := by rwa [IsValue, values]
    exact ⟨asked.clearSites known', (keepsClearSites _ v).size.trans (by rw [values])⟩

theorem leaveRingKnown (rings : s.Permutes) (known : s.IsValue v) :
    s.IsValue (s.leaveRing v).1 := by
  unfold State.leaveRing
  dsimp only
  split
  · exact known
  · exact rings.known v known

theorem isolateTracked (h : s.Tracked lent due) (known : s.IsValue v) :
    (s.isolate v).Tracked lent due := by
  rw [isolateEq]
  split
  · exact h
  · have size := (s.leaveRingRelinks v).size
    have other := leaveRingKnown h.formed.rings known
    obtain ⟨first, same⟩ := forsakeTracked (v := (s.leaveRing v).1) (h.leaveRing known) (by
      rwa [IsValue, size])
    refine (forsakeTracked first ?_).1
    rwa [IsValue, same, size]

end Lowering
