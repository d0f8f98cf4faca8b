import Lowering.Proofs.Survival
import Mathlib.Algebra.BigOperators.Group.Finset.Piecewise
/-!
Owners, site lists and reference counts go together.

All tables change in one of three ways: nothing moves, a site is taken from the value that lists
it, or a value is given a site that nobody lists. Each of the three keeps the tables in agreement,
and so does every rearrangement.
-/
namespace Lowering

open State

namespace State

variable {s s' t u : State} {old : Nat} {kept hollow h₀ h₁ : List SiteId} {id : ResourceId}
  {v w : ValueId} {i : SiteId} {lent : List Register} {due : List Owner}

/-- The register and stack sites of a value are recorded as its own, be it live or not. -/
def Held (s : State) (v : ValueId) : Prop :=
  ∀ i ∈ (s.value v).sites, ∀ id, s.resource? i = some id → s.resources.Has id → s.Free id →
    s.owner? id = some ⟨v, i⟩

/-- The tables agree while the registers in `lent` are on loan. The sites in `due` may be recorded
although nobody lists them: they are on their way from one value to another. -/
structure Tracked (s : State) (lent : List Register) (due : List Owner) : Prop where
  formed : s.WellFormed
  recorded : ∀ id o, s.Free id → s.owner? id = some o →
    (o.site ∈ (s.value o.value).sites ∨ o ∈ due) ∧ s.resource? o.site = some id
  held : ∀ v i id, s.Live v → i ∈ (s.value v).sites → s.resource? i = some id →
    s.resources.Has id → s.Free id → s.owner? id = some ⟨v, i⟩
  vacant : ∀ id, ¬ s.Free id → s.owner? id = none
  taken : s.Taken
  once : s.ListedOnce
  counted : s.Counted lent
  loose : ∀ o ∈ due, s.IsValue o.value ∧ s.IsSite o.site ∧ s.Unlisted o.site

theorem trackedIff : s.Tracked lent [] ↔ s.Coherent lent := by
  constructor
  · intro h
    refine ⟨h.formed, ⟨fun id o free owner => ?_, h.held⟩, h.vacant, h.taken, h.once, h.counted⟩
    obtain ⟨listed, names⟩ := h.recorded id o free owner
    exact ⟨listed.resolve_right (by simp), names⟩
  · intro h
    refine ⟨h.formed, fun id o free owner => ?_, h.owned.held, h.vacant, h.taken, h.once,
      h.counted, by simp⟩
    obtain ⟨listed, names⟩ := h.owned.recorded id o free owner
    exact ⟨.inl listed, names⟩

namespace Tracked

theorem named (h : s.Tracked lent due) : s.Named := by
  intro id o free owner
  obtain ⟨listed | inside, names⟩ := h.recorded id o free owner
  · exact ⟨s.isValueOfSites listed, h.formed.listed _ _ listed, names⟩
  · exact ⟨(h.loose o inside).1, (h.loose o inside).2.1, names⟩

theorem unowned (h : s.Tracked lent due) (fresh : s.Unlisted i)
    (settled : ∀ o ∈ due, o.site ≠ i) : s.Unowned i := by
  intro id o free owner
  obtain ⟨listed | inside, -⟩ := h.recorded id o free owner
  · rintro rfl
    exact fresh o.value listed
  · exact settled o inside

theorem ready (h : s.Tracked lent due) (bound : old ≤ s.sites.size) : Ready old s [] [] :=
  ⟨h.formed, h.named, by simp [Secured], by simp, bound⟩

end Tracked

/-! Counting the uses of a register. -/

theorem usesUpdate (known : s.IsValue v) (size : s'.values.size = s.values.size) {r : Register}
    (others : ∀ w, w ≠ v → s'.usesOf w r = s.usesOf w r) :
    s'.uses r + s.usesOf v r = s.uses r + s'.usesOf v r := by
  obtain ⟨index⟩ := v
  have inside : index ∈ Finset.range s.values.size := Finset.mem_range.mpr known
  have first := Finset.add_sum_erase _ (fun n => s.usesOf ⟨n⟩ r) inside
  have second := Finset.add_sum_erase _ (fun n => s'.usesOf ⟨n⟩ r) inside
  have same : ∑ n ∈ (Finset.range s.values.size).erase index, s'.usesOf ⟨n⟩ r =
      ∑ n ∈ (Finset.range s.values.size).erase index, s.usesOf ⟨n⟩ r := by
    refine Finset.sum_congr rfl fun n member => others ⟨n⟩ ?_
    rintro ⟨⟩
    simp at member
  unfold uses
  rw [size]
  omega

theorem usesCongr (size : s'.values.size = s.values.size)
    (sites : ∀ v, (s'.value v).sites = (s.value v).sites)
    (site : ∀ v, ∀ i ∈ (s.value v).sites, s'.site i = s.site i) (r : Register) :
    s'.uses r = s.uses r := by
  unfold uses
  rw [size]
  refine Finset.sum_congr rfl fun n _ => ?_
  unfold usesOf
  rw [sites, List.map_congr_left fun i listed => by rw [site _ i listed]]

/-! Nothing moves. -/

structure Unmoved (s s' : State) : Prop where
  size : s'.values.size = s.values.size
  sites : ∀ v, (s'.value v).sites = (s.value v).sites
  bound : s.sites.size ≤ s'.sites.size
  site : ∀ i, s.IsSite i → s'.site i = s.site i
  geometry : s'.geometry = s.geometry
  shape : s.resources.SameShape s'.resources
  reserved : ∀ id, (s'.resources.get id).reserved = (s.resources.get id).reserved
  owner : ∀ id, s'.owner? id = s.owner? id

namespace Unmoved

theorem free (h : Unmoved s s') (id : ResourceId) : s'.Free id ↔ s.Free id := by
  rw [Free, Free, h.reserved]

theorem resource (h : Unmoved s s') (known : s.IsSite i) : s'.resource? i = s.resource? i := by
  rw [resource?, resource?, h.geometry, h.site i known]

theorem named (h : Unmoved s s') (before : s.Named) : s'.Named := by
  intro id o free owner
  rw [h.free] at free
  rw [h.owner] at owner
  obtain ⟨value, known, names⟩ := before id o free owner
  refine ⟨?_, Nat.lt_of_lt_of_le known h.bound, (h.resource known).trans names⟩
  rw [IsValue, h.size]
  exact value

theorem taken (h : Unmoved s s') (named : s.Named) (before : s.Taken) : s'.Taken := by
  intro id o free owner
  rw [h.free] at free
  rw [h.owner] at owner
  rw [h.site _ (named id o free owner).2.1]
  exact before id o free owner

theorem tracked (h : Unmoved s s') (before : s.Tracked lent due) {lent' : List Register}
    (formed : s'.WellFormed)
    (held : ∀ v, s.IsValue v → s'.Live v → ¬ s.Live v → s.Held v)
    (counted : ∀ r, s.resources.Has (.register r) → s.Free (.register r) →
      (s'.resources.get (.register r)).references + lent.count r =
        (s.resources.get (.register r)).references + lent'.count r) :
    s'.Tracked lent' due := by
  have listed := before.formed.listed
  refine ⟨formed, fun id o free owner => ?_, fun v i id alive inside names has free => ?_,
    fun id held => ?_, h.taken before.named before.taken, before.once.congr h.sites,
    fun r has free => ?_, fun o inside => ?_⟩
  · rw [h.owner] at owner
    rw [h.free] at free
    rw [h.sites, h.resource (before.named id o free owner).2.1]
    exact before.recorded id o free owner
  · rw [h.sites] at inside
    rw [h.resource (listed v i inside)] at names
    rw [h.shape.has] at has
    rw [h.free] at free
    rw [h.owner]
    by_cases alive' : s.Live v
    · exact before.held v i id alive' inside names has free
    · exact held v (s.isValueOfSites inside) alive alive' i inside id names has free
  · rw [h.free] at held
    rw [h.owner]
    exact before.vacant id held
  · rw [h.shape.has] at has
    rw [h.free] at free
    have uses := usesCongr h.size h.sites (fun v i inside => h.site i (listed v i inside)) r
    have was := before.counted r has free
    have now := counted r has free
    omega
  · obtain ⟨value, known, unlisted⟩ := before.loose o inside
    refine ⟨?_, Nat.lt_of_lt_of_le known h.bound, fun v => ?_⟩
    · rw [IsValue, h.size]
      exact value
    · rw [h.sites]
      exact unlisted v

end Unmoved

/-! A site is taken from the value that lists it. -/

theorem detachApart (named : s.Named) (taken : s.Taken) {o p : Owner} (free : s.Free id)
    (owner : (s.detach o).owner? id = some p) : s.owner? id = some p ∧ p.site ≠ o.site := by
  rw [State.detachOwner] at owner
  split at owner
  · cases owner
  · rename_i kept
    refine ⟨owner, fun same => kept ?_⟩
    obtain ⟨-, -, names⟩ := named id p free owner
    have taken := taken id p free owner
    rw [same] at names taken
    exact ⟨names, taken, free, by simp [owner, same]⟩

theorem detachTaken (named : s.Named) (taken : s.Taken) (o : Owner) : (s.detach o).Taken := by
  intro id p free owner
  rw [(s.keepsDetach o).free] at free
  obtain ⟨owner, other⟩ := detachApart named taken free owner
  rw [detachSite, if_neg other]
  exact taken id p free owner

namespace Tracked

theorem detachUses (h : s.Tracked lent due) {o : Owner}
    (listed : o.site ∈ (s.value o.value).sites) (r : Register) :
    (s.detach o).uses r + (s.site o.site).referred.count r = s.uses r := by
  have site : ∀ i, i ≠ o.site → (s.detach o).site i = s.site i := by
    intro i other
    rw [detachSite, if_neg other]
  have others : ∀ w, w ≠ o.value → (s.detach o).usesOf w r = s.usesOf w r := by
    intro w other
    unfold usesOf
    rw [detachValue]
    simp only [other, if_false]
    refine congrArg List.sum (List.map_congr_left fun i inside => ?_)
    rw [site]
    rintro rfl
    exact other (h.once.apart _ _ _ inside listed)
  have own : (s.detach o).usesOf o.value r + (s.site o.site).referred.count r =
      s.usesOf o.value r := by
    unfold usesOf
    rw [detachValue]
    simp only [if_true]
    rw [← (h.once.each o.value).erase_eq_filter, Nat.add_comm,
      ← List.sum_map_erase (fun i => (s.site i).referred.count r) listed]
    congr 2
    refine List.map_congr_left fun i inside => ?_
    rw [site]
    rintro rfl
    exact ((h.once.each o.value).mem_erase_iff.mp inside).1 rfl
  have update := usesUpdate (s.isValueOfSites listed) (s.detachValues o) others
  omega

theorem detach (h : s.Tracked lent due) {o : Owner} (listed : o.site ∈ (s.value o.value).sites) :
    (s.detach o).Tracked lent due := by
  have keeps := s.keepsDetach o
  have known : ∀ w j, j ∈ ((s.detach o).value w).sites → s.IsSite j :=
    fun w j inside => h.formed.listed w j ((s.detachListed o).mp inside).1
  have formed := keeps.wellFormed h.formed fun w j inside => keeps.isSite (known w j inside)
  refine ⟨formed, fun id p free owner => ?_, fun w j id alive inside names has free => ?_,
    fun id held => ?_, detachTaken h.named h.taken o, h.once.detach o, fun r has free => ?_,
    fun p inside => ?_⟩
  · rw [keeps.free] at free
    obtain ⟨owner, other⟩ := detachApart h.named h.taken free owner
    obtain ⟨from_, names⟩ := h.recorded id p free owner
    rw [keeps.resource (h.named id p free owner).2.1]
    refine ⟨from_.imp_left fun inside => ?_, names⟩
    exact (s.detachListed o).mpr ⟨inside, fun _ => other⟩
  · rw [keeps.resource (known w j inside)] at names
    rw [keeps.has] at has
    rw [keeps.free] at free
    obtain ⟨inside, apart⟩ := (s.detachListed o).mp inside
    have owner := h.held w j id ((keeps.live h.formed formed w).mp alive) inside names has free
    rw [State.detachOwner, if_neg]
    · exact owner
    · rintro ⟨-, -, -, same⟩
      have site : j = o.site := by simpa [owner] using same
      exact apart (h.once.apart w o.value j inside (site ▸ listed)) site
  · rw [keeps.free] at held
    cases owner : (s.detach o).owner? id with
    | none => rfl
    | some p =>
      rw [State.detachOwner] at owner
      split at owner
      · cases owner
      · rw [h.vacant id held] at owner
        cases owner
  · rw [keeps.has] at has
    rw [keeps.free] at free
    rw [detachResources, s.referencesReleased o.site has free]
    have was := h.counted r has free
    have uses := h.detachUses listed r
    omega
  · obtain ⟨value, there, unlisted⟩ := h.loose p inside
    refine ⟨(keeps.isValue _).mpr value, keeps.isSite there, fun w inside => ?_⟩
    exact unlisted w ((s.detachListed o).mp inside).1

theorem removeSite (h : s.Tracked lent due) (v : ValueId) (i : SiteId) :
    (s.removeSite v i).Tracked lent due := by
  obtain ⟨same, -⟩ | ⟨m, -, listed, same⟩ := s.removeSiteCases v i
  · rwa [same]
  · rw [same]
    exact h.detach listed

theorem detachAll (os : List Owner) : ∀ {s : State}, s.Tracked lent due →
    (os.map (·.site)).Nodup → (∀ o ∈ os, o.site ∈ (s.value o.value).sites) →
    (os.foldl State.detach s).Tracked lent due := by
  induction os with
  | nil => exact fun h _ _ => h
  | cons o rest ih =>
    intro s h nodup listed
    obtain ⟨apart, nodup⟩ := List.nodup_cons.mp nodup
    refine ih (h.detach (listed o List.mem_cons_self)) nodup fun p inside => ?_
    refine (s.detachListed o).mpr ⟨listed p (List.mem_cons_of_mem _ inside), fun _ same => ?_⟩
    exact apart (List.mem_map.mpr ⟨p, inside, same⟩)

theorem clearSites (h : s.Tracked lent due) (known : s.IsValue v) :
    (s.clearSites v).Tracked lent due :=
  h.detachAll _ (placementsNodup h.formed h.once known) fun _ inside =>
    (memPlacements.mp inside).2

theorem cleanValue (h : s.Tracked lent due) (known : s.IsValue v) (popIndex : Nat) :
    (s.cleanValue v popIndex).Tracked lent due := by
  refine h.detachAll _ ?_ fun _ inside => (memPlacements.mp (List.mem_filter.mp inside).1).2
  exact (placementsNodup h.formed h.once known).sublist (List.filter_sublist.map _)

end Tracked

/-! A value is given a site that nobody lists. -/

def own (s : State) (o : Owner) (x : Site) : State :=
  match x.resource? s.geometry with
  | some id => if s.Free id then s.modifyResources (·.setOwner id (some o)) else s
  | none => s

theorem ownOwner (s : State) (o : Owner) (x : Site) (id : ResourceId) :
    (s.own o x).owner? id =
      if x.resource? s.geometry = some id ∧ s.resources.Has id ∧ s.Free id then some o
      else s.owner? id := by
  unfold own
  cases names : x.resource? s.geometry with
  | none => simp
  | some named =>
    by_cases free : s.Free named
    · simp only [free, if_true]
      show ((s.resources.setOwner named (some o)).get id).owner = _
      rw [ResourceTable.getSetOwner]
      by_cases same : id = named
      · subst same
        by_cases has : s.resources.Has id
        · simp [has, free]
        · simp [has, owner?]
      · simp [same, Ne.symm same, owner?]
    · simp only [free, if_false]
      rw [if_neg]
      rintro ⟨same, -, free'⟩
      cases same
      exact free free'

theorem keepsOwn (s : State) (o : Owner) (x : Site) : Keeps s (s.own o x) := by
  unfold own
  split
  · split
    · exact s.keepsResources (.setOwner _ _ _)
    · exact .refl s
  · exact .refl s

theorem ownRest (s : State) (o : Owner) (x : Site) :
    s.own o x = { s with resources := (s.own o x).resources } := by
  unfold own
  split
  · split <;> rfl
  · rfl

theorem ownReferences (s : State) (o : Owner) (x : Site) (id : ResourceId) :
    ((s.own o x).resources.get id).references = (s.resources.get id).references := by
  unfold own
  split
  · split
    · show ((s.resources.setOwner _ (some o)).get id).references = _
      rw [ResourceTable.getSetOwner]
      split
      · rename_i here
        rw [here.1]
      · rfl
    · rfl
  · rfl

def settleAt (s : State) (v : ValueId) (i : SiteId) (x : Site) : State :=
  ((s.own ⟨v, i⟩ x).setSite i x).enlist v i

section

variable (s : State) (x : Site)

theorem settleAtSite (known : s.IsSite i) (j : SiteId) :
    (s.settleAt v i x).site j = if j = i then x else s.site j := by
  have same : (s.own ⟨v, i⟩ x).site = s.site := by
    rw [ownRest]
    rfl
  have known' : (s.own ⟨v, i⟩ x).IsSite i := (s.keepsOwn ⟨v, i⟩ x).isSite known
  show ((s.own ⟨v, i⟩ x).setSite i x).site j = _
  rw [siteSet, same]
  simp [known']

theorem settleAtSites (known : s.IsValue v) (w : ValueId) :
    ((s.settleAt v i x).value w).sites =
      if w = v then i :: (s.value w).sites else (s.value w).sites := by
  have same : (s.own ⟨v, i⟩ x).value = s.value := by
    rw [ownRest]
    rfl
  have known' : ((s.own ⟨v, i⟩ x).setSite i x).IsValue v :=
    ((s.keepsOwn ⟨v, i⟩ x).isValue v).mpr known
  rw [settleAt, enlistSites _ known']
  show (if w = v then i :: ((s.own ⟨v, i⟩ x).value w).sites
    else ((s.own ⟨v, i⟩ x).value w).sites) = _
  rw [same]

theorem settleAtListed (known : s.IsValue v) {w : ValueId} {j : SiteId} :
    j ∈ ((s.settleAt v i x).value w).sites ↔ (w = v ∧ j = i) ∨ j ∈ (s.value w).sites := by
  rw [s.settleAtSites x known]
  by_cases same : w = v
  · simp [same]
  · simp [same]

theorem settleAtRest : s.settleAt v i x = { s with
    values := (s.settleAt v i x).values
    sites := (s.settleAt v i x).sites
    resources := (s.own ⟨v, i⟩ x).resources } := by
  rw [settleAt, ownRest]
  rfl

theorem settleAtHead (w : ValueId) :
    ((s.settleAt v i x).value w).next = (s.value w).next ∧
      ((s.settleAt v i x).value w).reads = (s.value w).reads := by
  have same : (s.own ⟨v, i⟩ x).value = s.value := by
    rw [ownRest]
    rfl
  have outline := (keepsEnlist ((s.own ⟨v, i⟩ x).setSite i x) v i)
  refine ⟨(outline.next w).trans ?_, (outline.head w).trans ?_⟩
  · show ((s.own ⟨v, i⟩ x).value w).next = _
    rw [same]
  · show ((s.own ⟨v, i⟩ x).value w).reads = _
    rw [same]

theorem settleAtSize : (s.settleAt v i x).values.size = s.values.size ∧
    (s.settleAt v i x).sites.size = s.sites.size := by
  have values : (s.own ⟨v, i⟩ x).values = s.values := by rw [ownRest]
  have sites : (s.own ⟨v, i⟩ x).sites = s.sites := by rw [ownRest]
  simp [settleAt, enlist, modifyValue, setSite, values, sites]

theorem settleAtFormed (formed : s.WellFormed) (value : s.IsValue v) (known : s.IsSite i) :
    (s.settleAt v i x).WellFormed := by
  obtain ⟨size, sites⟩ := s.settleAtSize x (v := v) (i := i)
  have reads : (s.settleAt v i x).reads = s.reads := by rw [settleAtRest]
  refine ⟨⟨fun w there => ?_, fun w w' first second same => ?_⟩, fun w j listed => ?_, ?_,
    fun w r chain => ?_, ?_⟩
  · rw [IsValue, size] at there ⊢
    rw [(s.settleAtHead x w).1]
    exact formed.rings.known w there
  · rw [IsValue, size] at first second
    rw [(s.settleAtHead x w).1, (s.settleAtHead x w').1] at same
    exact formed.rings.injective w w' first second same
  · rw [IsSite, sites]
    rcases (s.settleAtListed x value).mp listed with ⟨-, rfl⟩ | listed
    · exact known
    · exact formed.listed w j listed
  · rw [reads]
    exact formed.reads
  · rw [(s.settleAtHead x w).2] at chain
    rw [reads]
    exact formed.heads w r chain
  · rw [settleAtRest]
    show ((s.own ⟨v, i⟩ x).resources.slots.length + s.geometry.footer) * wordSize ≤ _
    rw [(s.keepsOwn ⟨v, i⟩ x).resources.shape.slots]
    exact formed.frame

theorem settleAtResource (known : s.IsSite i) (j : SiteId) : (s.settleAt v i x).resource? j =
    if j = i then x.resource? s.geometry else s.resource? j := by
  have geometry : (s.settleAt v i x).geometry = s.geometry := by rw [settleAtRest]
  rw [resource?, geometry, s.settleAtSite x known]
  split
  · rfl
  · rfl

theorem settleAtResources : (s.settleAt v i x).resources = (s.own ⟨v, i⟩ x).resources := by
  rw [settleAtRest]

theorem settleAtHas (id : ResourceId) :
    (s.settleAt v i x).resources.Has id ↔ s.resources.Has id := by
  rw [settleAtResources]
  exact (s.keepsOwn ⟨v, i⟩ x).has id

theorem settleAtFree (id : ResourceId) : (s.settleAt v i x).Free id ↔ s.Free id := by
  rw [Free, settleAtResources]
  exact (s.keepsOwn ⟨v, i⟩ x).free id

theorem settleAtOwner (id : ResourceId) : (s.settleAt v i x).owner? id =
    if x.resource? s.geometry = some id ∧ s.resources.Has id ∧ s.Free id then some ⟨v, i⟩
    else s.owner? id := by
  rw [owner?, settleAtResources]
  exact s.ownOwner ⟨v, i⟩ x id

theorem settleAtLive (formed : s.WellFormed) (value : s.IsValue v) (known : s.IsSite i)
    (w : ValueId) : (s.settleAt v i x).Live w ↔ s.Live w := by
  have reads : (s.settleAt v i x).reads = s.reads := by rw [settleAtRest]
  have ring : (s.settleAt v i x).ring w = s.ring w :=
    ringCongr (s.settleAtSize x).1 (fun m => (s.settleAtHead x m).1) w
  rw [liveIff (s.settleAtFormed x formed value known), liveIff formed, ring, reads]
  simp only [(s.settleAtHead x _).2]

theorem settleAtUses (value : s.IsValue v) (known : s.IsSite i)
    (fresh : s.Unlisted i) (r : Register) :
    (s.settleAt v i x).uses r = s.uses r + x.referred.count r := by
  have site : ∀ w, ∀ j ∈ (s.value w).sites, (s.settleAt v i x).site j = s.site j := by
    intro w j listed
    rw [s.settleAtSite x known, if_neg]
    rintro rfl
    exact fresh w listed
  have old : ∀ w, ((s.value w).sites.map fun j =>
      ((s.settleAt v i x).site j).referred.count r).sum = s.usesOf w r := by
    intro w
    unfold usesOf
    rw [List.map_congr_left fun j listed => by rw [site w j listed]]
  have others : ∀ w, w ≠ v → (s.settleAt v i x).usesOf w r = s.usesOf w r := by
    intro w other
    rw [usesOf, s.settleAtSites x value, if_neg other, old]
  have own : (s.settleAt v i x).usesOf v r = x.referred.count r + s.usesOf v r := by
    rw [usesOf, s.settleAtSites x value, if_pos rfl, List.map_cons, List.sum_cons, old,
      s.settleAtSite x known, if_pos rfl]
  have update := usesUpdate value (s.settleAtSize x).1 others
  omega

end

namespace Tracked

variable {x : Site}

theorem settleAtRecorded (h : s.Tracked (x.addressed ++ lent) due) (value : s.IsValue v)
    (known : s.IsSite i) (unowned : s.Unowned i) {o : Owner} (free : s.Free id)
    (owner : (s.settleAt v i x).owner? id = some o) :
    (o.site ∈ ((s.settleAt v i x).value o.value).sites ∨ o ∈ due) ∧
      (s.settleAt v i x).resource? o.site = some id := by
  rw [settleAtOwner] at owner
  split at owner
  · rename_i new
    cases owner
    refine ⟨.inl ((s.settleAtListed x value).mpr (.inl ⟨rfl, rfl⟩)), ?_⟩
    rw [s.settleAtResource x known, if_pos rfl]
    exact new.1
  · obtain ⟨from_, names⟩ := h.recorded id o free owner
    rw [s.settleAtResource x known, if_neg (unowned id o free owner)]
    refine ⟨from_.imp_left fun inside => ?_, names⟩
    exact (s.settleAtListed x value).mpr (.inr inside)

theorem settleAtHeld (h : s.Tracked (x.addressed ++ lent) due) (value : s.IsValue v)
    (known : s.IsSite i) (fresh : s.Unlisted i)
    (vacated : ∀ id w j, x.resource? s.geometry = some id → s.Free id →
      j ∈ (s.value w).sites → s.owner? id ≠ some ⟨w, j⟩) {j : SiteId} (alive : s.Live w)
    (listed : j ∈ ((s.settleAt v i x).value w).sites)
    (names : (s.settleAt v i x).resource? j = some id) (has : s.resources.Has id)
    (free : s.Free id) : (s.settleAt v i x).owner? id = some ⟨w, j⟩ := by
  rw [settleAtOwner]
  rw [s.settleAtResource x known] at names
  rcases (s.settleAtListed x value).mp listed with ⟨rfl, rfl⟩ | inside
  · rw [if_pos rfl] at names
    rw [if_pos ⟨names, has, free⟩]
  · have other : j ≠ i := by
      rintro rfl
      exact fresh w inside
    rw [if_neg other] at names
    have before := h.held w j id alive inside names has free
    rw [if_neg]
    · exact before
    · rintro ⟨new, -, -⟩
      exact vacated id w j new free inside before

theorem settleAtTaken (h : s.Tracked (x.addressed ++ lent) due) (known : s.IsSite i)
    (unowned : s.Unowned i) (taken : x.isTaken = true) {o : Owner} (free : s.Free id)
    (owner : (s.settleAt v i x).owner? id = some o) :
    ((s.settleAt v i x).site o.site).isTaken = true := by
  rw [settleAtOwner] at owner
  rw [s.settleAtSite x known]
  split at owner
  · cases owner
    rw [if_pos rfl]
    exact taken
  · rw [if_neg (unowned id o free owner)]
    exact h.taken id o free owner

theorem settleAt (h : s.Tracked (x.addressed ++ lent) due)
    (value : s.IsValue v) (known : s.IsSite i) (fresh : s.Unlisted i)
    (settled : ∀ o ∈ due, o.site ≠ i) (taken : x.isTaken = true)
    (vacated : ∀ id w j, x.resource? s.geometry = some id → s.Free id →
      j ∈ (s.value w).sites → s.owner? id ≠ some ⟨w, j⟩) :
    (s.settleAt v i x).Tracked lent due := by
  have unowned := h.unowned fresh settled
  refine ⟨s.settleAtFormed x h.formed value known, fun id o free owner => ?_,
    fun w j id alive listed names has free => ?_, fun id held => ?_, fun id o free owner => ?_, ?_,
    fun r has free => ?_, fun o inside => ?_⟩
  · rw [settleAtFree] at free
    exact h.settleAtRecorded value known unowned free owner
  · rw [settleAtHas] at has
    rw [settleAtFree] at free
    rw [s.settleAtLive x h.formed value known] at alive
    exact h.settleAtHeld value known fresh vacated alive listed names has free
  · rw [settleAtFree] at held
    rw [settleAtOwner, if_neg]
    · exact h.vacant id held
    · exact fun has => held has.2.2
  · rw [settleAtFree] at free
    exact h.settleAtTaken known unowned taken free owner
  · refine ListedOnce.enlist (h.once.congr fun w => ?_) ?_ fun w listed => ?_
    · rw [ownRest]
      rfl
    · exact ((s.keepsOwn ⟨v, i⟩ x).isValue v).mpr value
    · rw [ownRest] at listed
      exact fresh w listed
  · rw [settleAtHas] at has
    rw [settleAtFree] at free
    rw [settleAtResources, ownReferences, s.settleAtUses x value known fresh,
      Site.referredTaken taken, h.counted r has free, List.count_append]
    omega
  · obtain ⟨value', known', unlisted⟩ := h.loose o inside
    obtain ⟨size, sites⟩ := s.settleAtSize x (v := v) (i := i)
    refine ⟨?_, ?_, fun w listed => ?_⟩
    · rw [IsValue, size]
      exact value'
    · rw [IsSite, sites]
      exact known'
    · rcases (s.settleAtListed x value).mp listed with ⟨-, same⟩ | listed
      · exact settled o inside same
      · exact unlisted w listed

end Tracked

/-! The steps of a rearrangement. -/

theorem unmovedOfKeeps (keeps : Keeps s s') (sites : ∀ v, (s'.value v).sites = (s.value v).sites)
    (site : ∀ i, s.IsSite i → s'.site i = s.site i)
    (owner : ∀ id, s'.owner? id = s.owner? id) : Unmoved s s' :=
  ⟨keeps.size, sites, keeps.sites, site, keeps.geometry, keeps.resources.shape,
    keeps.resources.reserved, owner⟩

theorem Tracked.still (h : s.Tracked lent due) (keeps : Keeps s s')
    (sites : ∀ v, (s'.value v).sites = (s.value v).sites)
    (site : ∀ i, s.IsSite i → s'.site i = s.site i)
    (resources : ∀ id, s'.resources.get id = s.resources.get id) : s'.Tracked lent due := by
  have unmoved := unmovedOfKeeps keeps sites site fun id => by rw [owner?, owner?, resources]
  have formed := keeps.wellFormed h.formed fun v i listed => by
    rw [sites] at listed
    exact keeps.isSite (h.formed.listed v i listed)
  refine unmoved.tracked h formed (fun v _ alive dead => ?_) fun r _ _ => by rw [resources]
  exact absurd ((keeps.live h.formed formed v).mp alive) dead

theorem freezeSiteUnmoved (s : State) (i : SiteId) : Unmoved s (s.freezeSite i) := by
  have rest := s.freezeSiteRest i
  refine ⟨by rw [rest], fun v => by rw [freezeSiteValue], by rw [rest], fun j _ => by rw [rest]; rfl,
    by rw [rest], ?_, fun id => ?_, s.freezeSiteOwner i⟩
  · rw [freezeSiteEq]
    unfold modifyResources
    dsimp only
    cases s.resource? i with
    | none => exact (ResourceTable.steadyReferAll _ _).shape
    | some id => exact (ResourceTable.freezeAdjusts _ id).shape
  · rw [freezeSiteEq]
    unfold modifyResources
    dsimp only
    cases s.resource? i with
    | none => exact (ResourceTable.steadyReferAll _ _).reserved id
    | some named => exact (ResourceTable.freezeAdjusts _ named).same (·.reserved) (fun _ => rfl) id

theorem thawSiteUnmoved (s : State) (i : SiteId) : Unmoved s (s.thawSite i) := by
  refine ⟨by rw [thawSiteEq]; rfl, fun v => by rw [thawSiteValue], by rw [thawSiteEq]; exact le_rfl,
    fun j _ => by rw [thawSiteEq]; rfl, by rw [thawSiteEq]; rfl, ?_, fun id => ?_,
    s.thawSiteOwner i⟩
  · rw [thawSiteEq]
    unfold modifyResources
    dsimp only
    cases s.resource? i with
    | none => exact (ResourceTable.steadyUnreferAll _ _).shape
    | some id => exact (ResourceTable.thawAdjusts _ id).shape
  · rw [thawSiteEq]
    unfold modifyResources
    dsimp only
    cases s.resource? i with
    | none => exact (ResourceTable.steadyUnreferAll _ _).reserved id
    | some named => exact (ResourceTable.thawAdjusts _ named).same (·.reserved) (fun _ => rfl) id

def bound (s : State) (i : SiteId) : List Register :=
  match s.resource? i with
  | some _ => []
  | none => (s.site i).addressed

theorem Tracked.freeze (h : s.Tracked lent due) (i : SiteId) :
    (s.freezeSite i).Tracked (s.bound i ++ lent) due := by
  refine (s.freezeSiteUnmoved i).tracked h (wellFormedFreeze h.formed i)
    (fun v _ alive dead => absurd ((freezeSiteLive h.formed i v).mp alive) dead)
    fun r has free => ?_
  rw [freezeSiteEq, List.count_append]
  unfold modifyResources bound
  dsimp only
  cases s.resource? i with
  | none =>
    dsimp only
    rw [ResourceTable.referencesReferAll _ _ has free]
    omega
  | some id =>
    dsimp only
    rw [(ResourceTable.freezeAdjusts _ id).same (·.references) fun _ => rfl]
    simp

theorem Tracked.thaw (h : s.Tracked (s.bound i ++ lent) due) : (s.thawSite i).Tracked lent due := by
  have unmoved := s.thawSiteUnmoved i
  have formed : (s.thawSite i).WellFormed := by
    have frame := h.formed.frame
    rw [← unmoved.shape.slots] at frame
    rw [thawSiteEq] at frame ⊢
    exact ⟨⟨h.formed.rings.known, h.formed.rings.injective⟩, h.formed.listed, h.formed.reads,
      h.formed.heads, frame⟩
  refine unmoved.tracked h formed (fun v _ alive dead => absurd ?_ dead) fun r has free => ?_
  · rw [liveIff formed, thawSiteRing] at alive
    rw [liveIff h.formed]
    have reads : (s.thawSite i).reads = s.reads := by rw [thawSiteEq]; rfl
    simpa only [thawSiteValue, reads] using alive
  · have was := h.counted r has free
    rw [List.count_append] at was ⊢
    rw [thawSiteEq]
    unfold modifyResources
    unfold bound at was ⊢
    dsimp only
    cases names : s.resource? i with
    | none =>
      simp only [names] at was
      dsimp only
      rw [ResourceTable.referencesUnreferAll _ _ has free]
      omega
    | some id =>
      dsimp only
      rw [(ResourceTable.thawAdjusts _ id).same (·.references) fun _ => rfl]
      simp

theorem Tracked.refer (h : s.Tracked lent due) (rs : List Register) :
    (s.modifyResources (·.referAll rs)).Tracked (rs ++ lent) due := by
  have keeps : Keeps s (s.modifyResources (·.referAll rs)) :=
    s.keepsResources (ResourceTable.steadyReferAll rs _)
  have unmoved := unmovedOfKeeps keeps (fun _ => rfl) (fun _ _ => rfl)
    (ResourceTable.ownerReferAll rs s.resources)
  have formed := keeps.wellFormed h.formed h.formed.listed
  refine unmoved.tracked h formed
    (fun v _ alive dead => absurd ((keeps.live h.formed formed v).mp alive) dead)
    fun r has free => ?_
  show ((s.resources.referAll rs).get (.register r)).references + _ = _
  rw [ResourceTable.referencesReferAll _ _ has free, List.count_append]
  omega

theorem Tracked.unrefer {rs : List Register} (h : s.Tracked (rs ++ lent) due) :
    (s.modifyResources (·.unreferAll rs)).Tracked lent due := by
  have keeps : Keeps s (s.modifyResources (·.unreferAll rs)) :=
    s.keepsResources (ResourceTable.steadyUnreferAll rs _)
  have unmoved := unmovedOfKeeps keeps (fun _ => rfl) (fun _ _ => rfl)
    (ResourceTable.ownerUnreferAll rs s.resources)
  have formed := keeps.wellFormed h.formed h.formed.listed
  refine unmoved.tracked h formed
    (fun v _ alive dead => absurd ((keeps.live h.formed formed v).mp alive) dead)
    fun r has free => ?_
  have was := h.counted r has free
  show ((s.resources.unreferAll rs).get (.register r)).references + _ = _
  rw [List.count_append] at was ⊢
  rw [ResourceTable.referencesUnreferAll _ _ has free]
  omega

theorem Tracked.reach (h : s.Tracked lent due) (i : SiteId) :
    (s.reach i).Tracked ((s.site i).addressed ++ lent) due := h.refer _

theorem Vacates.tracked (h : Vacates kept t id v u) (before : t.Tracked lent due) :
    u.Tracked lent due := by
  cases h with
  | vacant => exact before
  | owned => exact before.removeSite _ _

theorem Vacates.vacated (h : Vacates kept t id v u) (once : t.ListedOnce) {j : SiteId}
    (listed : j ∈ (u.value w).sites) : u.owner? id ≠ some ⟨w, j⟩ := by
  intro owner
  cases h with
  | vacant none =>
    rw [none] at owner
    cases owner
  | @owned o holder apart spare =>
    cases holder.symm.trans (t.removeSiteOwner owner)
    have inside := t.removeSiteListed listed
    obtain ⟨-, absent⟩ | ⟨m, -, listed', same⟩ := t.removeSiteCases w j
    · exact absent w (selfMemRing t w) inside
    · cases once.apart m w j listed' inside
      rw [same, detachListed] at listed
      exact listed.2 rfl rfl

theorem Moves.keepsUnlisted (run : Moves old kept h₀ s h₁ s') (early : i.index < old)
    (fresh : s.Unlisted i) : s'.Unlisted i := by
  induction run with
  | refl => exact fresh
  | trans _ _ first second => exact second (first fresh)
  | ask => exact fresh
  | create => exact fresh
  | frozen _ _ inner =>
    intro v
    rw [thawSiteValue]
    exact inner (fun w => by rw [freezeSiteValue]; exact fresh w) v
  | drop => exact fun v member => fresh v (removeSiteListed _ member)
  | redirect =>
    intro v
    rw [redirectSites]
    exact fresh v
  | @take kept hollow s t u v j id value _ _ _ _ _ born _ run vacates _ inner =>
    have all := ((s.keepsReach j).trans run.keeps).trans vacates.keeps
    intro w member
    rcases (u.occupyListed ((all.isValue v).mpr value)).mp member with ⟨-, rfl⟩ | member
    · omega
    · exact inner fresh w (vacates.listed member)
  | fill => exact fresh

theorem removeSiteSite (s : State) (v : ValueId) (j : SiteId) (fresh : s.Unlisted i) :
    (s.removeSite v j).site i = s.site i := by
  obtain ⟨same, -⟩ | ⟨m, -, listed, same⟩ := s.removeSiteCases v j
  · rw [same]
  · rw [same, detachSite, if_neg]
    rintro rfl
    exact fresh m listed

theorem Moves.keepsSite (run : Moves old kept h₀ s h₁ s') (early : i.index < old)
    (known : s.IsSite i) (fresh : s.Unlisted i) : s'.site i = s.site i := by
  induction run with
  | refl => rfl
  | trans run _ first second =>
    exact (second (run.keeps.isSite known) (run.keepsUnlisted early fresh)).trans
      (first known fresh)
  | ask => rfl
  | create x => exact siteNewOld _ x known
  | @frozen kept h₀ s h₁ t j _ run inner =>
    rw [(t.thawSiteUnmoved j).site i (run.keeps.isSite ((s.freezeSiteIsSite j i).mpr known)),
      inner ((s.freezeSiteIsSite j i).mpr known) fun v => by rw [freezeSiteValue]; exact fresh v]
    exact (s.freezeSiteUnmoved j).site i known
  | @drop kept hollow s id o => exact s.removeSiteSite o.value o.site fresh
  | redirect => rfl
  | @take kept hollow s t u v j id value _ _ _ _ _ born _ run vacates _ inner =>
    have other : i ≠ j := by
      rintro rfl
      omega
    have settled : (u.occupy v j id).site i = u.site i := by
      show ((u.modifyResources _).setSite j _).site i = _
      rw [siteSet, if_neg fun both => other both.1]
      rfl
    have vacated : u.site i = t.site i := by
      cases vacates with
      | vacant => rfl
      | owned => exact t.removeSiteSite _ _ (run.keepsUnlisted early fresh)
    rw [settled, vacated]
    exact inner known fresh
  | fill => rfl

theorem occupySettleAt (u : State) (names : u.resource? i = some id) (free : u.Free id) :
    u.occupy v i id = u.settleAt v i (u.site i).taken := by
  have stands : (u.site i).taken.resource? u.geometry = some id := by
    rw [← names]
    exact Site.resourceOfPlace (Site.placeTaken _)
  simp only [occupy, settleAt, own, stands, free, if_true]

theorem takenIsTaken {x : Site} {g : FrameGeometry} (names : x.resource? g = some id) :
    x.taken.isTaken = true := by
  cases x with
  | register mask number =>
    cases number with
    | none => simp [Site.resource?] at names
    | some n => rfl
  | memory m acquired => rfl
  | constant p => rfl
  | address p => rfl

theorem Moves.tracked (run : Moves old kept h₀ s h₁ s') :
    ∀ {lent : List Register}, s.Tracked lent due → (∀ o ∈ due, o.site.index < old) →
      s'.Tracked lent due := by
  induction run with
  | refl => exact fun h _ => h
  | trans _ _ first second => exact fun h early => second (first h early) early
  | ask reads statistics available evolves =>
    intro lent h _
    exact h.still (keepsAsk _ statistics available evolves) (fun _ => rfl) (fun _ _ => rfl)
      fun id => by simp
  | @create _ _ s x =>
    exact fun h _ => h.still (keepsNewSite s x) (fun _ => rfl) (fun i => s.siteNewOld x)
      fun _ => rfl
  | @frozen kept h₀ s h₁ t i known run inner =>
    intro lent h early
    have after := inner (h.freeze i) early
    have names : t.resource? i = s.resource? i := by
      rw [run.keeps.resource ((s.freezeSiteIsSite i i).mpr known), freezeSiteResource]
    have address : (t.site i).addressed = (s.site i).addressed := by
      have place := run.keeps.place i ((s.freezeSiteIsSite i i).mpr known)
      rw [(s.freezeSiteUnmoved i).site i known] at place
      exact Site.addressedOfPlace place
    have same : t.bound i = s.bound i := by
      unfold State.bound
      rw [names, address]
    rw [← same] at after
    exact after.thaw
  | drop => exact fun h _ => h.removeSite _ _
  | redirect o j =>
    intro lent h _
    refine h.still (keepsModifyValue _ _ fun d => ?_) (redirectSites _ o j) (fun _ _ => rfl)
      fun _ => rfl
    split <;> rfl
  | @take kept hollow s t u v i id value known names plain free fresh born apart run vacates _ inner =>
    intro lent h early
    have reached := s.keepsReach i
    have before := inner (h.reach i) early
    have after := vacates.tracked before
    have keeps := (reached.trans run.keeps).trans vacates.keeps
    have known' := keeps.isSite known
    have names' := (keeps.resource known).trans names
    have free' := (keeps.free id).mpr free
    have address : (u.site i).taken.addressed = (s.site i).addressed :=
      (Site.addressedOfPlace (Site.placeTaken _)).trans
        (Site.addressedOfPlace (keeps.place i known))
    rw [u.occupySettleAt names' free']
    rw [← address] at after
    refine after.settleAt ((keeps.isValue v).mpr value) known' (fun w listed => ?_)
      (fun o inside => ?_) (takenIsTaken names') fun id' w j stands _ listed => ?_
    · exact run.unlisted List.mem_cons_self fresh w (vacates.listed listed)
    · rintro rfl
      exact absurd (early o inside) (Nat.not_lt.mpr born)
    · rw [Site.resourceOfPlace (Site.placeTaken _)] at stands
      cases stands.symm.trans names'
      exact vacates.vacated before.once listed
  | @fill kept hollow s v src dst a b e statistics =>
    intro lent h _
    have keeps : Keeps s { s with emitter := e, statistics } :=
      ⟨rfl, rfl, fun _ => rfl, le_rfl, fun _ _ => rfl, .refl _, .refl _⟩
    exact h.still keeps (fun _ => rfl) (fun _ _ => rfl) fun _ => rfl

end State

end Lowering
