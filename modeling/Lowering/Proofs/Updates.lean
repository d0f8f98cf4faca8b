import Lowering.Proofs.Coherence
/-!
What the small updates of a state change: giving up a site, referring to the registers of an
address, freezing a site and thawing it. Each is described by the site tables, the owners and the
references after it.
-/
namespace Lowering.State

variable (s : State)

/-! References. -/

theorem referToEq (m : MemoryRef) : s.referTo m = s.modifyResources (·.referAll m.registers) := rfl

theorem unreferToEq (m : MemoryRef) :
    s.unreferTo m = s.modifyResources (·.unreferAll m.registers) := rfl

/-! Giving up a site. -/

def releasedResources (i : SiteId) : ResourceTable :=
  let owned := match s.resource? i with
    | some id => (if (s.site i).isTaken then s.disown id i else s).resources
    | none => s.resources
  owned.unreferAll (s.site i).referred

theorem disownSites (id : ResourceId) (i : SiteId) : (s.disown id i).sites = s.sites := by
  unfold disown
  dsimp only
  split <;> rfl

theorem disownEq (id : ResourceId) (i : SiteId) :
    s.disown id i = { s with resources := (s.disown id i).resources } := by
  unfold disown
  dsimp only
  split <;> rfl

theorem setSiteSame (i : SiteId) : s.setSite i (s.site i) = s := by
  have same : s.sites.modify i.index (fun _ => s.site i) = s.sites := by
    apply Array.ext
    · simp
    · intro n h _
      simp only [Array.size_modify] at h
      rw [Array.getElem_modify]
      split
      · rename_i here
        simp [site, here, h]
      · rfl
  simp [setSite, same]

theorem releaseEq (i : SiteId) :
    s.release i = { s with resources := s.releasedResources i }.setSite i (s.site i).place := by
  unfold release releasedResources resource?
  cases x : s.site i with
  | constant p =>
    have same := s.setSiteSame i
    rw [x] at same
    exact same.symm
  | address p =>
    have same := s.setSiteSame i
    rw [x] at same
    exact same.symm
  | register mask number =>
    cases number with
    | none =>
      have same := s.setSiteSame i
      rw [x] at same
      exact same.symm
    | some n =>
      have same := (s.disown (.register n) i).setSiteSame i
      have site : (s.disown (.register n) i).site i = .register mask (some n) := by
        simp [State.site, disownSites] at x ⊢
        exact x
      rw [site, disownEq] at same
      show s.disown (.register n) i = _
      rw [disownEq]
      exact same.symm
  | memory m acquired =>
    cases acquired with
    | false =>
      have same := s.setSiteSame i
      rw [x] at same
      simp only [Site.resource?, Site.isTaken, Site.referred, Site.place]
      rw [← same]
      split <;> simp [ResourceTable.unreferAll, same]
    | true =>
      simp only [slotResourceEq]
      cases names : (Site.memory m true).resource? s.geometry with
      | none => rfl
      | some id =>
        simp only [Site.isTaken, if_true, unreferToEq, modifyResources]
        rw [disownEq]
        rfl

theorem releaseSite (i j : SiteId) :
    (s.release i).site j = if j = i then (s.site i).place else s.site j := by
  rw [releaseEq, siteSet]
  by_cases same : j = i
  · subst same
    by_cases known : s.IsSite j
    · have known' : { s with resources := s.releasedResources j }.IsSite j := known
      simp [known']
    · have outside : s.site j = default := by
        simp only [IsSite, Nat.not_lt] at known
        simp [site, Array.getD, Nat.not_lt.mpr known]
      have unknown : ¬ { s with resources := s.releasedResources j }.IsSite j := known
      simp only [unknown, and_false, if_false, if_true]
      show s.site j = (s.site j).place
      rw [outside]
      rfl
  · simp only [same, false_and, if_false]
    rfl

theorem steadyDisown (id : ResourceId) (i : SiteId) :
    s.resources.Steady (s.disown id i).resources := by
  unfold disown
  dsimp only
  split
  · exact .setOwner _ _ _
  · exact .refl _

theorem steadyReleased (i : SiteId) : s.resources.Steady (s.releasedResources i) := by
  unfold releasedResources
  refine ResourceTable.Steady.trans ?_ (ResourceTable.steadyUnreferAll _ _)
  split
  · split
    · exact s.steadyDisown _ i
    · exact .refl _
  · exact .refl _

theorem ownerDisown (id other : ResourceId) (i : SiteId) :
    (s.disown id i).owner? other =
      if other = id ∧ s.Free id ∧ (s.owner? id).map (·.site) = some i then none
      else s.owner? other := by
  unfold disown owner? Free
  by_cases here : (s.resources.get id).reserved = false ∧
      (s.resources.get id).owner.map (·.site) = some i
  · have known : s.resources.Has id := by
      cases o : (s.resources.get id).owner with
      | none => simp [o] at here
      | some o' => exact ResourceTable.hasOfOwner o
    simp only [here, Bool.not_false, beq_self_eq_true, Bool.and_self, if_true, and_true,
      modifyResources, ResourceTable.getSetOwner, known]
    split <;> rfl
  · have not : ¬ ((!(s.resources.get id).reserved
        && (s.resources.get id).owner.map (·.site) == some i) = true) := by
      simpa using here
    rw [if_neg not, if_neg fun h => here h.2]

theorem ownerReleased (i : SiteId) (id : ResourceId) :
    ((s.releasedResources i).get id).owner =
      if s.resource? i = some id ∧ (s.site i).isTaken = true ∧ s.Free id ∧
          (s.owner? id).map (·.site) = some i then none
      else s.owner? id := by
  unfold releasedResources
  rw [ResourceTable.ownerUnreferAll]
  cases names : s.resource? i with
  | none => simp [owner?]
  | some named =>
    by_cases taken : (s.site i).isTaken = true
    · have disowned := s.ownerDisown named id i
      simp only [owner?] at disowned
      simp only [taken, if_true, disowned, Option.some.injEq, true_and]
      by_cases same : named = id
      · subst same
        rfl
      · simp [same, Ne.symm same, owner?]
    · simp [taken, owner?]

theorem referencesReleased (i : SiteId) {r : Register} (known : s.resources.Has (.register r))
    (free : s.Free (.register r)) :
    ((s.releasedResources i).get (.register r)).references =
      (s.resources.get (.register r)).references - (s.site i).referred.count r := by
  have disowned : ∀ id, ((s.disown id i).resources.get (.register r)).references =
      (s.resources.get (.register r)).references := by
    intro id
    unfold disown
    dsimp only
    split
    · simp only [modifyResources, ResourceTable.getSetOwner]
      split
      · rename_i here
        rw [here.1]
      · rfl
    · rfl
  unfold releasedResources
  cases names : s.resource? i with
  | none => exact ResourceTable.referencesUnreferAll _ _ known free
  | some id =>
    by_cases taken : (s.site i).isTaken = true
    · have steady := s.steadyDisown id i
      simp only [taken, if_true]
      rw [ResourceTable.referencesUnreferAll _ _ ((steady.shape.has _).mpr known)
        ((steady.reserved _).trans free), disowned]
    · simp only [taken]
      exact ResourceTable.referencesUnreferAll _ _ known free

theorem detachSite (o : Owner) (j : SiteId) :
    (s.detach o).site j = if j = o.site then (s.site o.site).place else s.site j :=
  s.releaseSite o.site j

theorem detachResources (o : Owner) : (s.detach o).resources = s.releasedResources o.site := by
  simp [detach, modifyValue, releaseEq, setSite]

theorem detachValue (o : Owner) (w : ValueId) :
    (s.detach o).value w =
      { s.value w with
        sites := if w = o.value then (s.value w).sites.filter (· != o.site)
          else (s.value w).sites } := by
  have released : ∀ u, (s.release o.site).value u = s.value u := by
    intro u
    rw [releaseEq]
    rfl
  rw [detach, valueModify, released, released]
  by_cases same : w = o.value
  · subst same
    by_cases known : s.IsValue o.value
    · have known' : (s.release o.site).IsValue o.value := by
        rw [releaseEq]
        exact known
      simp [known']
    · have unknown : ¬ (s.release o.site).IsValue o.value := by
        rw [releaseEq]
        exact known
      simp only [unknown, and_false, if_false, if_true]
      rw [valueOutside s known]
      rfl
  · simp [same]

theorem detachRest (o : Owner) :
    s.detach o = { s with
      values := (s.detach o).values
      sites := (s.detach o).sites
      resources := (s.detach o).resources } := by
  rw [detach, releaseEq]
  rfl

theorem detachValues (o : Owner) : (s.detach o).values.size = s.values.size := by
  rw [detach, releaseEq]
  simp [modifyValue, setSite]

theorem detachSites (o : Owner) : (s.detach o).sites.size = s.sites.size := by
  rw [detach, releaseEq]
  simp [modifyValue, setSite]

/-! Freezing. -/

theorem freezeSiteEq (i : SiteId) :
    s.freezeSite i = s.modifyResources fun t =>
      match s.resource? i with
      | some id => t.freeze id
      | none => t.referAll (s.site i).addressed := by
  unfold freezeSite resource?
  cases x : s.site i with
  | constant p => rfl
  | address p => rfl
  | register mask number => cases number <;> rfl
  | memory m acquired =>
    simp only [slotResourceEq]
    cases (Site.memory m acquired).resource? s.geometry <;> rfl

theorem thawSiteEq (i : SiteId) :
    s.thawSite i = s.modifyResources fun t =>
      match s.resource? i with
      | some id => t.thaw id
      | none => t.unreferAll (s.site i).addressed := by
  unfold thawSite resource?
  cases x : s.site i with
  | constant p => rfl
  | address p => rfl
  | register mask number => cases number <;> rfl
  | memory m acquired =>
    simp only [slotResourceEq]
    cases (Site.memory m acquired).resource? s.geometry <;> rfl

end Lowering.State
