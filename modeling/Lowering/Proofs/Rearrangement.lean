import Lowering.Proofs.Updates
import Lowering.Relocation
/-!
What the allocator does while it moves values around, as a relation.

A rearrangement creates sites, takes resources for values, takes sites away from owners that can
spare them, and copies words. Everything that placing, staging, moving and displacing a value do
is such a rearrangement; what one preserves is proved over its steps.
-/
namespace Lowering

def Value.outline (d : Value) : Value := { d with sites := [], source := none }

def Site.taken : Site → Site
  | .memory m _ => .memory m true
  | x => x

theorem Site.placeTaken (x : Site) : x.taken.place = x.place := by
  cases x <;> rfl

theorem Site.takenOfPlace {x y : Site} (same : x.place = y.place) : x.taken = y.taken := by
  cases x <;> cases y <;> simp_all [place, taken]

namespace State

variable {s s' t t' : State} {old : Nat}

structure Keeps (s s' : State) : Prop where
  rest : s' = { s with
    values := s'.values
    sites := s'.sites
    reads := s'.reads
    resources := s'.resources
    statistics := s'.statistics
    emitter := s'.emitter }
  size : s'.values.size = s.values.size
  value : ∀ v, (s'.value v).outline = (s.value v).outline
  sites : s.sites.size ≤ s'.sites.size
  place : ∀ i, s.IsSite i → (s'.site i).place = (s.site i).place
  reads : s.reads.Evolves s'.reads
  resources : s.resources.Steady s'.resources

namespace Keeps

theorem refl (s : State) : Keeps s s :=
  ⟨rfl, rfl, fun _ => rfl, Nat.le_refl _, fun _ _ => rfl, .refl _, .refl _⟩

theorem isSite (h : Keeps s s') {i : SiteId} (known : s.IsSite i) : s'.IsSite i :=
  Nat.lt_of_lt_of_le known h.sites

theorem trans (first : Keeps s t) (second : Keeps t s') : Keeps s s' := by
  refine ⟨?_, second.size.trans first.size, fun v => (second.value v).trans (first.value v),
    first.sites.trans second.sites, fun i known => ?_, first.reads.trans second.reads,
    first.resources.trans second.resources⟩
  · have a := first.rest
    have b := second.rest
    rw [a] at b
    exact b
  · exact (second.place i (first.isSite known)).trans (first.place i known)

theorem machine (h : Keeps s s') : s'.machine = s.machine := by rw [h.rest]

theorem settings (h : Keeps s s') : s'.settings = s.settings := by rw [h.rest]

theorem geometry (h : Keeps s s') : s'.geometry = s.geometry := by rw [h.rest]

theorem isValue (h : Keeps s s') (v : ValueId) : s'.IsValue v ↔ s.IsValue v := by
  simp [IsValue, h.size]

theorem next (h : Keeps s s') (v : ValueId) : (s'.value v).next = (s.value v).next :=
  show (s'.value v).outline.next = (s.value v).outline.next from congrArg _ (h.value v)

theorem head (h : Keeps s s') (v : ValueId) : (s'.value v).reads = (s.value v).reads :=
  show (s'.value v).outline.reads = (s.value v).outline.reads from congrArg _ (h.value v)

theorem ring (h : Keeps s s') (v : ValueId) : s'.ring v = s.ring v := ringCongr h.size h.next v

theorem resource (h : Keeps s s') {i : SiteId} (known : s.IsSite i) :
    s'.resource? i = s.resource? i := by
  unfold resource?
  rw [h.geometry]
  exact Site.resourceOfPlace (h.place i known)

theorem satisfies (h : Keeps s s') {i : SiteId} (known : s.IsSite i) (mask : SiteMask) :
    (s'.site i).satisfies s'.geometry mask = (s.site i).satisfies s.geometry mask := by
  rw [h.geometry]
  exact Site.satisfiesOfPlace (h.place i known) mask

theorem has (h : Keeps s s') (id : ResourceId) : s'.resources.Has id ↔ s.resources.Has id :=
  h.resources.shape.has id

theorem free (h : Keeps s s') (id : ResourceId) : s'.Free id ↔ s.Free id := by
  simp [Free, h.resources.reserved]

theorem permutes (h : Keeps s s') (p : s.Permutes) : s'.Permutes := permutesCongr h.size h.next p

theorem wellFormed (h : Keeps s s') (formed : s.WellFormed)
    (listed : ∀ v i, i ∈ (s'.value v).sites → s'.IsSite i) : s'.WellFormed where
  rings := h.permutes formed.rings
  listed := listed
  reads := h.reads.wellFormed formed.reads
  heads := by
    intro v r chain
    rw [h.head] at chain
    obtain ⟨there, value⟩ := formed.heads v r chain
    exact ⟨h.reads.isRead there, (h.reads.value r there).trans value⟩
  frame := by
    rw [h.geometry, h.resources.shape.slots]
    exact formed.frame

theorem live (h : Keeps s s') (formed : s.WellFormed) (formed' : s'.WellFormed) (v : ValueId) :
    s'.Live v ↔ s.Live v := by
  rw [liveIff formed', liveIff formed, h.ring]
  constructor
  · rintro ⟨m, member, r, chain, pending⟩
    rw [h.head] at chain
    exact ⟨m, member, r, chain, h.reads.ofPending formed.reads.ordered pending (formed.heads m r chain).1⟩
  · rintro ⟨m, member, r, chain, pending⟩
    exact ⟨m, member, r, (h.head m).trans chain, h.reads.pendingOf pending⟩

end Keeps

/-! The single steps of a rearrangement. -/

def reach (s : State) (i : SiteId) : State :=
  s.modifyResources (·.referAll (s.site i).addressed)

def enlist (s : State) (v : ValueId) (i : SiteId) : State :=
  s.modifyValue v fun d => { d with sites := i :: d.sites }

def occupy (s : State) (v : ValueId) (i : SiteId) (id : ResourceId) : State :=
  ((s.modifyResources (·.setOwner id (some ⟨v, i⟩))).setSite i (s.site i).taken).enlist v i

/-- The resource `id` is vacant in `t'` for `v`: its owner in `t`, if any, could spare the site,
is not live, or is an alias of `v`. -/
inductive Vacates (kept : List SiteId) (t : State) (id : ResourceId) (v : ValueId) : State → Prop
  | vacant (none : t.owner? id = none) : Vacates kept t id v t
  | owned {o : Owner} (owner : t.owner? id = some o) (apart : o.site ∉ kept)
      (spare : o.value ∈ t.ring v ∨ t.isLastSite o.value o.site = false ∨ ¬ t.Live o.value) :
      Vacates kept t id v (t.removeSite o.value o.site)

def Unlisted (s : State) (i : SiteId) : Prop := ∀ v, i ∉ (s.value v).sites

def Plain (s : State) (x : Site) : Prop :=
  ∀ m acquired, x = .memory m acquired → m.base = s.geometry.stack →
    ∃ n < s.resources.slots.length, m = ⟨s.geometry.stack, s.geometry.offset n, none, 1⟩

def Straddled (s : State) (id : ResourceId) : Prop :=
  ∃ v i, i ∈ (s.value v).sites ∧ s.resource? i = some id ∧ ¬ s.Plain (s.site i)

/-- The value may be given the resource: it is somewhere already, and the resource is a register of
the machine or a slot, and nobody has frozen it. -/
structure Entitled (s : State) (v : ValueId) (id : ResourceId) : Prop where
  housed : s.hasSite v = true
  numbered : ∀ r, id = .register r → r < s.machine.registerCount
  loose : (s.resources.get id).freezes = 0 ∨ s.Straddled id

def Logs (e : Emitter) (q : Request) (e' : Emitter) : Prop :=
  ∀ r, e = .recording r → e' = .recording (r.emit q).2

/-- From `s` to `s'` values are rearranged. The sites in `kept` are left alone, and the first `old`
sites are given to nobody. The lists next to the states are the sites that were taken and have not
been filled yet. -/
inductive Moves (old : Nat) : List SiteId → List SiteId → State → List SiteId → State → Prop
  | refl (kept hollow s) : Moves old kept hollow s hollow s
  | trans {kept h₀ s h₁ t h₂ u} (first : Moves old kept h₀ s h₁ t)
      (second : Moves old kept h₁ t h₂ u) : Moves old kept h₀ s h₂ u
  | ask {kept hollow s} (reads : ReadTable) (statistics : Statistics) (available : Nat)
      (evolves : s.reads.Evolves reads) :
      Moves old kept hollow s hollow
        { s with reads, statistics, resources := { s.resources with available } }
  | create {kept hollow s} (x : Site) (plain : s.Plain x) :
      Moves old kept hollow s hollow (s.newSite x).2
  | frozen {kept h₀ s h₁ t i} (known : s.IsSite i) (run : Moves old kept h₀ (s.freezeSite i) h₁ t) :
      Moves old kept h₀ s h₁ (t.thawSite i)
  | drop {kept hollow s id o} (free : s.Free id) (owner : s.owner? id = some o)
      (apart : o.site ∉ kept) (filled : o.site ∉ hollow)
      (spare : s.isLastSite o.value o.site = false ∨ ¬ s.Live o.value) :
      Moves old kept hollow s hollow (s.removeSite o.value o.site)
  | redirect {kept hollow s} (o : Owner) (j : SiteId) (apart : o.site ∉ kept)
      (held : ∃ m ∈ s.ring o.value, j ∈ (s.value m).sites) :
      Moves old kept hollow s hollow (s.modifyValue o.value fun d =>
        if d.source == some o.site then { d with source := some j } else d)
  | take {kept hollow s t u v i id} (value : s.IsValue v) (known : s.IsSite i)
      (names : s.resource? i = some id) (plain : s.Plain (s.site i)) (free : s.Free id)
      (fresh : s.Unlisted i) (born : old ≤ i.index) (apart : i ∉ kept)
      (run : Moves old (i :: kept) hollow (s.reach i) hollow t)
      (vacates : Vacates (hollow ++ kept) t id v u) (entitled : s.Entitled v id) :
      Moves old kept hollow s (i :: hollow) (u.occupy v i id)
  | fill {kept hollow s v src dst a b e} (statistics : Statistics)
      (held : dst ∈ (s.value v).sites)
      (source : (∃ m ∈ s.ring v, src ∈ (s.value m).sites) ∨ ¬ s.Plain (s.site src))
      (filled : src ∉ dst :: hollow) (origin : s.operand src = .ok a)
      (target : s.operand dst = .ok b)
      (logged : Logs s.emitter (.binary .move wordSize a wordSize b) e) :
      Moves old kept (dst :: hollow) s hollow { s with emitter := e, statistics }

/-! What a rearrangement keeps, step by step. -/

theorem keepsResources (s : State) {f : ResourceTable → ResourceTable}
    (steady : s.resources.Steady (f s.resources)) : Keeps s (s.modifyResources f) :=
  ⟨rfl, rfl, fun _ => rfl, Nat.le_refl _, fun _ _ => rfl, .refl _, steady⟩

theorem keepsNewSite (s : State) (x : Site) : Keeps s (s.newSite x).2 :=
  ⟨rfl, rfl, fun _ => rfl, by simp [newSite], fun i known => by rw [s.siteNewOld x known],
    .refl _, .refl _⟩

theorem keepsModifyValue (s : State) (v : ValueId) {f : Value → Value}
    (same : ∀ d, (f d).outline = d.outline) : Keeps s (s.modifyValue v f) := by
  refine ⟨rfl, by simp, fun w => ?_, Nat.le_refl _, fun _ _ => rfl, .refl _, .refl _⟩
  rw [valueModify]
  split
  · rename_i here
    rw [same, here.1]
  · rfl

theorem keepsSetSite (s : State) (i : SiteId) {x : Site} (same : x.place = (s.site i).place) :
    Keeps s (s.setSite i x) := by
  refine ⟨rfl, rfl, fun _ => rfl, by simp, fun j _ => ?_, .refl _, .refl _⟩
  rw [siteSet]
  split
  · rename_i here
    rw [same, here.1]
  · rfl

theorem keepsDetach (s : State) (o : Owner) : Keeps s (s.detach o) := by
  refine ⟨?_, s.detachValues o, fun v => ?_, (s.detachSites o).ge, fun i _ => ?_, ?_, ?_⟩
  · rw [detach, releaseEq]
    rfl
  · rw [detachValue]
    rfl
  · rw [detachSite]
    split
    · rename_i here
      rw [here]
      cases s.site o.site <;> rfl
    · rfl
  · rw [s.detachRest o]
    exact .refl _
  · rw [detachResources]
    exact s.steadyReleased o.site

theorem removeSiteCases (s : State) (v : ValueId) (i : SiteId) :
    (s.removeSite v i = s ∧ ∀ m ∈ s.ring v, i ∉ (s.value m).sites) ∨
      ∃ m ∈ s.ring v, i ∈ (s.value m).sites ∧ s.removeSite v i = s.detach ⟨m, i⟩ := by
  unfold removeSite
  cases found : (s.placements v).find? (·.site == i) with
  | none =>
    refine .inl ⟨rfl, fun m member listed => ?_⟩
    have none := List.find?_eq_none.mp found ⟨m, i⟩
    simp only [placements, ownPlacements, List.mem_flatMap, List.mem_map] at none
    exact none ⟨m, member, i, listed, rfl⟩ (by simp)
  | some o =>
    have site : o.site = i := by simpa using List.find?_some found
    have member := List.mem_of_find?_eq_some found
    simp only [placements, ownPlacements, List.mem_flatMap, List.mem_map] at member
    obtain ⟨m, inside, j, listed, rfl⟩ := member
    subst site
    exact .inr ⟨m, inside, listed, rfl⟩

theorem keepsRemoveSite (s : State) (v : ValueId) (i : SiteId) : Keeps s (s.removeSite v i) := by
  obtain ⟨same, -⟩ | ⟨m, -, -, same⟩ := s.removeSiteCases v i
  · rw [same]
    exact .refl s
  · rw [same]
    exact s.keepsDetach _

theorem keepsReach (s : State) (i : SiteId) : Keeps s (s.reach i) :=
  s.keepsResources (ResourceTable.steadyReferAll _ _)

theorem keepsEnlist (s : State) (v : ValueId) (i : SiteId) : Keeps s (s.enlist v i) :=
  s.keepsModifyValue v fun _ => rfl

theorem keepsOccupy (s : State) (v : ValueId) (i : SiteId) (id : ResourceId) :
    Keeps s (s.occupy v i id) :=
  ((s.keepsResources (.setOwner _ _ _)).trans
    (keepsSetSite _ i (Site.placeTaken (s.site i)))).trans (keepsEnlist _ v i)

theorem keepsAsk (s : State) {reads : ReadTable} (statistics : Statistics) (available : Nat)
    (evolves : s.reads.Evolves reads) :
    Keeps s { s with reads, statistics, resources := { s.resources with available } } :=
  ⟨rfl, rfl, fun _ => rfl, Nat.le_refl _, fun _ _ => rfl, evolves, ⟨⟨rfl, rfl⟩, by simp, by simp⟩⟩

theorem Vacates.keeps {kept : List SiteId} {id : ResourceId} {v : ValueId}
    (h : Vacates kept t id v t') : Keeps t t' := by
  cases h with
  | vacant => exact .refl t
  | owned => exact t.keepsRemoveSite _ _

theorem keepsFrozen {i : SiteId} (known : s.IsSite i) (h : Keeps (s.freezeSite i) t) :
    Keeps s (t.thawSite i) := by
  have rest := h.rest
  rw [freezeSiteEq] at h
  have names : t.resource? i = s.resource? i := h.resource (s := s.modifyResources _) known
  have address : (t.site i).addressed = (s.site i).addressed :=
    Site.addressedOfPlace (h.place i known)
  have steady : s.resources.Steady (t.thawSite i).resources := by
    rw [thawSiteEq, names, address]
    have inner := h.resources
    cases named : s.resource? i with
    | none =>
      simp only [named] at inner
      exact ((ResourceTable.steadyReferAll _ _).trans inner).trans
        (ResourceTable.steadyUnreferAll _ _)
    | some id =>
      simp only [named] at inner
      have freeze := ResourceTable.freezeAdjusts s.resources id
      have thaw := ResourceTable.thawAdjusts t.resources id
      refine ⟨(freeze.shape.trans inner.shape).trans thaw.shape, fun other => ?_, fun other => ?_⟩
      · refine (thaw.same (·.reserved) (fun _ => rfl) other).trans ?_
        exact (inner.reserved other).trans (freeze.same (·.reserved) (fun _ => rfl) other)
      · have frozen := inner.freezes
        have reserved := (inner.reserved id).trans (freeze.same (·.reserved) (fun _ => rfl) id)
        have has : t.resources.Has id ↔ s.resources.Has id :=
          (inner.shape.has id).trans (freeze.shape.has id)
        simp only [modifyResources] at frozen reserved ⊢
        rw [thaw.get]
        by_cases here : other = id ∧ s.resources.Has id ∧ (s.resources.get id).reserved = false
        · rw [if_pos ⟨here.1, has.mpr here.2.1, reserved.trans here.2.2⟩, frozen, freeze.get,
            if_pos ⟨rfl, here.2⟩, here.1]
          rfl
        · rw [if_neg fun h => here ⟨h.1, has.mp h.2.1, reserved.symm.trans h.2.2⟩, frozen,
            freeze.get, if_neg here]
  rw [thawSiteEq] at steady ⊢
  exact ⟨by rw [modifyResources, rest, freezeSiteEq]; rfl, h.size, h.value, h.sites, h.place,
    h.reads, steady⟩

theorem Moves.keeps {kept h₀ h₁ : List SiteId} (run : Moves old kept h₀ s h₁ s') : Keeps s s' := by
  induction run with
  | refl => exact .refl _
  | trans _ _ first second => exact first.trans second
  | ask reads statistics available evolves => exact keepsAsk _ statistics available evolves
  | create x => exact keepsNewSite _ x
  | frozen known _ inner => exact keepsFrozen known inner
  | drop => exact keepsRemoveSite _ _ _
  | redirect =>
    refine keepsModifyValue _ _ fun d => ?_
    split <;> rfl
  | take _ _ _ _ _ _ _ _ _ vacates _ inner =>
    exact (((keepsReach _ _).trans inner).trans vacates.keeps).trans (keepsOccupy _ _ _ _)
  | fill statistics =>
    exact ⟨rfl, rfl, fun _ => rfl, Nat.le_refl _, fun _ _ => rfl, .refl _, .refl _⟩

/-! Sites that are listed. -/

theorem detachListed (s : State) (o : Owner) {v : ValueId} {i : SiteId} :
    i ∈ ((s.detach o).value v).sites ↔
      i ∈ (s.value v).sites ∧ (v = o.value → i ≠ o.site) := by
  rw [detachValue]
  by_cases same : v = o.value
  · simp [same]
  · simp [same]

theorem removeSiteListed (s : State) {v w : ValueId} {i j : SiteId}
    (listed : j ∈ ((s.removeSite v i).value w).sites) : j ∈ (s.value w).sites := by
  obtain ⟨same, -⟩ | ⟨m, -, -, same⟩ := s.removeSiteCases v i
  · rwa [same] at listed
  · rw [same, detachListed] at listed
    exact listed.1

theorem removeSiteKeepsListed (s : State) {v w : ValueId} {i j : SiteId}
    (listed : j ∈ (s.value w).sites) (apart : j ≠ i) :
    j ∈ ((s.removeSite v i).value w).sites := by
  obtain ⟨same, -⟩ | ⟨m, -, -, same⟩ := s.removeSiteCases v i
  · rwa [same]
  · rw [same, detachListed]
    exact ⟨listed, fun _ => apart⟩

theorem removeSiteSource (s : State) (v w : ValueId) (i : SiteId) :
    ((s.removeSite v i).value w).source = (s.value w).source := by
  obtain ⟨same, -⟩ | ⟨m, -, -, same⟩ := s.removeSiteCases v i
  · rw [same]
  · rw [same, detachValue]

theorem Vacates.mono {kept fewer : List SiteId} {id : ResourceId} {v : ValueId}
    (h : Vacates kept t id v t') (sub : ∀ i ∈ fewer, i ∈ kept) : Vacates fewer t id v t' := by
  cases h with
  | vacant none => exact .vacant none
  | owned owner apart spare => exact .owned owner (fun inside => apart (sub _ inside)) spare

theorem Vacates.listed {kept : List SiteId} {id : ResourceId} {v w : ValueId} {j : SiteId}
    (h : Vacates kept t id v t') (listed : j ∈ (t'.value w).sites) : j ∈ (t.value w).sites := by
  cases h with
  | vacant => exact listed
  | owned => exact t.removeSiteListed listed

theorem Vacates.keepsListed {kept : List SiteId} {id : ResourceId} {v w : ValueId} {j : SiteId}
    (h : Vacates kept t id v t') (inside : j ∈ kept) (listed : j ∈ (t.value w).sites) :
    j ∈ (t'.value w).sites := by
  cases h with
  | vacant => exact listed
  | owned owner apart =>
    exact t.removeSiteKeepsListed listed fun same => apart (same ▸ inside)

theorem Vacates.source {kept : List SiteId} {id : ResourceId} {v w : ValueId}
    (h : Vacates kept t id v t') : (t'.value w).source = (t.value w).source := by
  cases h with
  | vacant => rfl
  | owned => exact t.removeSiteSource _ _ _

theorem occupyValue (s : State) (v w : ValueId) (i : SiteId) (id : ResourceId) :
    (s.occupy v i id).value w =
      if w = v ∧ s.IsValue v then { s.value v with sites := i :: (s.value v).sites }
      else s.value w :=
  valueModify _ v w _

theorem enlistSites (s : State) {v : ValueId} (known : s.IsValue v) (i : SiteId) (w : ValueId) :
    ((s.enlist v i).value w).sites =
      if w = v then i :: (s.value w).sites else (s.value w).sites := by
  rw [enlist, valueModify]
  by_cases same : w = v
  · simp [same, known]
  · simp [same]

theorem enlistListed (s : State) {v : ValueId} (known : s.IsValue v) {w : ValueId}
    {i j : SiteId} :
    j ∈ ((s.enlist v i).value w).sites ↔ (w = v ∧ j = i) ∨ j ∈ (s.value w).sites := by
  rw [s.enlistSites known]
  by_cases same : w = v
  · simp [same]
  · simp [same]

theorem occupyListed (s : State) {v : ValueId} (known : s.IsValue v) {w : ValueId} {i j : SiteId}
    {id : ResourceId} :
    j ∈ ((s.occupy v i id).value w).sites ↔ (w = v ∧ j = i) ∨ j ∈ (s.value w).sites :=
  enlistListed _ known

theorem freezeSiteValue (s : State) (i : SiteId) (v : ValueId) :
    (s.freezeSite i).value v = s.value v := by
  rw [freezeSiteEq]
  rfl

theorem thawSiteValue (s : State) (i : SiteId) (v : ValueId) :
    (s.thawSite i).value v = s.value v := by
  rw [thawSiteEq]
  rfl

theorem redirectSites (s : State) (o : Owner) (j : SiteId) (v : ValueId) :
    ((s.modifyValue o.value fun d =>
      if d.source == some o.site then { d with source := some j } else d).value v).sites =
      (s.value v).sites := by
  rw [valueModify]
  split
  · rename_i here
    split <;> rw [here.1]
  · rfl

namespace Moves

variable {kept h₀ h₁ : List SiteId}

theorem mono (run : Moves old kept h₀ s h₁ s') :
    ∀ {fewer : List SiteId}, (∀ i ∈ fewer, i ∈ kept) → Moves old fewer h₀ s h₁ s' := by
  induction run with
  | refl => exact fun _ => .refl _ _ _
  | trans _ _ first second => exact fun sub => (first sub).trans (second sub)
  | ask reads statistics available evolves =>
    exact fun _ => .ask reads statistics available evolves
  | create x plain => exact fun _ => .create x plain
  | frozen known _ inner => exact fun sub => .frozen known (inner sub)
  | drop free owner apart filled spare =>
    exact fun sub => .drop free owner (fun inside => apart (sub _ inside)) filled spare
  | redirect o j apart held =>
    exact fun sub => .redirect o j (fun inside => apart (sub _ inside)) held
  | take value known names plain free fresh born apart _ vacates entitled inner =>
    intro fewer sub
    refine .take value known names plain free fresh born (fun inside => apart (sub _ inside))
      (inner ?_) (vacates.mono fun j member => ?_) entitled
    · intro j member
      rcases List.mem_cons.mp member with rfl | member
      · exact List.mem_cons_self
      · exact List.mem_cons_of_mem _ (sub j member)
    · rcases List.mem_append.mp member with member | member
      · exact List.mem_append_left _ member
      · exact List.mem_append_right _ (sub j member)
  | fill statistics held source filled origin target logged =>
    exact fun _ => .fill statistics held source filled origin target logged

theorem listed (run : Moves old kept h₀ s h₁ s')
    (known : ∀ v i, i ∈ (s.value v).sites → s.IsSite i) :
    ∀ v i, i ∈ (s'.value v).sites → s'.IsSite i := by
  induction run with
  | refl => exact known
  | trans _ _ first second => exact second (first known)
  | ask => exact known
  | create x => exact fun v i member => (keepsNewSite _ x).isSite (known v i member)
  | @frozen kept h₀ s h₁ t i _ _ inner =>
    intro v j member
    have listed := inner (fun w k inside => by
      rw [freezeSiteValue] at inside
      rw [freezeSiteEq]
      exact known w k inside) v j (by rwa [thawSiteValue] at member)
    rw [thawSiteEq]
    exact listed
  | @drop kept hollow s id o =>
    intro v i member
    exact (s.keepsRemoveSite o.value o.site).isSite (known v i (s.removeSiteListed member))
  | redirect o j =>
    intro v i member
    rw [redirectSites] at member
    exact known v i member
  | @take kept hollow s t u v i id value there _ _ _ _ _ _ run vacates _ inner =>
    have all := ((s.keepsReach i).trans run.keeps).trans vacates.keeps
    intro w j member
    apply (u.keepsOccupy v i id).isSite
    rcases (u.occupyListed ((all.isValue v).mpr value)).mp member with ⟨-, rfl⟩ | member
    · exact all.isSite there
    · exact vacates.keeps.isSite (inner known w j (vacates.listed member))
  | fill => exact known

theorem wellFormed (run : Moves old kept h₀ s h₁ s') (formed : s.WellFormed) : s'.WellFormed :=
  run.keeps.wellFormed formed (run.listed formed.listed)

theorem live (run : Moves old kept h₀ s h₁ s') (formed : s.WellFormed) (v : ValueId) :
    s'.Live v ↔ s.Live v :=
  run.keeps.live formed (run.wellFormed formed) v

theorem keepsListed (run : Moves old kept h₀ s h₁ s') {i : SiteId} (inside : i ∈ kept) {v : ValueId}
    (listed : i ∈ (s.value v).sites) : i ∈ (s'.value v).sites := by
  induction run with
  | refl => exact listed
  | trans _ _ first second => exact second inside (first inside listed)
  | ask => exact listed
  | create => exact listed
  | frozen _ _ inner =>
    rw [thawSiteValue]
    exact inner inside (by rwa [freezeSiteValue])
  | drop _ _ apart =>
    exact removeSiteKeepsListed _ listed fun same => apart (same ▸ inside)
  | redirect =>
    rwa [redirectSites]
  | @take kept hollow s t u v i id value _ _ _ _ _ _ _ run vacates _ inner =>
    have all := ((s.keepsReach i).trans run.keeps).trans vacates.keeps
    rw [u.occupyListed ((all.isValue v).mpr value)]
    exact .inr (vacates.keepsListed (List.mem_append_right _ inside)
      (inner (List.mem_cons_of_mem _ inside) listed))
  | fill => exact listed

theorem unlisted (run : Moves old kept h₀ s h₁ s') {i : SiteId} (inside : i ∈ kept)
    (fresh : s.Unlisted i) : s'.Unlisted i := by
  induction run with
  | refl => exact fresh
  | trans _ _ first second => exact second inside (first inside fresh)
  | ask => exact fresh
  | create => exact fresh
  | frozen _ _ inner =>
    intro v
    rw [thawSiteValue]
    exact inner inside (fun w => by rw [freezeSiteValue]; exact fresh w) v
  | drop => exact fun v member => fresh v (removeSiteListed _ member)
  | redirect =>
    intro v
    rw [redirectSites]
    exact fresh v
  | @take kept hollow s t u v j id value _ _ _ _ _ _ apart run vacates _ inner =>
    have all := ((s.keepsReach j).trans run.keeps).trans vacates.keeps
    intro w member
    rcases (u.occupyListed ((all.isValue v).mpr value)).mp member with ⟨-, rfl⟩ | member
    · exact apart inside
    · exact inner (List.mem_cons_of_mem _ inside) fresh w (vacates.listed member)
  | fill => exact fresh

theorem source (run : Moves old kept h₀ s h₁ s') {i : SiteId} (inside : i ∈ kept) {v : ValueId}
    (chosen : (s.value v).source = some i) : (s'.value v).source = some i := by
  induction run with
  | refl => exact chosen
  | trans _ _ first second => exact second inside (first inside chosen)
  | ask => exact chosen
  | create => exact chosen
  | frozen _ _ inner =>
    rw [thawSiteValue]
    exact inner inside (by rwa [freezeSiteValue])
  | drop => rwa [removeSiteSource]
  | redirect o j apart =>
    rw [valueModify]
    split
    · rename_i here
      have other : i ≠ o.site := fun same => apart (same ▸ inside)
      rw [here.1] at chosen
      simp [chosen, other]
    · exact chosen
  | @take kept hollow s t u v j id _ _ _ _ _ _ _ _ _ vacates _ inner =>
    have before := inner (List.mem_cons_of_mem _ inside) chosen
    rw [occupyValue]
    split
    · rename_i here
      rw [here.1, ← vacates.source] at before
      exact before
    · rw [vacates.source]
      exact before
  | fill => exact chosen

end Moves

/-! Owners. -/

theorem freezeSiteOwner (s : State) (i : SiteId) (id : ResourceId) :
    (s.freezeSite i).owner? id = s.owner? id := by
  rw [freezeSiteEq]
  unfold owner? modifyResources
  dsimp only
  cases s.resource? i with
  | none => exact ResourceTable.ownerReferAll _ _ _
  | some named => exact (ResourceTable.freezeAdjusts _ _).same (·.owner) (fun _ => rfl) id

theorem thawSiteOwner (s : State) (i : SiteId) (id : ResourceId) :
    (s.thawSite i).owner? id = s.owner? id := by
  rw [thawSiteEq]
  unfold owner? modifyResources
  dsimp only
  cases s.resource? i with
  | none => exact ResourceTable.ownerUnreferAll _ _ _
  | some named => exact (ResourceTable.thawAdjusts _ _).same (·.owner) (fun _ => rfl) id

theorem reachOwner (s : State) (i : SiteId) (id : ResourceId) :
    (s.reach i).owner? id = s.owner? id :=
  ResourceTable.ownerReferAll _ _ _

theorem detachOwner (s : State) (o : Owner) (id : ResourceId) :
    (s.detach o).owner? id =
      if s.resource? o.site = some id ∧ (s.site o.site).isTaken = true ∧ s.Free id ∧
          (s.owner? id).map (·.site) = some o.site then none
      else s.owner? id := by
  unfold owner?
  rw [detachResources, ownerReleased]
  rfl

theorem removeSiteOwner (s : State) {v : ValueId} {i : SiteId} {id : ResourceId} {o : Owner}
    (owner : (s.removeSite v i).owner? id = some o) : s.owner? id = some o := by
  obtain ⟨same, -⟩ | ⟨m, -, -, same⟩ := s.removeSiteCases v i
  · rwa [same] at owner
  · rw [same, detachOwner] at owner
    split at owner
    · cases owner
    · exact owner

theorem occupyOwner (s : State) (v : ValueId) (i : SiteId) (id other : ResourceId) :
    (s.occupy v i id).owner? other =
      if other = id ∧ s.resources.Has id then some ⟨v, i⟩ else s.owner? other := by
  show ((s.resources.setOwner id (some ⟨v, i⟩)).get other).owner = _
  rw [ResourceTable.getSetOwner]
  split <;> rfl

theorem Vacates.owner {kept : List SiteId} {id other : ResourceId} {v : ValueId} {o : Owner}
    (h : Vacates kept t id v t') (owner : t'.owner? other = some o) : t.owner? other = some o := by
  cases h with
  | vacant => exact owner
  | owned => exact t.removeSiteOwner owner

theorem Keeps.named (h : Keeps s s')
    (before : ∀ id o, s'.owner? id = some o → s.owner? id = some o) (named : s.Named) :
    s'.Named := by
  intro id o free owner
  obtain ⟨value, known, names⟩ := named id o ((h.free id).mp free) (before id o owner)
  exact ⟨(h.isValue _).mpr value, h.isSite known, (h.resource known).trans names⟩

theorem freezeSiteFree (s : State) (i : SiteId) (id : ResourceId) :
    (s.freezeSite i).Free id ↔ s.Free id := by
  rw [freezeSiteEq]
  unfold Free modifyResources
  dsimp only
  cases s.resource? i with
  | none => rw [(ResourceTable.steadyReferAll _ _).reserved]
  | some named =>
    rw [(ResourceTable.freezeAdjusts _ named).same (·.reserved) fun _ => rfl]

theorem thawSiteFree (s : State) (i : SiteId) (id : ResourceId) :
    (s.thawSite i).Free id ↔ s.Free id := by
  rw [thawSiteEq]
  unfold Free modifyResources
  dsimp only
  cases s.resource? i with
  | none => rw [(ResourceTable.steadyUnreferAll _ _).reserved]
  | some named =>
    rw [(ResourceTable.thawAdjusts _ named).same (·.reserved) fun _ => rfl]

theorem namedFreeze {i : SiteId} (named : s.Named) : (s.freezeSite i).Named := by
  intro id o free owner
  rw [freezeSiteOwner] at owner
  have here := named id o ((s.freezeSiteFree i id).mp free) owner
  rw [freezeSiteEq]
  exact here

theorem namedThaw {i : SiteId} (named : s.Named) : (s.thawSite i).Named := by
  intro id o free owner
  rw [thawSiteOwner] at owner
  have here := named id o ((s.thawSiteFree i id).mp free) owner
  rw [thawSiteEq]
  exact here

theorem Moves.named {kept h₀ h₁ : List SiteId} (run : Moves old kept h₀ s h₁ s') (named : s.Named) :
    s'.Named := by
  induction run with
  | refl => exact named
  | trans _ _ first second => exact second (first named)
  | @ask _ _ s reads statistics available evolves =>
    exact (s.keepsAsk statistics available evolves).named
      (fun id o owner => by simpa [owner?] using owner) named
  | create x => exact (keepsNewSite _ x).named (fun _ _ owner => owner) named
  | frozen _ _ inner => exact namedThaw (inner (namedFreeze named))
  | drop => exact (keepsRemoveSite _ _ _).named (fun _ _ owner => removeSiteOwner _ owner) named
  | redirect =>
    refine (keepsModifyValue _ _ fun d => ?_).named (fun _ _ owner => owner) named
    split <;> rfl
  | @take kept hollow s t u v i id value known names _ _ _ _ _ run vacates _ inner =>
    have reached := s.keepsReach i
    have before := inner (reached.named (fun _ _ owner => by rwa [reachOwner] at owner) named)
    have after := vacates.keeps.named (fun _ _ => vacates.owner) before
    have all := (reached.trans run.keeps).trans vacates.keeps
    have last := u.keepsOccupy v i id
    intro other o free owner
    rw [occupyOwner] at owner
    split at owner
    · rename_i here
      cases owner
      refine ⟨((all.trans last).isValue v).mpr value, last.isSite (all.isSite known), ?_⟩
      rw [last.resource (all.isSite known), all.resource known, names, here.1]
    · obtain ⟨there, site, stands⟩ := after other o ((last.free other).mp free) owner
      exact ⟨(last.isValue _).mpr there, last.isSite site, (last.resource site).trans stands⟩
  | fill => exact named

def Unowned (s : State) (i : SiteId) : Prop :=
  ∀ id o, s.Free id → s.owner? id = some o → o.site ≠ i

namespace Moves

variable {kept h₀ h₁ : List SiteId}

theorem unowned (run : Moves old kept h₀ s h₁ s') {i : SiteId} (inside : i ∈ kept)
    (fresh : s.Unowned i) : s'.Unowned i := by
  induction run with
  | refl => exact fresh
  | trans _ _ first second => exact second inside (first inside fresh)
  | ask =>
    intro id o free owner
    exact fresh id o (by simpa [Free] using free) (by simpa [owner?] using owner)
  | create => exact fresh
  | frozen _ _ inner =>
    intro id o free owner
    rw [thawSiteOwner] at owner
    rw [thawSiteFree] at free
    refine inner inside (fun id o free before => fresh id o ?_ ?_) id o free owner
    · rwa [freezeSiteFree] at free
    · rwa [freezeSiteOwner] at before
  | @drop kept hollow s =>
    intro id o free owner
    exact fresh id o (((s.keepsRemoveSite _ _).free id).mp free) (removeSiteOwner _ owner)
  | redirect => exact fresh
  | @take kept hollow s t u v j id _ _ _ _ _ _ _ apart _ vacates _ inner =>
    intro other o free owner
    rw [occupyOwner] at owner
    split at owner
    · cases owner
      rintro rfl
      exact apart inside
    · have free' := (vacates.keeps.free other).mp (((u.keepsOccupy v j id).free other).mp free)
      refine inner (List.mem_cons_of_mem _ inside) (fun id o free before => ?_) other o free'
        (vacates.owner owner)
      rw [reachOwner] at before
      exact fresh id o (((s.keepsReach j).free id).mp free) before
  | fill => exact fresh

theorem keepsOwner (run : Moves old kept h₀ s h₁ s') {id : ResourceId} {o : Owner}
    (inside : o.site ∈ kept) (owner : s.owner? id = some o) : s'.owner? id = some o := by
  have removed : ∀ (t : State) (v : ValueId) (i : SiteId), i ≠ o.site →
      t.owner? id = some o → (t.removeSite v i).owner? id = some o := by
    intro t v i apart before
    obtain ⟨same, -⟩ | ⟨m, -, -, same⟩ := t.removeSiteCases v i
    · rwa [same]
    · rw [same, detachOwner, if_neg ?_]
      · exact before
      · rintro ⟨-, -, -, there⟩
        rw [before] at there
        exact apart (Option.some.inj there).symm
  induction run with
  | refl => exact owner
  | trans _ _ first second => exact second inside (first inside owner)
  | ask => simpa [owner?] using owner
  | create => exact owner
  | frozen _ _ inner =>
    rw [thawSiteOwner]
    exact inner inside (by rwa [freezeSiteOwner])
  | drop _ _ apart => exact removed _ _ _ (fun same => apart (same ▸ inside)) owner
  | redirect => exact owner
  | @take kept hollow s t u v j named _ _ _ _ _ _ _ _ _ vacates _ inner =>
    have before := inner (List.mem_cons_of_mem _ inside) (by rwa [reachOwner])
    rw [occupyOwner]
    by_cases same : id = named
    · subst same
      cases vacates with
      | vacant none => simp [none] at before
      | owned holder apart =>
        cases holder.symm.trans before
        exact absurd (List.mem_append_right _ inside) apart
    · rw [if_neg fun h => same h.1]
      cases vacates with
      | vacant => exact before
      | owned holder apart =>
        refine removed _ _ _ (fun same => apart ?_) before
        exact List.mem_append_right _ (same ▸ inside)
  | fill => exact owner

end Moves

end State

end Lowering
