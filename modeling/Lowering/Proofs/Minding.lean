import Lowering.Compile
import Lowering.Proofs.Sustaining
/-!
Work done while sites are frozen.

Whoever minds a set of sites leaves them listed and chosen, and keeps what is frozen and vacant
vacant. Registers that an operation destroys are emptied in this way.
-/
namespace Lowering

open State Build

variable {s s' t u : State} {old : Nat} {kept kept' : List SiteId} {v w : ValueId} {i j k : SiteId} {id : ResourceId}
  {p p' start : Processor} {ρ : ValueId → Word} {lent : List Register} {queue due : List ReadId} {ahead : ValueId → Prop}

structure State.Minds (kept : List SiteId) (s s' : State) : Prop extends Extends s s' where
  count : s'.values.size = s.values.size
  outline : ∀ v, (s'.value v).outline = (s.value v).outline
  freezes : ∀ id, (s.resources.get id).freezes ≤ (s'.resources.get id).freezes
  listed : ∀ k ∈ kept, ∀ v, k ∈ (s.value v).sites → k ∈ (s'.value v).sites
  source : ∀ k ∈ kept, ∀ v, (s.value v).source = some k → (s'.value v).source = some k
  vacant : ∀ id, 0 < (s.resources.get id).freezes → s.owner? id = none → s'.owner? id = none

def State.Frozen (s : State) (kept : List SiteId) : Prop := ∀ k ∈ kept, s.IsSite k ∧ s.Pinned k

structure State.Draws (s : State) (v : ValueId) (k : SiteId) : Prop where
  source : (s.value v).source = some k
  listed : ∃ m ∈ s.ring v, k ∈ (s.value m).sites

theorem State.Draws.isValue (draws : s.Draws v k) : s.IsValue v := by
  by_contra outside
  have chosen := draws.source
  rw [s.valueOutside outside] at chosen
  cases chosen

theorem State.frozenNil (s : State) : s.Frozen [] := fun _ inside => absurd inside List.not_mem_nil

namespace State.Minds

theorem refl (kept : List SiteId) (s : State) : Minds kept s s :=
  ⟨.refl s, rfl, fun _ => rfl, fun _ => le_rfl, fun _ _ _ listed => listed, fun _ _ _ chosen => chosen, fun _ _ none => none⟩

theorem trans (first : Minds kept s t) (second : Minds kept t s') : Minds kept s s' where
  toExtends := first.toExtends.trans second.toExtends
  count := second.count.trans first.count
  outline v := (second.outline v).trans (first.outline v)
  freezes id := (first.freezes id).trans (second.freezes id)
  listed k inside v listed := second.listed k inside v (first.listed k inside v listed)
  source k inside v chosen := second.source k inside v (first.source k inside v chosen)
  vacant id frozen none := second.vacant id (frozen.trans_le (first.freezes id)) (first.vacant id frozen none)

theorem fewer (h : Minds kept' s s') (sub : ∀ k ∈ kept, k ∈ kept') : Minds kept s s' :=
  ⟨h.toExtends, h.count, h.outline, h.freezes, fun k inside => h.listed k (sub k inside),
    fun k inside => h.source k (sub k inside), h.vacant⟩

theorem ring (h : Minds kept s s') (v : ValueId) : s'.ring v = s.ring v :=
  ringCongr h.count (fun u => show (s'.value u).outline.next = _ by rw [h.outline]; rfl) v

theorem frozen (h : Minds kept s s') (frozen : s.Frozen kept) : s'.Frozen kept := by
  intro k inside
  obtain ⟨known, pinned⟩ := frozen k inside
  refine ⟨h.isSite known, fun id names has free => ?_⟩
  rw [h.resource known] at names
  exact (pinned id names ((h.has id).mp has) ((h.free id).mp free)).trans_le (h.freezes id)

theorem draws (h : Minds kept s s') (inside : k ∈ kept) (draws : s.Draws v k) : s'.Draws v k := by
  obtain ⟨m, member, listed⟩ := draws.listed
  exact ⟨h.source k inside v draws.source, m, by rwa [h.ring], h.listed k inside m listed⟩

end State.Minds

theorem State.Extends.bound (h : Extends s s') (known : s.IsSite i) : s'.bound i = s.bound i := by
  rw [State.bound, h.resource known, Site.addressedOfPlace (h.place i known), State.bound]

theorem State.Moves.minds (run : Moves old kept [] s [] s') (level : ∀ i, s.Plain (s.site i)) : Minds kept s s' :=
  ⟨run.keeps.extends, run.keeps.size, run.keeps.value, fun id => (run.keeps.resources.freezes id).ge,
    fun _ inside _ listed => run.keepsListed inside listed, fun _ inside _ chosen => run.source inside chosen,
    fun _ frozen none => run.staysVacant level frozen none⟩

theorem mindsFreeze (kept : List SiteId) (s : State) (i : SiteId) : Minds kept s (s.freezeSite i) := by
  refine ⟨s.extendsFreeze i, by rw [freezeSiteRest], fun v => by rw [freezeSiteValue], fun id => ?_,
    fun _ _ v listed => by rwa [freezeSiteValue], fun _ _ v chosen => by rwa [freezeSiteValue],
    fun id _ none => by rwa [freezeSiteOwner]⟩
  rw [freezeSiteFreezes]
  exact Nat.le_add_right _ _

theorem frozenFreeze (frozen : s.Frozen kept) (known : s.IsSite i) : (s.freezeSite i).Frozen (i :: kept) := by
  intro k inside
  rcases List.mem_cons.mp inside with rfl | inside
  · exact ⟨(freezeSiteIsSite s k k).mpr known, s.pinnedFreeze k⟩
  · obtain ⟨there, pinned⟩ := frozen k inside
    exact ⟨(freezeSiteIsSite s i k).mpr there, pinned.freeze i⟩

theorem thawSiteFreezes (s : State) (i : SiteId) (id : ResourceId) :
    (s.resources.get id).freezes ≤ ((s.thawSite i).resources.get id).freezes +
      if s.resource? i = some id ∧ s.resources.Has id ∧ s.Free id then 1 else 0 := by
  rw [thawSiteEq]
  unfold modifyResources
  dsimp only
  cases names : s.resource? i with
  | none => simp [(ResourceTable.steadyUnreferAll _ _).freezes]
  | some named =>
    dsimp only
    rw [(ResourceTable.thawAdjusts _ named).get]
    by_cases same : id = named
    · subst same
      by_cases here : s.resources.Has id ∧ (s.resources.get id).reserved = false
      · rw [if_pos ⟨rfl, here⟩, if_pos ⟨rfl, here⟩]
        show _ ≤ (s.resources.get id).freezes - 1 + 1
        omega
      · rw [if_neg fun h => here h.2]
        exact Nat.le_add_right _ _
    · rw [if_neg fun h => same h.1]
      exact Nat.le_add_right _ _

theorem mindsFrozen (known : s.IsSite i) (inner : Minds kept (s.freezeSite i) u) : Minds kept s (u.thawSite i) := by
  have first := (mindsFreeze kept s i).trans inner
  have resource : u.resource? i = s.resource? i := first.resource known
  refine ⟨first.toExtends.trans (u.extendsThaw i), (u.thawSiteUnmoved i).size.trans first.count,
    fun v => by rw [thawSiteValue]; exact first.outline v, fun id => ?_,
    fun k inside v listed => by rw [thawSiteValue]; exact first.listed k inside v listed,
    fun k inside v chosen => by rw [thawSiteValue]; exact first.source k inside v chosen,
    fun id frozen none => by rw [thawSiteOwner]; exact first.vacant id frozen none⟩
  have before := inner.freezes id
  have after := thawSiteFreezes u i id
  rw [freezeSiteFreezes] at before
  simp only [resource, first.has, first.free] at after
  omega

namespace State.Sustains

theorem level (h : Sustains ρ start p queue due ahead s) : ∀ i, s.Plain (s.site i) := h.faithful.plain

theorem readied (h : Sustains ρ start p queue due ahead s) (frozen : s.Frozen kept) : Ready 0 s kept [] :=
  ⟨h.formed, h.faithful.tracked.named, fun k inside => ⟨(frozen k inside).1, .inl (frozen k inside).2⟩, by simp,
    Nat.zero_le _⟩

theorem drawn (h : Sustains ρ start p queue due ahead s) (draws : s.Draws v k) (alive : s.Live v) :
    s.IsSite k ∧ s.bound k = [] ∧ s.wordAt p k = some (ρ v) := by
  obtain ⟨m, member, listed⟩ := draws.listed
  have known := draws.isValue
  obtain ⟨word, held, same⟩ := h.faithful.words m k listed (by simp)
  refine ⟨h.formed.listed m k listed, (h.faithful.direct m k listed).bound, ?_⟩
  rw [held, same ((liveOfAlias h.formed known member).mpr alive), h.faithful.agree v known m member]

end State.Sustains

theorem evictEmpties {lent : List Register} (tracked : s.Tracked lent []) (ready : Ready 0 s kept [])
    (apart : ∀ k ∈ kept, s.resource? k ≠ some id) (ok : evict id none s = .ok () s') :
    Moves 0 kept [] s [] s' ∧ s'.owner? id = none := by
  by_cases free : s.Free id
  · have away : ∀ o, s.owner? id = some o → o.site ∉ kept := fun o owner inside =>
      apart o.site inside (tracked.recorded id o free owner).2
    cases evictSpec ready ⟨free, away⟩ ok with
    | vacant none => exact ⟨.refl _ _ _, none⟩
    | @owned o t owner run still away spare =>
      have spare := spare.resolve_left (by simp)
      have free' := (run.keeps.free id).mpr free
      exact ⟨run.trans (.drop free' still away (by simp) spare),
        Vacates.none (v := o.value) (.owned still away (.inr spare)) (run.tracked tracked (by simp)) free'⟩
  · have none : s.owner? id = none := tracked.vacant id free
    cases (evictVacant none).symm.trans ok
    exact ⟨.refl _ _ _, none⟩

def State.Emptied (s : State) (rs : List Register) : Prop :=
  ∀ r ∈ rs, s.owner? (.register r) = none ∧
    (s.resources.Has (.register r) → s.Free (.register r) → 0 < (s.resources.get (.register r)).freezes)

theorem State.Emptied.later {rs : List Register} (emptied : s.Emptied rs) (extend : Extends s s')
    (freezes : ∀ id, (s.resources.get id).freezes ≤ (s'.resources.get id).freezes)
    (vacant : ∀ id, 0 < (s.resources.get id).freezes → s.owner? id = none → s'.owner? id = none)
    (tracked : s'.Tracked [] []) : s'.Emptied rs := by
  intro r member
  obtain ⟨none, frozen⟩ := emptied r member
  refine ⟨?_, fun has free => (frozen ((extend.has _).mp has) ((extend.free _).mp free)).trans_le (freezes _)⟩
  by_cases here : s.resources.Has (.register r) ∧ s.Free (.register r)
  · exact vacant _ (frozen here.1 here.2) none
  · cases owner : s'.owner? (.register r) with
    | none => rfl
    | some o =>
      have has := (extend.has _).mp (ResourceTable.hasOfOwner owner)
      have free : ¬ s'.Free (.register r) := fun free => here ⟨has, (extend.free _).mp free⟩
      rw [tracked.vacant _ free] at owner
      cases owner

def Compile.claimRegister (r : Register) : Build SiteId := do
  evict (.register r) none
  hold (← modifyGet (·.newSite (.ofRegister r)))

theorem claimRegisterSustains {r : Register} (h : Sustains ρ start p queue due ahead s) (frozen : s.Frozen kept)
    (apart : ∀ k ∈ kept, s.resource? k ≠ some (.register r)) (ok : Compile.claimRegister r s = .ok i s') :
    ∃ p', Sustains ρ start p' queue due ahead s' ∧ Minds kept s s' ∧ s'.Emptied [r] ∧ s'.IsSite i ∧ s'.bound i = [] := by
  simp only [Compile.claimRegister, bindOk] at ok
  obtain ⟨⟨⟩, t, evicted, j, u, created, held⟩ := ok
  simp only [hold, bindOk, modifyOk, pureOk] at held
  obtain ⟨⟨⟩, _, rfl, rfl, rfl⟩ := held
  obtain ⟨run, vacant⟩ := evictEmpties h.faithful.tracked (h.readied frozen) apart evicted
  have creates : Moves 0 kept [] t [] (t.newSite (.ofRegister r)).2 :=
    .create _ fun m acquired memory => by cases memory
  have run := run.trans creates
  have there : u = (t.newSite (.ofRegister r)).2 ∧ j = (t.newSite (.ofRegister r)).1 := by
    rw [modifyGetOk.mp created]
    exact ⟨rfl, rfl⟩
  obtain ⟨rfl, rfl⟩ := there
  obtain ⟨p', h'⟩ := h.moves run
  have site := siteNewSelf t (.ofRegister r)
  have names : (t.newSite (.ofRegister r)).2.resource? (t.newSite (.ofRegister r)).1 = some (.register r) := by
    rw [State.resource?, site]
    rfl
  have bound : (t.newSite (.ofRegister r)).2.bound (t.newSite (.ofRegister r)).1 = [] := by rw [State.bound, names]
  refine ⟨p', h'.freeze bound, (run.minds h.level).trans (mindsFreeze _ _ _), ?_, ?_, by rw [freezeBound, bound]⟩
  · intro x inside
    obtain rfl := List.mem_singleton.mp inside
    refine ⟨by rw [freezeSiteOwner]; exact vacant, fun has free => ?_⟩
    rw [freezeSiteHas] at has
    rw [freezeSiteFree] at free
    rw [freezeSiteFreezes, if_pos ⟨names, has, free⟩]
    exact Nat.succ_pos _
  · rw [freezeSiteIsSite, IsSite]
    simp [State.newSite]

theorem claimAllSustains (rs : List Register) : ∀ {s : State} {p : Processor} {claimed : List SiteId},
    Sustains ρ start p queue due ahead s → s.Frozen kept → (∀ r ∈ rs, ∀ k ∈ kept, s.resource? k ≠ some (.register r)) →
    rs.mapM Compile.claimRegister s = .ok claimed s' →
    ∃ p', Sustains ρ start p' queue due ahead s' ∧ Minds kept s s' ∧ s'.Emptied rs ∧
      ∀ i ∈ claimed, s'.IsSite i ∧ s'.bound i = [] := by
  induction rs with
  | nil =>
    intro s p claimed h _ _ ok
    obtain ⟨rfl, rfl⟩ := pureOk.mp ok
    exact ⟨p, h, .refl _ _, by simp [Emptied], by simp⟩
  | cons r rest ih =>
    intro s p claimed h frozen apart ok
    rw [List.mapM_cons] at ok
    simp only [bindOk, pureOk] at ok
    obtain ⟨i, t, first, claimed, u, later, rfl, rfl⟩ := ok
    obtain ⟨q, h', minds, emptied, known, bound⟩ := claimRegisterSustains h frozen (apart r List.mem_cons_self) first
    have apart' : ∀ x ∈ rest, ∀ k ∈ kept, t.resource? k ≠ some (.register x) := by
      intro x inside k guarded
      rw [minds.resource (frozen k guarded).1]
      exact apart x (List.mem_cons_of_mem _ inside) k guarded
    obtain ⟨p', upheld, onward, more, sites⟩ := ih h' (minds.frozen frozen) apart' later
    have emptied := emptied.later onward.toExtends onward.freezes onward.vacant upheld.faithful.tracked
    refine ⟨p', upheld, minds.trans onward, fun x inside => ?_, fun j inside => ?_⟩
    · rcases List.mem_cons.mp inside with rfl | inside
      · exact emptied x List.mem_cons_self
      · exact more x inside
    · rcases List.mem_cons.mp inside with rfl | inside
      · exact ⟨onward.isSite known, by rw [onward.toExtends.bound known, bound]⟩
      · exact sites j inside

theorem claimRegistersSustains {mask : RegisterSet} {claimed : List SiteId} (h : Sustains ρ start p queue due ahead s)
    (frozen : s.Frozen kept) (apart : ∀ r, RegisterSet.has mask r = true → ∀ k ∈ kept, s.resource? k ≠ some (.register r))
    (ok : Compile.claimRegisters mask s = .ok claimed s') :
    ∃ p', Sustains ρ start p' queue due ahead s' ∧ Minds kept s s' ∧
      s'.Emptied ((List.range s.machine.registerCount).filter (RegisterSet.has mask)) ∧
      ∀ i ∈ claimed, s'.IsSite i ∧ s'.bound i = [] :=
  claimAllSustains _ h frozen (fun r member => apart r (List.mem_filter.mp member).2) ok

end Lowering
