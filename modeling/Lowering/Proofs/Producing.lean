import Lowering.Proofs.Borrowing
import Lowering.Proofs.Minding
/-!
A place for a result.

The result of an operation goes to the register of an operand that is read no more, or that was
moved away, or to a register nobody has. Whoever is still to be read keeps a site.
-/
namespace Lowering

open State Build

variable {s s' t u : State} {old : Nat} {kept kept' : List SiteId} {v w : ValueId} {i j k : SiteId} {id : ResourceId}
  {p p' start : Processor} {ρ : ValueId → Word} {lent : List Register} {queue due : List ReadId} {ahead : ValueId → Prop}

/-! The read after the current one. -/

def State.Ends (s : State) (queue : List ReadId) (v : ValueId) : Prop :=
  (s.readsOf queue v).length ≤ 1 ∧ ∀ m ∈ (s.ring v).tail, s.readsOf queue m = []

theorem firstPendingQueued {vs : List ValueId} {next : Option ReadId} {reads : ReadTable} (formed : s.WellFormed)
    (queued : s.Queued queue) (evolves : s.reads.Evolves reads)
    (answer : State.firstPending { s with reads } vs = (next, s')) :
    (∃ reads, s.reads.Evolves reads ∧ s' = { s with reads }) ∧
      (∀ r, next = some r → s.reads.IsRead r ∧ ∃ m ∈ vs, s.reads.value r = m) ∧
      (next = none → ∀ m ∈ vs, s.readsOf queue m = []) := by
  have heads : ∀ m ∈ vs, ∀ r, (s.value m).reads = some r → reads.IsRead r := fun m _ r head =>
    evolves.isRead (formed.heads m r head).1
  obtain ⟨reads', state, evolves', found, none⟩ :=
    firstPendingSpec vs { s with reads } (evolves.wellFormed formed.reads) heads
  rw [answer] at state found none
  refine ⟨⟨reads', evolves.trans evolves', state⟩, fun r same => ?_, fun same m member => ?_⟩
  · obtain ⟨-, m, member, head⟩ := found r same
    exact ⟨(formed.heads m r head).1, m, member, (formed.heads m r head).2⟩
  · have chained := queued m
    cases reads : s.readsOf queue m with
    | nil => rfl
    | cons x rest =>
      have own : x ∈ s.readsOf queue m := reads ▸ List.mem_cons_self
      rw [reads] at chained
      exact absurd (evolves.pendingOf (queued.pending (memReadsOf.mp own).1)) (none same m member x chained.1)

theorem followingReadQueued {next : Option ReadId} (formed : s.WellFormed) (queued : s.Queued queue)
    (ok : followingRead? v s = .ok next s') : (∃ reads, s.reads.Evolves reads ∧ s' = { s with reads }) ∧
      (∀ r, next = some r → s.reads.IsRead r ∧ s.reads.value r ∈ s.ring v) ∧ (next = none → s.Ends queue v) := by
  have tail : ∀ m ∈ (s.ring v).tail, m ∈ s.ring v := fun m => List.mem_of_mem_tail
  have chained := queued v
  unfold followingRead? at ok
  rw [getBind] at ok
  cases head : (s.value v).reads with
  | none =>
    simp only [head, modifyGetOk] at ok
    obtain ⟨state, found, none⟩ := firstPendingQueued formed queued (.refl _) ok
    refine ⟨state, fun r same => ?_, fun same => ⟨?_, none same⟩⟩
    · obtain ⟨isRead, m, member, rfl⟩ := found r same
      exact ⟨isRead, tail _ member⟩
    · rw [chained.eqNone.mp head]
      exact Nat.zero_le _
  | some current =>
    simp only [head] at ok
    cases reads : s.readsOf queue v with
    | nil => simp [chained.eqNone.mpr reads] at head
    | cons x rest =>
      rw [reads] at chained
      obtain ⟨front, mask, successor, following, kind, later⟩ := chained
      obtain rfl : current = x := Option.some.inj (head.symm.trans front)
      have follows : s.reads.next current = .ok following := by simp [ReadTable.next, kind]
      simp only [follows, modifyGetBind] at ok
      obtain ⟨asked, state, evolves⟩ := isPendingState formed.reads following
      have pending := isPendingIff formed.reads following
      split at ok
      · rename_i yes
        obtain ⟨rfl, rfl⟩ := pureOk.mp ok
        obtain ⟨y, rfl, -⟩ := pending.mp yes
        refine ⟨⟨asked, evolves, state⟩, fun r same => ?_, by simp⟩
        cases same
        rw [(formed.reads.chains follows).2, (formed.heads v current head).2]
        exact ⟨(formed.reads.chains follows).1, selfMemRing s v⟩
      · rename_i no
        have ended : rest = [] := by
          refine later.eqNone.mp (Option.eq_none_iff_forall_ne_some.mpr fun y same => no (pending.mpr ⟨y, same, ?_⟩))
          have own : y ∈ s.readsOf queue v := by
            rw [reads]
            exact List.mem_cons_of_mem _ (later.first same)
          exact queued.pending (memReadsOf.mp own).1
        rw [modifyGetOk, state] at ok
        obtain ⟨state', found, none⟩ := firstPendingQueued formed queued evolves ok
        refine ⟨state', fun r same => ?_, fun same => ⟨?_, none same⟩⟩
        · obtain ⟨isRead, m, member, rfl⟩ := found r same
          exact ⟨isRead, tail _ member⟩
        · rw [reads, ended]
          exact le_rfl

theorem State.Ends.unwanted {front : List ReadId} {r : ReadId} (formed : s.WellFormed) (ends : s.Ends (front ++ due) v)
    (first : r ∈ front) (reader : s.reads.value r = v) (known : s.IsValue v) (wanted : s.Wanted due w) :
    w ∉ s.ring v := by
  intro member
  obtain ⟨x, inside, around⟩ := wanted
  have own : x ∈ s.readsOf (front ++ due) (s.reads.value x) := memReadsOf.mpr ⟨List.mem_append_right _ inside, rfl⟩
  by_cases same : s.reads.value x = v
  · have split : s.readsOf (front ++ due) v = s.readsOf front v ++ s.readsOf due v := List.filter_append ..
    have one : 0 < (s.readsOf front v).length := List.length_pos_of_mem (memReadsOf.mpr ⟨first, reader⟩)
    have two : 0 < (s.readsOf due v).length := List.length_pos_of_mem (memReadsOf.mpr ⟨inside, same⟩)
    have short := ends.1
    rw [split, List.length_append] at short
    omega
  · have met := memRingTrans formed.rings known member around
    have tail : s.reads.value x ∈ (s.ring v).tail := (List.mem_cons.mp met).resolve_left same
    rw [ends.2 _ tail] at own
    cases own

/-! Taking the site of an operand. -/

theorem occupySitesSize (s : State) (v : ValueId) (i : SiteId) (id : ResourceId) :
    (s.occupy v i id).sites.size = s.sites.size := by
  simp [occupy, enlist, State.modifyValue, setSite, modifyResources]

theorem State.removeSiteBound (s : State) (v : ValueId) (i : SiteId) : (s.removeSite v i).sites.size = s.sites.size := by
  obtain ⟨same, -⟩ | ⟨m, -, -, same⟩ := s.removeSiteCases v i
  · rw [same]
  · rw [same, detachSites]

theorem State.Sustains.remove {due' : List ReadId} (h : Sustains ρ start p queue due' ahead s) (within : ∀ r ∈ due, r ∈ due')
    (spare : ∀ w, s.IsValue w → s.Wanted due w → ¬ ahead w → (s.removeSite v i).hasSite w = true) :
    Sustains ρ start p queue due ahead (s.removeSite v i) := by
  have keeps := s.keepsRemoveSite v i
  refine ⟨h.faithful.removeSite (by simp) v, h.logged.congr (s.removeSiteRest v i), h.queued.evolves keeps.reads keeps.head,
    fun r member => h.within r (within r member), fun w front => ?_, fun w known wanted behind => ?_⟩
  · obtain ⟨known, alone, bare⟩ := h.fresh w front
    refine ⟨(keeps.isValue w).mpr known, (keeps.next w).trans alone, List.eq_nil_iff_forall_not_mem.mpr fun j inside => ?_⟩
    have before := s.removeSiteListed inside
    rw [bare] at before
    cases before
  · refine spare w ((keeps.isValue w).mp known) ?_ behind
    exact wantedBack h.queued (fun r member => h.within r (within r member)) keeps.reads
      (fun m member => by rwa [keeps.ring] at member) wanted

theorem State.Sustains.vacated (h : Sustains ρ start p queue due ahead s) (alive : s.Live v) (draws : s.Draws v i)
    (names : s.resource? i = some id) : (s.removeSite v i).Unlisted i ∧ (s.removeSite v i).owner? id = none := by
  obtain ⟨m, member, listed⟩ := draws.listed
  have known := draws.isValue
  have tracked := h.faithful.tracked
  have unlisted : (s.removeSite v i).Unlisted i := removeSiteUnlisted tracked.once fun w there => by
    rwa [tracked.once.apart w m i there listed]
  refine ⟨unlisted, ?_⟩
  have alive' := (liveOfAlias h.formed known member).mpr alive
  cases owner : (s.removeSite v i).owner? id with
  | none => rfl
  | some o =>
    have before := s.removeSiteOwner owner
    rw [h.faithful.owner alive' listed names] at before
    cases before
    have has := ResourceTable.hasOfOwner owner
    have freed : (s.removeSite v i).Free id := by
      by_contra reserved
      rw [(tracked.removeSite v i).vacant id reserved] at owner
      cases owner
    have there := ((tracked.removeSite v i).recorded id _ freed owner).1.resolve_right (by simp)
    exact absurd there (unlisted m)

theorem State.Sustains.direct (h : Sustains ρ start p queue due ahead s) (draws : s.Draws v i)
    (names : s.resource? i = some id) : s.resources.Has id ∧ s.Free id := by
  obtain ⟨m, -, listed⟩ := draws.listed
  rcases h.faithful.direct m i listed with ⟨c, x, site, -⟩ | ⟨id, names', has, free⟩
  · simp [State.resource?, site, Site.resource?] at names
  · cases names'.symm.trans names
    exact ⟨has, free⟩

structure State.Spare (s : State) (i : SiteId) (n : Register) : Prop where
  known : s.IsSite i
  unlisted : s.Unlisted i
  names : s.resource? i = some (.register n)
  has : s.resources.Has (.register n)
  free : s.Free (.register n)
  vacant : s.owner? (.register n) = none

namespace State.Spare

theorem still {n : Register} (h : s.Spare i n) (extend : Extends s s') (sites : ∀ v, (s'.value v).sites = (s.value v).sites)
    (owner : ∀ id, s'.owner? id = s.owner? id) : s'.Spare i n :=
  ⟨extend.isSite h.known, fun v => by rw [sites]; exact h.unlisted v, by rw [extend.resource h.known, h.names],
    (extend.has _).mpr h.has, (extend.free _).mpr h.free, by rw [owner, h.vacant]⟩

theorem recede {n : Register} (h : s.Spare i n) (recedes : Recedes s s') : s'.Spare i n := by
  refine ⟨recedes.isSite h.known, recedes.unlisted h.unlisted, ?_, (recedes.shape.has _).mpr h.has, ?_,
    recedes.vacant _ h.vacant⟩
  · rw [State.resource?, recedes.geometry, Site.resourceOfPlace (recedes.place i h.known)]
    exact h.names
  · rw [Free, recedes.resources.reserved]
    exact h.free

end State.Spare

/-- A register for a result: it is nobody's, and the operands are where they were or can still be read there. -/
structure State.Furnishes (ρ : ValueId → Word) (start : Processor) (queue due : List ReadId) (ahead : ValueId → Prop)
    (mask : SiteMask) (kept : List SiteId) (s : State) (j : SiteId) (p : Processor) (s' : State) : Prop extends
    Extends s s' where
  upholds : Sustains ρ start p queue due ahead s'
  count : s'.values.size = s.values.size
  operands : ∀ k ∈ kept, ∀ v, s.Draws v k → s.Live v → (s'.value v).source = some k ∧ s'.wordAt p k = some (ρ v)
  freezes : ∀ id, (s.resources.get id).freezes ≤ (s'.resources.get id).freezes
  vacant : ∀ id, 0 < (s.resources.get id).freezes → s.owner? id = none → s'.owner? id = none
  spare : ∃ n, s'.Spare j n ∧ RegisterSet.has mask.registers n = true

section

variable {mask : SiteMask} {set : RegisterSet} {n : Register}

theorem takeFurnishes {due' : List ReadId} (formed : s.WellFormed) (minds : Minds kept s t)
    (h : Sustains ρ start p queue due' ahead t) (draws : t.Draws v i) (alive : t.Live v) (known : s.IsSite i)
    (names : t.resource? i = some (.register n)) (member : RegisterSet.has mask.registers n = true)
    (within : ∀ r ∈ due, r ∈ due')
    (spare : ∀ w, t.IsValue w → t.Wanted due w → ¬ ahead w → (t.removeSite v i).hasSite w = true) :
    Furnishes ρ start queue due ahead mask kept s i p ((t.removeSite v i).freezeSite i) := by
  have keeps := t.keepsRemoveSite v i
  have onward := keeps.extends.trans ((t.removeSite v i).extendsFreeze i)
  have known' := minds.isSite known
  obtain ⟨m, inRing, listed⟩ := draws.listed
  have bound : (t.removeSite v i).bound i = [] := by
    rw [keeps.bound known', State.bound, names]
  obtain ⟨unlisted, vacant⟩ := h.vacated alive draws names
  have direct := h.direct draws names
  refine ⟨minds.toExtends.trans onward, (h.remove within spare).freeze bound, ?_, fun k inside w drawn alive' => ?_,
    fun id => ?_, fun id frozen none => ?_, n, ⟨?_, fun w there => ?_, ?_, ?_, ?_, ?_⟩, member⟩
  · rw [freezeSiteRest]
    exact keeps.size.trans minds.count
  · have drawn' := minds.draws inside drawn
    have alive'' := (minds.live formed h.formed drawn.isValue).mpr alive'
    obtain ⟨there, -, word⟩ := h.drawn drawn' alive''
    refine ⟨?_, by rw [onward.wordAt there, word]⟩
    rw [freezeSiteValue, removeSiteSource]
    exact drawn'.source
  · refine (minds.freezes id).trans ?_
    rw [freezeSiteFreezes, keeps.resources.freezes]
    exact Nat.le_add_right _ _
  · rw [freezeSiteOwner]
    have before := minds.vacant id frozen none
    cases owner : (t.removeSite v i).owner? id with
    | none => rfl
    | some o => exact absurd (t.removeSiteOwner owner) (by simp [before])
  · rw [freezeSiteIsSite]
    exact keeps.isSite known'
  · rw [freezeSiteValue] at there
    exact unlisted w there
  · rw [onward.resource known', names]
  · exact (onward.has _).mpr direct.1
  · exact (onward.free _).mpr direct.2
  · rw [freezeSiteOwner, vacant]

/-! Taking a register that nobody has. -/

theorem placeVacates (tracked : s.Tracked [] []) (ready : Ready 0 s kept []) (bare : s.Fresh v)
    (fit : Fit 0 s kept (.register n) j) (site : s.site j = .ofRegister n)
    (available : (s.resources.get (.register n)).isUnavailable = false) (ok : place v j s = .ok () s') :
    ∃ u, Moves 0 (j :: kept) [] s [] u ∧ u.owner? (.register n) = none ∧ s' = u.occupy v j (.register n) := by
  have evictable := ready.evictable available
  have reach : s.reach j = s := reachBare (by rw [site]; rfl)
  have ready' := ready.reach fit.known fit.unowned
  have apart : ∀ id o, s.resource? j = some id → s.Free id → s.owner? id = some o → o.site ∉ j :: kept := by
    intro id o same free owner inside
    cases same.symm.trans fit.names
    rcases List.mem_cons.mp inside with same | inside
    · exact fit.unowned _ o free owner same
    · exact evictable.apart o owner inside
  unfold place placeWith at ok
  have absent : (s.value v).sites.contains j = false := by simp [bare.bare]
  simp only [getBind, absent, Bool.false_eq_true, if_false, bindOk, modifyOk] at ok
  obtain ⟨⟨⟩, w, acquired, rfl⟩ := ok
  cases acquireSpec evictSpec ready' apart acquired with
  | bare none => simp [fit.names] at none
  | settled site => simpa [resource?, site, Site.resource?] using fit.names
  | @named id w names seizes =>
    cases names.symm.trans fit.names
    rw [reach] at seizes
    cases seizes with
    | reserved held => exact absurd evictable.free held
    | @taken t u free run vacates =>
      have free' := (run.keeps.free _).mpr free
      have homeless := run.fresh bare
      have keeps := run.keeps.trans vacates.keeps
      refine ⟨u, run.trans ?_, vacates.none (run.tracked tracked (by simp)) free', ?_⟩
      · cases vacates with
        | vacant => exact .refl _ _ _
        | @owned o owner away spare =>
          refine .drop free' owner away (by simp) (spare.resolve_left fun member => ?_)
          -- the owner has a site
          rw [ringAlone homeless.alone, List.mem_singleton] at member
          have listed := (run.tracked tracked (by simp)).recorded _ o free' owner
          have inside := listed.1.resolve_right (by simp)
          rw [member, homeless.bare] at inside
          cases inside
      · rw [Site.takenOfPlace (keeps.place j fit.known).symm]
        rfl

theorem mindsOccupy (vacant : (s.resources.get id).freezes = 0) : Minds kept s (s.occupy v j id) := by
  have keeps := s.keepsOccupy v j id
  refine ⟨keeps.extends, keeps.size, keeps.value, fun id => (keeps.resources.freezes id).ge,
    fun k _ w listed => ?_, fun k _ w chosen => ?_, fun other frozen none => ?_⟩
  · rw [occupyValue]
    split
    · rename_i here
      exact List.mem_cons_of_mem _ (here.1 ▸ listed)
    · exact listed
  · rw [occupyValue]
    split
    · rename_i here
      exact here.1 ▸ chosen
    · exact chosen
  · rw [occupyOwner, if_neg, none]
    rintro ⟨rfl, -⟩
    omega

theorem mindsRemove (apart : j ∉ kept) : Minds kept s (s.removeSite v j) := by
  have keeps := s.keepsRemoveSite v j
  refine ⟨keeps.extends, keeps.size, keeps.value, fun id => (keeps.resources.freezes id).ge,
    fun k inside w listed => s.removeSiteKeepsListed listed fun same => apart (same ▸ inside),
    fun k _ w chosen => by rwa [removeSiteSource], fun id _ none => ?_⟩
  cases owner : (s.removeSite v j).owner? id with
  | none => rfl
  | some o => exact absurd (s.removeSiteOwner owner) (by simp [none])

theorem removeOccupied (bare : (u.value v).sites = []) (value : u.IsValue v) (fresh : u.Unlisted j)
    (sites : ∀ w, (s.value w).sites = ((u.occupy v j id).value w).sites) (w : ValueId) :
    ((s.removeSite v j).value w).sites = (u.value w).sites := by
  have listed : ∀ m, j ∈ (s.value m).sites → m = v := fun m inside => by
    rw [sites] at inside
    exact ((u.occupyListed value).mp inside).elim (·.1) fun before => absurd before (fresh m)
  have own : j ∈ (s.value v).sites := by
    rw [sites]
    exact (u.occupyListed value).mpr (.inl ⟨rfl, rfl⟩)
  obtain ⟨-, none⟩ | ⟨m, -, there, same⟩ := s.removeSiteCases v j
  · exact absurd own (none v (selfMemRing s v))
  · obtain rfl := listed m there
    by_cases here : w = m
    · subst here
      rw [bare]
      refine List.eq_nil_iff_forall_not_mem.mpr fun k inside => ?_
      rw [same] at inside
      obtain ⟨before, apart⟩ := (s.detachListed ⟨w, j⟩).mp inside
      rw [sites] at before
      rcases (u.occupyListed value).mp before with ⟨-, rfl⟩ | before
      · exact apart rfl rfl
      · rw [bare] at before
        cases before
    · rw [same, State.detach, valueModify, if_neg fun both => here both.1, releaseValue, sites, occupyValue,
        if_neg fun both => here both.1]

def SiteMask.OnRegisters (mask : SiteMask) : Prop :=
  ∀ g x, Site.satisfies g x mask = true → ∃ m n, x = .register m (some n) ∧ RegisterSet.has mask.registers n = true

def findPlace (result : ValueId) (mask : SiteMask) : Build SiteId := do
  let r ← probe result mask
  let i ← chooseSite r true 0 none
  place result i
  return i

theorem findPlaceVacates (h : Sustains ρ start p queue due ahead s) (frozen : s.Frozen kept) (front : ahead v)
    (only : mask.OnRegisters) (ok : findPlace v mask s = .ok j s') :
    ∃ n u p', Sustains ρ start p' queue due ahead u ∧ Minds kept s u ∧ s' = u.occupy v j (.register n) ∧ j ∉ kept ∧
      u.IsSite j ∧ u.Unlisted j ∧ u.site j = .ofRegister n ∧ u.Free (.register n) ∧
      (u.resources.get (.register n)).freezes = 0 ∧ u.resources.Has (.register n) ∧
      u.owner? (.register n) = none ∧ RegisterSet.has mask.registers n = true := by
  simp only [findPlace, bindOk, pureOk] at ok
  obtain ⟨r, t, probed, i, t', chosen, ⟨⟩, _, placed, rfl, rfl⟩ := ok
  rw [probe, modifyGetOk] at probed
  obtain ⟨rfl, rfl⟩ := Prod.mk.inj probed
  have asks : Moves 0 kept [] s [] { s with reads := (s.reads.single v mask (some v)).2 } :=
    .ask _ s.statistics s.resources.available (ReadTable.evolvesPush _ _ _ _)
  have kind := congrArg Read.kind (s.reads.pushedKind v mask (some v))
  obtain ⟨p₁, h₁⟩ := h.moves asks
  have frozen₁ := (asks.minds h.level).frozen frozen
  obtain ⟨target, picked, run, -, resources, site, new, fit⟩ := chooseSiteMoves (h₁.readied frozen₁) chosen
  obtain ⟨p₂, h₂⟩ := h₁.moves (run kept [])
  have minds := (asks.minds h.level).trans ((run kept []).minds h₁.level)
  obtain ⟨available, -, numbered⟩ := picked.obtainable picked.possible
  obtain ⟨m, n, register, member⟩ := only _ _ (picked.meets rfl _ _ _ kind)
  obtain ⟨n', same⟩ : ∃ n', target.resource = .register n' := by
    cases named : target.resource with
    | register n' => exact ⟨n', rfl⟩
    | slot k => simp [Target.toSite, named, Site.frame, Site.ofMemory] at register
  have place : target.toSite s.geometry = .ofRegister n' := by rw [Target.toSite, same]
  obtain ⟨-, rfl⟩ : m = RegisterSet.single n' ∧ n' = n := by
    rw [show ({ s with reads := (s.reads.single v mask (some v)).2 } : State).geometry = s.geometry from rfl, place]
      at register
    simpa [Site.ofRegister, eq_comm] using register
  rw [same] at fit available
  rw [show ({ s with reads := (s.reads.single v mask (some v)).2 } : State).geometry = s.geometry from rfl, place] at site
  have available' : (t'.resources.get (.register n')).isUnavailable = false := by rw [resources]; exact available
  obtain ⟨u, moves, vacant, rfl⟩ := placeVacates h₂.faithful.tracked (h₂.readied (minds.frozen frozen)) (h₂.fresh v front)
    fit site available' placed
  obtain ⟨p₃, h₃⟩ := h₂.moves moves
  have onward := moves.minds h₂.level
  have place' : u.site i = .ofRegister n' := by
    have := onward.place i fit.known
    rw [site] at this
    cases here : u.site i <;> simp_all [Site.place, Site.ofRegister]
  obtain ⟨free, still⟩ : t'.Free (.register n') ∧ (t'.resources.get (.register n')).freezes = 0 := by
    simp only [Resource.isUnavailable, Bool.or_eq_false_iff, decide_eq_false_iff_not, Nat.not_lt, Nat.le_zero]
      at available'
    exact ⟨by simp [Free, available'.1.1], available'.1.2⟩
  refine ⟨n', u, p₃, h₃, minds.trans (onward.fewer fun k inside => List.mem_cons_of_mem _ inside), rfl, fit.apart,
    onward.isSite fit.known, moves.unlisted List.mem_cons_self fit.unlisted, place', (onward.free _).mpr free, ?_, ?_,
    vacant, member⟩
  · rw [moves.keeps.resources.freezes, still]
  · rw [onward.has, resources]
    have inside := (numbered n' same).2
    rw [← h₁.faithful.numbered] at inside
    exact inside

theorem registerOfResource {g : FrameGeometry} {x : Site} (names : x.resource? g = some (.register n)) :
    ∃ m, x = .register m (some n) := by
  cases x with
  | register m number =>
    cases number with
    | none => cases names
    | some r =>
      cases names
      exact ⟨m, rfl⟩
  | memory m acquired =>
    simp only [Site.resource?] at names
    split at names <;> cases names
  | _ => cases names

theorem State.Tracked.occupy (h : u.Tracked [] []) (value : u.IsValue v) (known : u.IsSite i) (fresh : u.Unlisted i)
    (names : u.resource? i = some (.register n)) (free : u.Free (.register n)) (vacant : u.owner? (.register n) = none) :
    (u.occupy v i (.register n)).Tracked [] [] := by
  obtain ⟨m, site⟩ := registerOfResource names
  rw [occupySettleAt _ names free, site]
  refine Tracked.settleAt h value known fresh (by simp) rfl fun id w j stands _ _ => ?_
  cases stands
  rw [vacant]
  simp

theorem State.Sustains.takeBack (h : Sustains ρ start p queue due ahead u) (front : ahead v) (there : u.IsSite j)
    (fresh : u.Unlisted j) (site : u.site j = .ofRegister n) (free : u.Free (.register n)) (has : u.resources.Has (.register n))
    (extend : Extends u t)
    (value : ∀ w, t.value w = (u.occupy v j (.register n)).value w) (size : t.values.size = u.values.size)
    (bound : t.sites.size = u.sites.size) (owner : ∀ id, t.owner? id = (u.occupy v j (.register n)).owner? id)
    (emitter : t.emitter = u.emitter) (tracked : t.Tracked [] []) :
    Sustains ρ start p queue due ahead ((t.removeSite v j).freezeSite j) ∧ (t.removeSite v j).Unlisted j ∧
      (t.removeSite v j).owner? (.register n) = none := by
  have bare := h.fresh v front
  have keeps := t.keepsRemoveSite v j
  have sites := removeOccupied bare.bare bare.known fresh fun w => by rw [value]
  have onward := extend.trans keeps.extends
  have unlisted : (t.removeSite v j).Unlisted j := fun w inside => by
    rw [sites] at inside
    exact fresh w inside
  have names : (t.removeSite v j).resource? j = some (.register n) := by
    rw [onward.resource there, State.resource?, site]
    rfl
  have stays : Sustains ρ start p queue due ahead (t.removeSite v j) := by
    refine h.still onward (fun w => ?_) sites (keeps.size.trans size) ((t.removeSiteBound v j).trans bound) ?_
      (tracked.removeSite v j)
    · rw [keeps.value, value]
      exact (u.keepsOccupy v j (.register n)).value w
    · rw [removeSiteRest, emitter]
  refine ⟨stays.freeze (by rw [State.bound, names]), unlisted, ?_⟩
  cases owned : (t.removeSite v j).owner? (.register n) with
  | none => rfl
  | some o =>
    have before := t.removeSiteOwner owned
    rw [owner, occupyOwner, if_pos ⟨rfl, has⟩] at before
    cases before
    have listed := ((tracked.removeSite v j).recorded _ _ ((onward.free _).mpr free) owned).1.resolve_right (by simp)
    exact absurd listed (unlisted v)

theorem placeFurnishes (h : Sustains ρ start p queue due ahead s) (frozen : s.Frozen kept) (known : s.IsSite i)
    (bound : s.bound i = []) (front : ahead v) (only : mask.OnRegisters)
    (ok : whileFrozen i (findPlace v mask) s = .ok j t) :
    ∃ p, Furnishes ρ start queue due ahead mask (i :: kept) s j p ((t.removeSite v j).freezeSite j) := by
  simp only [whileFrozen, bindOk, modifyOk, ensuringOk] at ok
  obtain ⟨⟨⟩, sf, rfl, uo, found, rfl⟩ := ok
  obtain ⟨n, u, p, upheld, minds, rfl, apart, there, fresh, site, free, still, has, vacant, member⟩ :=
    findPlaceVacates (h.freeze bound) (frozenFreeze frozen known) front only found
  have bare := upheld.fresh v front
  have occupies : Minds (i :: kept) u (u.occupy v j (.register n)) := mindsOccupy still
  have first := (mindsFreeze (i :: kept) s i).trans minds
  have held := mindsFrozen known (minds.trans occupies)
  have thaws := extendsThaw (u.occupy v j (.register n)) i
  have tracked : ((u.occupy v j (.register n)).thawSite i).Tracked [] [] := by
    refine Tracked.thaw ?_
    rw [occupies.toExtends.bound (first.isSite known), first.toExtends.bound known, bound]
    exact upheld.faithful.tracked.occupy bare.known there fresh (by rw [State.resource?, site]; rfl) free vacant
  have size := ((u.occupy v j (.register n)).thawSiteUnmoved i).size.trans occupies.count
  have sites : ((u.occupy v j (.register n)).thawSite i).sites.size = u.sites.size := by
    rw [thawSiteEq]
    exact occupySitesSize ..
  obtain ⟨stays, unlisted, free'⟩ := upheld.takeBack front there fresh site free has
    (occupies.toExtends.trans thaws) (fun w => thawSiteValue ..) size sites (fun id => thawSiteOwner ..)
    ((u.occupy v j (.register n)).thawSiteEmitter i) tracked
  generalize (u.occupy v j (.register n)).thawSite i = t at *
  have all := (held.trans (mindsRemove (v := v) apart)).trans (mindsFreeze _ _ j)
  have onward := ((occupies.toExtends.trans thaws).trans (mindsRemove (v := v) apart).toExtends).trans
    (extendsFreeze (t.removeSite v j) j)
  refine ⟨p, all.toExtends, stays, all.count, fun k inside w drawn alive => ?_, all.freezes, all.vacant, n,
    ⟨onward.isSite there, fun w inside => ?_, ?_, (onward.has _).mpr has, (onward.free _).mpr free, ?_⟩, member⟩
  · have drawn' := first.draws inside drawn
    obtain ⟨there', -, word⟩ := upheld.drawn drawn' ((first.live h.formed upheld.formed drawn.isValue).mpr alive)
    exact ⟨all.source k inside w drawn.source, by rw [onward.wordAt there', word]⟩
  · rw [freezeSiteValue] at inside
    exact unlisted w inside
  · rw [onward.resource there, State.resource?, site]
    rfl
  · rw [freezeSiteOwner, free']

theorem State.Sustains.fewer {due' : List ReadId} (h : Sustains ρ start p queue due' ahead s)
    (within : ∀ r ∈ due, r ∈ due') : Sustains ρ start p queue due ahead s :=
  ⟨h.faithful, h.logged, h.queued, fun r member => h.within r (within r member), h.fresh,
    fun w known ⟨r, member, met⟩ => h.housed w known ⟨r, within r member, met⟩⟩

theorem State.Furnishes.before (h : Furnishes ρ start queue due ahead mask kept t j p s') (minds : Minds kept s t)
    (formed : s.WellFormed) (formed' : t.WellFormed) : Furnishes ρ start queue due ahead mask kept s j p s' :=
  ⟨minds.toExtends.trans h.toExtends, h.upholds, h.count.trans minds.count,
    fun k inside w drawn alive => h.operands k inside w (minds.draws inside drawn)
      ((minds.live formed formed' drawn.isValue).mpr alive),
    fun id => (minds.freezes id).trans (h.freezes id),
    fun id frozen none => h.vacant id (frozen.trans_le (minds.freezes id)) (minds.vacant id frozen none),
    h.spare⟩

theorem relocateLeaves {next : ReadId} (h : Sustains ρ start p queue due ahead s) (frozen : s.Frozen kept)
    (known : s.IsSite i) (names : s.resource? i = some id) (has : s.resources.Has id) (free : s.Free id)
    (bound : s.bound i = []) (value : s.IsValue v) (reader : s.reads.value next ∈ s.ring v)
    (ok : whileFrozen i (relocate next false 0) s = .ok j t) :
    (∃ p, Sustains ρ start p queue due ahead t) ∧ Minds (i :: kept) s t ∧ t.isLastSite v i = false := by
  simp only [whileFrozen, bindOk, modifyOk, ensuringOk] at ok
  obtain ⟨⟨⟩, sf, rfl, u, moved, rfl⟩ := ok
  have frozen' := frozenFreeze frozen known
  have h' := h.freeze bound
  have ring : ∀ w, (s.freezeSite i).ring w = s.ring w := (mindsFreeze [] s i).ring
  have reads : (s.freezeSite i).reads = s.reads := by rw [freezeSiteRest]
  have there : s.IsValue (s.reads.value next) := isValueOfRing h.formed.rings value reader
  have relocated := relocateSpec evictSpec (h'.readied frozen')
    (by rw [reads]; exact (mindsFreeze [] s i).isValue there) (by simp) moved
  obtain ⟨q, after⟩ := h'.moves relocated.moves
  have run := relocated.moves.minds h'.level
  have held := mindsFrozen known run
  have apart : j ≠ i := by
    rintro rfl
    obtain ⟨other, names', available⟩ := relocated.obtained
    rw [run.resource (frozen' _ List.mem_cons_self).1, freezeSiteResource] at names'
    cases names.symm.trans names'
    have pinned := (frozen' _ List.mem_cons_self).2 id (by rwa [freezeSiteResource])
      (by rwa [freezeSiteHas]) (by rwa [freezeSiteFree])
    simp only [Resource.isUnavailable, Bool.or_eq_false_iff, decide_eq_false_iff_not] at available
    omega
  obtain ⟨m, member, listed⟩ := relocated.held
  rw [reads, ring] at member
  refine ⟨⟨q, after.thaw ?_⟩, held, notLastSite ?_ (m := m) (j := j) ?_ apart⟩
  · rw [run.toExtends.bound (frozen' _ List.mem_cons_self).1, freezeBound, bound]
  · rw [held.ring]
    exact memRingTrans h.formed.rings value reader member
  · rw [thawSiteValue]
    exact listed

theorem resultSiteFurnishes {front : List ReadId} {r : ReadId}
    (h : Sustains ρ start p (front ++ due) (front ++ due) ahead s) (frozen : s.Frozen kept) (member : r ∈ front)
    (reader : s.reads.value r = v) (draws : s.Draws v i) (result : ahead w) (only : mask.OnRegisters)
    (ok : resultSite v w mask s = .ok j s') :
    ∃ p, Furnishes ρ start (front ++ due) due ahead mask (i :: kept) s j p s' := by
  have within : ∀ x ∈ due, x ∈ front ++ due := fun x => List.mem_append_right _
  have value := draws.isValue
  have alive : s.Live v := h.live ⟨r, List.mem_append_left _ member, reader ▸ selfMemRing s _⟩
  obtain ⟨known, bound, -⟩ := h.drawn draws alive
  unfold resultSite at ok
  simp only [bindOk] at ok
  obtain ⟨next, s₁, followed, ok⟩ := ok
  obtain ⟨⟨reads, evolves, rfl⟩, aliased, ends⟩ := followingReadQueued h.formed h.queued followed
  have asks : Moves 0 (i :: kept) [] s [] { s with reads } := .ask _ s.statistics s.resources.available evolves
  obtain ⟨q, h₁⟩ := h.moves asks
  have minds₁ := asks.minds h.level
  have frozen₁ := (minds₁.fewer fun k inside => List.mem_cons_of_mem _ inside).frozen frozen
  have keeps₁ := asks.keeps
  have draws₁ : State.Draws { s with reads } v i := minds₁.draws List.mem_cons_self draws
  have formed₁ := h₁.formed
  have alive₁ : State.Live { s with reads } v := (minds₁.live h.formed formed₁ value).mpr alive
  have value₁ := draws₁.isValue
  obtain ⟨known₁, bound₁, -⟩ := h₁.drawn draws₁ alive₁
  have again : ∀ x, next = some x → ({ s with reads } : State).reads.value x ∈ State.ring { s with reads } v := by
    intro x same
    obtain ⟨isRead, met⟩ := aliased x same
    rwa [evolves.value x isRead, minds₁.ring]
  have unwanted : next = none → ∀ m, State.Wanted { s with reads } due m → m ∉ State.ring { s with reads } v := by
    intro none m wanted
    rw [minds₁.ring]
    exact (ends none).unwanted h.formed member reader value
      (State.Sustains.wantedBack h.queued within evolves (fun x met => by rwa [minds₁.ring] at met) wanted)
  generalize ({ s with reads } : State) = s₁ at *
  obtain ⟨i', s₂, chosen, ok⟩ := ok
  obtain ⟨source, rfl⟩ := sourceOfOk.mp chosen
  obtain rfl : i = i' := Option.some.inj (draws₁.source.symm.trans source)
  obtain ⟨_, _, ⟨⟩, ok⟩ := ok
  split at ok
  · rename_i fits
    obtain ⟨met, -⟩ := Bool.and_eq_true_iff.mp fits
    obtain ⟨m, n, site, has⟩ := only _ _ met
    have names : s₂.resource? i = some (.register n) := by rw [State.resource?, site]; rfl
    cases next with
    | none =>
      obtain ⟨-, _, gone, rfl, rfl⟩ := ok
      refine ⟨q, takeFurnishes h.formed minds₁ h₁ draws₁ alive₁ known names has within fun x there wanted behind => ?_⟩
      refine removeSiteOther formed₁ value₁ there (unwanted rfl x wanted) (h₁.housed x there ?_ behind)
      obtain ⟨y, inside, met⟩ := wanted
      exact ⟨y, within y inside, met⟩
    | some next =>
      have reread := again next rfl
      -- the operand has another place, or gets one
      obtain ⟨t, p', upheld, minds, spare, rfl, rfl⟩ : ∃ t p', Sustains ρ start p' (front ++ due) (front ++ due) ahead t ∧
          Minds (i :: kept) s₂ t ∧ t.isLastSite v i = false ∧ j = i ∧ s' = (t.removeSite v i).freezeSite i := by
        dsimp only at ok
        split at ok
        · rename_i last
          simp only [bindOk, discardOk, modifyOk, pureOk] at ok
          obtain ⟨-, t, ⟨k, moved⟩, -, -, rfl, rfl, rfl⟩ := ok
          obtain ⟨present, free⟩ := h₁.direct draws₁ names
          obtain ⟨⟨p', after⟩, minds, spare⟩ := relocateLeaves h₁ frozen₁ known₁ names present free bound₁ value₁ reread moved
          exact ⟨t, p', after, minds, spare, rfl, rfl⟩
        · rename_i spare
          obtain ⟨-, _, rfl, rfl, rfl⟩ := ok
          exact ⟨s₂, q, h₁, .refl _ _, by simpa using spare, rfl, rfl⟩
      have minds := minds₁.trans minds
      have alive' := (minds.live h.formed upheld.formed value).mpr alive
      have survives := removeSiteSurvives upheld.formed upheld.faithful.tracked.once (minds.isValue value) (.inl spare)
      refine ⟨p', takeFurnishes h.formed minds upheld (minds.draws List.mem_cons_self draws) alive' known ?_ has within ?_⟩
      · rw [minds.resource known, ← minds₁.resource known, names]
      · intro x there wanted behind
        obtain ⟨y, inside, met⟩ := wanted
        have wanted : t.Wanted (front ++ due) x := ⟨y, within y inside, met⟩
        exact survives x there (upheld.live wanted) (upheld.housed x there wanted behind)
  · simp only [bindOk, modifyOk, pureOk] at ok
    obtain ⟨j', u, placed, -, -, rfl, rfl, rfl⟩ := ok
    obtain ⟨p', furnishes⟩ := placeFurnishes (h₁.fewer within) frozen₁ known₁ bound₁ result only placed
    exact ⟨p', furnishes.before minds₁ h.formed formed₁⟩

end

end Lowering
