import Lowering.Proofs.Copying
/-!
Placing, staging, moving and displacing values are rearrangements.

The functions call each other through the one that takes a resource from its owner. What they need
of it is stated once; they are shown to do their work given that, and then it is shown to do its
own by induction on how deep the displacements go.
-/
namespace Lowering

namespace State

variable {s s' t u : State} {old : Nat} {kept hollow : List SiteId} {id : ResourceId}
  {v : ValueId} {i : SiteId}

structure Ready (old : Nat) (s : State) (kept hollow : List SiteId) : Prop where
  formed : s.WellFormed
  named : s.Named
  secured : s.Secured kept
  guarded : ∀ x ∈ hollow, x ∈ kept
  bound : old ≤ s.sites.size

theorem Ready.moves {h₀ h₁ : List SiteId} (ready : Ready old s kept hollow)
    (run : Moves old kept h₀ s h₁ s') : Ready old s' kept hollow :=
  ⟨run.wellFormed ready.formed, run.named ready.named, run.secured ready.secured, ready.guarded,
    ready.bound.trans run.keeps.sites⟩

theorem Ready.freeze (ready : Ready old s kept hollow) (known : s.IsSite i) :
    Ready old (s.freezeSite i) (i :: kept) hollow :=
  ⟨wellFormedFreeze ready.formed i, namedFreeze ready.named, ready.secured.freeze known,
    fun x member => List.mem_cons_of_mem _ (ready.guarded x member), by
      rw [freezeSiteRest]
      exact ready.bound⟩

theorem Ready.sub {fewer : List SiteId} (ready : Ready old s kept hollow)
    (sub : ∀ k ∈ fewer, k ∈ kept) (guarded : ∀ x ∈ hollow, x ∈ fewer) : Ready old s fewer hollow :=
  ⟨ready.formed, ready.named, fun k member => ready.secured k (sub k member), guarded,
    ready.bound⟩

theorem Ready.reach (ready : Ready old s kept hollow) (known : s.IsSite i) (fresh : s.Unowned i) :
    Ready old (s.reach i) (i :: kept) hollow := by
  have keeps := s.keepsReach i
  refine ⟨keeps.wellFormed ready.formed ready.formed.listed,
    keeps.named (fun _ _ owner => by rwa [reachOwner] at owner) ready.named, ?_,
    fun x member => List.mem_cons_of_mem _ (ready.guarded x member), ready.bound⟩
  have unowned : ∀ k, s.Unowned k → (s.reach i).Unowned k := by
    intro k unowned id o free owner
    rw [reachOwner] at owner
    exact unowned id o ((keeps.free id).mp free) owner
  intro k member
  rcases List.mem_cons.mp member with rfl | member
  · exact ⟨known, .inr (unowned k fresh)⟩
  · obtain ⟨there, pinned | free⟩ := ready.secured k member
    · exact ⟨there, .inl (keeps.pinned there pinned)⟩
    · exact ⟨there, .inr (unowned k free)⟩

/-- A resource has been taken from its owner, if it had one. The owner was moved before if it
would have been lost otherwise, unless the thief is an alias. -/
inductive Evicted (old : Nat) (kept hollow : List SiteId) (s : State) (id : ResourceId)
    (thief : Option ValueId) : State → Prop
  | vacant (none : s.owner? id = none) : Evicted old kept hollow s id thief s
  | owned {o : Owner} {t : State} (owner : s.owner? id = some o)
      (run : Moves old kept hollow s hollow t) (still : t.owner? id = some o) (apart : o.site ∉ kept)
      (spare : (∃ v, thief = some v ∧ o.value ∈ t.ring v) ∨
        t.isLastSite o.value o.site = false ∨ ¬ t.Live o.value) :
      Evicted old kept hollow s id thief (t.removeSite o.value o.site)

structure Evictable (s : State) (kept : List SiteId) (id : ResourceId) : Prop where
  free : s.Free id
  apart : ∀ o, s.owner? id = some o → o.site ∉ kept

theorem Ready.evictable (ready : Ready old s kept hollow)
    (available : (s.resources.get id).isUnavailable = false) : Evictable s kept id := by
  refine ⟨?_, fun o owner => ready.secured.apart ready.named owner available⟩
  simp only [Resource.isUnavailable, Bool.or_eq_false_iff] at available
  exact available.1.1

end State

open State Build

def Evicts (evict : Evict) : Prop :=
  ∀ ⦃s s' : State⦄ ⦃old : Nat⦄ ⦃kept hollow : List SiteId⦄ ⦃id : ResourceId⦄
    ⦃thief : Option ValueId⦄,
    Ready old s kept hollow → Evictable s kept id → evict id thief s = .ok () s' →
    Evicted old kept hollow s id thief s'

section

variable {evict : Evict} {s s' : State} {old : Nat} {kept hollow : List SiteId}
  {id : ResourceId} {v : ValueId} {i : SiteId}

inductive Seizes (old : Nat) (kept hollow : List SiteId) (s : State) (id : ResourceId)
    (o : Owner) : State → Prop
  | reserved (held : ¬ s.Free id) : Seizes old kept hollow s id o s
  | taken {t u : State} (free : s.Free id) (run : Moves old kept hollow s hollow t)
      (vacates : Vacates kept t id o.value u) :
      Seizes old kept hollow s id o (u.modifyResources (·.setOwner id (some o)))

theorem acquireResourceSpec {o : Owner} (evicts : Evicts evict) (ready : Ready old s kept hollow)
    (apart : ∀ p, s.Free id → s.owner? id = some p → p.site ∉ kept)
    (ok : acquireResource evict id o s = .ok () s') : Seizes old kept hollow s id o s' := by
  unfold acquireResource at ok
  rw [getBind] at ok
  cases reserved : (s.resources.get id).reserved with
  | true =>
    simp only [reserved, if_true, pureOk] at ok
    obtain ⟨-, rfl⟩ := ok
    exact .reserved (by simp [Free, reserved])
  | false =>
    simp only [reserved, Bool.false_eq_true, if_false] at ok
    have free : s.Free id := reserved
    cases owner : (s.resources.get id).owner with
    | none =>
      simp only [owner, Option.isSome_none, Bool.false_eq_true, if_false, modifyOk] at ok
      rw [ok]
      exact .taken free (.refl _ _ _) (.vacant owner)
    | some p =>
      simp only [owner, Option.isSome_some, if_true, bindOk, modifyOk] at ok
      obtain ⟨⟨⟩, w, evicted, rfl⟩ := ok
      have outcome := evicts ready ⟨free, fun q holder => apart q free holder⟩ evicted
      cases outcome with
      | vacant none => simp [owner?, owner] at none
      | @owned p' t holder run still apart spare =>
        refine .taken free run (.owned still apart ?_)
        rcases spare with ⟨w, same, member⟩ | spare
        · cases same
          exact .inl member
        · exact .inr spare

inductive Acquires (old : Nat) (kept hollow : List SiteId) (s : State) (v : ValueId)
    (i : SiteId) : State → Prop
  | bare (names : s.resource? i = none) (closed : ∀ mask, s.site i ≠ .register mask none) :
      Acquires old kept hollow s v i ((s.reach i).setSite i (s.site i).taken)
  | named {id : ResourceId} {t : State} (names : s.resource? i = some id)
      (seizes : Seizes old kept hollow (s.reach i) id ⟨v, i⟩ t) :
      Acquires old kept hollow s v i (t.setSite i (s.site i).taken)
  | settled {mask : RegisterSet} {n : Register} {t : State} (site : s.site i = .register mask none)
      (available : (s.resources.get (.register n)).isUnavailable = false)
      (seizes : Seizes old kept hollow s (.register n) ⟨v, i⟩ t)
      (member : RegisterSet.has mask n = true) :
      Acquires old kept hollow s v i (t.setSite i (.register mask (some n)))

theorem reachBare (bare : (s.site i).addressed = []) : s.reach i = s := by
  simp [State.reach, modifyResources, bare, ResourceTable.referAll]

theorem settleRegisterSpec {mask : RegisterSet} {n : Register}
    (ok : settleRegister v mask none s = .ok n s') :
    s' = s ∧ (s.resources.get (.register n)).isUnavailable = false ∧
      RegisterSet.has mask n = true := by
  have obtainable := State.chooseRegisterSpec (s := s) (P := Target.Obtainable s) (some v) none
    mask State.impossibleObtainable fun _ listed member =>
      State.registerObtainable _ _ listed member
  have within := State.chooseRegisterSpec (s := s) (some v) none mask
    (P := fun t => t.isImpossible = false → ∀ r, t.resource = .register r →
      RegisterSet.has mask r = true)
    (fun possible => by cases possible)
    (fun r _ member _ _ same => by cases same; exact member)
  simp only [settleRegister, getBind] at ok
  generalize s.chooseRegister (some v) mask none = t at ok obtainable within
  obtain ⟨resource, cost⟩ := t
  cases possible : (Target.mk resource cost).isImpossible with
  | true => simp [possible] at ok
  | false =>
    cases resource with
    | slot n => simp [possible] at ok
    | register m =>
      simp only [possible, pureOk] at ok
      obtain ⟨rfl, rfl⟩ := ok
      exact ⟨rfl, (obtainable possible).1, within possible m rfl⟩

theorem acquireSpec (evicts : Evicts evict) (ready : Ready old (s.reach i) kept hollow)
    (apart : ∀ id o, s.resource? i = some id → s.Free id → s.owner? id = some o → o.site ∉ kept)
    (ok : acquireWith evict v i s = .ok () s') : Acquires old kept hollow s v i s' := by
  have apart' : ∀ id, s.resource? i = some id → ∀ o, (s.reach i).Free id →
      (s.reach i).owner? id = some o → o.site ∉ kept := by
    intro id names o free owner
    rw [reachOwner] at owner
    exact apart id o names (((s.keepsReach i).free id).mp free) owner
  unfold acquireWith at ok
  rw [getBind] at ok
  cases site : s.site i with
  | constant p =>
    simp only [site, pureOk] at ok
    obtain ⟨-, rfl⟩ := ok
    have same : (s.site i).taken = s.site i := by rw [site]; rfl
    have idle : Acquires old kept hollow s v i ((s.reach i).setSite i (s.site i).taken) :=
      .bare (by simp [resource?, site, Site.resource?]) (by simp [site])
    rwa [reachBare (by rw [site]; rfl), same, setSiteSame] at idle
  | address p =>
    simp only [site, pureOk] at ok
    obtain ⟨-, rfl⟩ := ok
    have same : (s.site i).taken = s.site i := by rw [site]; rfl
    have idle : Acquires old kept hollow s v i ((s.reach i).setSite i (s.site i).taken) :=
      .bare (by simp [resource?, site, Site.resource?]) (by simp [site])
    rwa [reachBare (by rw [site]; rfl), same, setSiteSame] at idle
  | register mask number =>
    have reach : s.reach i = s := reachBare (by rw [site]; rfl)
    cases number with
    | none =>
      simp only [site, bindOk, modifyOk] at ok
      obtain ⟨n, w, settled, ⟨⟩, w', taken, rfl⟩ := ok
      obtain ⟨rfl, available, member⟩ := settleRegisterSpec settled
      rw [reach] at ready
      exact .settled site available (acquireResourceSpec evicts ready
        (fun o _ => (ready.evictable available).apart o) taken) member
    | some n =>
      have names : s.resource? i = some (.register n) := by simp [resource?, site, Site.resource?]
      simp only [site, settleRegister, pureBind, bindOk, modifyOk] at ok
      obtain ⟨⟨⟩, w, taken, rfl⟩ := ok
      rw [← reach] at taken
      have acquires := Acquires.named names (acquireResourceSpec evicts ready (apart' _ names) taken)
      rwa [site] at acquires
  | memory m acquired =>
    have reach : s.reach i = s.referTo m := by simp [State.reach, site, Site.addressed, referToEq]
    have slot : (s.reach i).slotResource? (.memory m acquired) = s.resource? i := by
      rw [resource?, site]
      rfl
    simp only [site, modifyBind, getBind, ← reach, slot] at ok
    cases names : s.resource? i with
    | none =>
      simp only [names, modifyOk] at ok
      subst ok
      have acquires : Acquires old kept hollow s v i ((s.reach i).setSite i (s.site i).taken) :=
        .bare names (by simp [site])
      rwa [site] at acquires
    | some id =>
      simp only [names, bindOk, modifyOk] at ok
      obtain ⟨⟨⟩, w, taken, rfl⟩ := ok
      have acquires := Acquires.named names (acquireResourceSpec evicts ready (apart' _ names) taken)
      rwa [site] at acquires

structure Fit (old : Nat) (s : State) (kept : List SiteId) (id : ResourceId) (i : SiteId) :
    Prop where
  known : s.IsSite i
  names : s.resource? i = some id
  plain : s.Plain (s.site i)
  unlisted : s.Unlisted i
  unowned : s.Unowned i
  born : old ≤ i.index
  apart : i ∉ kept

theorem Fit.freeze {src : SiteId} (fit : Fit old s kept id i) (other : i ≠ src) :
    Fit old (s.freezeSite src) (src :: kept) id i := by
  refine ⟨(s.freezeSiteIsSite src i).mpr fit.known, (s.freezeSiteResource src i).trans fit.names,
    ?_, fun w => ?_, fun id o free owner => ?_, fit.born, by simpa [other] using fit.apart⟩
  · refine (plainCongr ?_ (s.freezeSiteSlots src) ?_).mpr fit.plain
    · rw [freezeSiteEq]
      rfl
    · rw [freezeSiteEq]
      rfl
  · rw [freezeSiteValue]
    exact fit.unlisted w
  · rw [freezeSiteOwner] at owner
    exact fit.unowned id o ((s.freezeSiteFree src id).mp free) owner

theorem Fit.sub {fewer : List SiteId} (fit : Fit old s kept id i) (sub : ∀ k ∈ fewer, k ∈ kept) :
    Fit old s fewer id i :=
  ⟨fit.known, fit.names, fit.plain, fit.unlisted, fit.unowned, fit.born,
    fun inside => fit.apart (sub i inside)⟩

theorem entitledOf (housed : s.hasSite v = true)
    (numbered : ∀ r, id = .register r → r < s.machine.registerCount)
    (available : (s.resources.get id).isUnavailable = false) : s.Entitled v id := by
  simp only [Resource.isUnavailable, Bool.or_eq_false_iff, decide_eq_false_iff_not] at available
  exact ⟨housed, numbered, .inl (by omega)⟩

theorem placeSpec (evicts : Evicts evict) (ready : Ready old s kept hollow) (value : s.IsValue v)
    (fit : Fit old s kept id i) (evictable : Evictable s kept id) (entitled : s.Entitled v id)
    (ok : placeWith evict v i s = .ok () s') :
    Moves old kept hollow s (i :: hollow) s' ∧ i ∈ (s'.value v).sites := by
  have apart : ∀ id' o, s.resource? i = some id' → s.Free id' → s.owner? id' = some o →
      o.site ∉ i :: kept := by
    intro id' o same free owner inside
    cases same.symm.trans fit.names
    rcases List.mem_cons.mp inside with same | inside
    · exact fit.unowned id o free owner same
    · exact evictable.apart o owner inside
  unfold placeWith at ok
  have absent : (s.value v).sites.contains i = false := by
    simpa using fit.unlisted v
  simp only [getBind, absent, Bool.false_eq_true, if_false, bindOk, modifyOk] at ok
  obtain ⟨⟨⟩, w, acquired, rfl⟩ := ok
  cases acquireSpec evicts (ready.reach fit.known fit.unowned) apart acquired with
  | bare none => simp [fit.names] at none
  | settled site => simpa [resource?, site, Site.resource?] using fit.names
  | @named id' w' names' seizes =>
    cases names'.symm.trans fit.names
    cases seizes with
    | reserved held => exact absurd (((s.keepsReach i).free id).mpr evictable.free) held
    | @taken t u free run vacates =>
      have keeps := ((s.keepsReach i).trans run.keeps).trans vacates.keeps
      have unchanged : (u.site i).taken = (s.site i).taken :=
        Site.takenOfPlace (keeps.place i fit.known)
      have there := (keeps.isValue v).mpr value
      rw [← unchanged]
      refine ⟨.take value fit.known fit.names fit.plain evictable.free fit.unlisted fit.born
        fit.apart run (vacates.mono fun x member => ?_) entitled,
        (u.occupyListed there).mpr (.inl ⟨rfl, rfl⟩)⟩
      rcases List.mem_append.mp member with member | member
      · exact List.mem_cons_of_mem _ (ready.guarded x member)
      · exact List.mem_cons_of_mem _ member

theorem toSiteResource (formed : s.WellFormed) {t : Target}
    (obtainable : ∀ n, t.resource = .slot n → n < s.resources.slots.length) :
    (t.toSite s.geometry).resource? s.geometry = some t.resource := by
  unfold Target.toSite
  cases which : t.resource with
  | register r => rfl
  | slot n =>
    have inside := obtainable n which
    have bound : (n + s.geometry.footer) * wordSize < modulus 32 :=
      Nat.lt_of_lt_of_le (Nat.mul_lt_mul_of_pos_right (by omega) (by decide)) formed.frame
    simp [Site.frame, Site.ofMemory, Site.resource?, s.geometry.indexOffset bound]

theorem toSitePlain {t : Target}
    (slots : ∀ n, t.resource = .slot n → n < s.resources.slots.length) :
    s.Plain (t.toSite s.geometry) := by
  intro m acquired same base
  unfold Target.toSite at same
  cases which : t.resource with
  | register r => simp [which, Site.ofRegister] at same
  | slot n =>
    simp only [which, Site.frame, Site.ofMemory, Site.memory.injEq] at same
    exact ⟨n, slots n which, same.1.symm⟩

theorem chooseSiteMoves {r : ReadId} {strict : Bool} {reserve : Nat} {moved : Option ValueId}
    (ready : Ready old s kept hollow) (ok : chooseSite r strict reserve moved s = .ok i s') :
    ∃ t, Chosen s r strict t ∧ (∀ guarded h, Moves old guarded h s h s') ∧
      (∀ w, s'.value w = s.value w) ∧ s'.resources = s.resources ∧
      s'.site i = t.toSite s.geometry ∧ ¬ s.IsSite i ∧ Fit old s' kept t.resource i := by
  obtain ⟨t, reads, statistics, chosen, evolves, rfl, rfl⟩ := chooseSiteSpec ready.formed ok
  have obtained := chosen.obtainable chosen.possible
  have site := { s with reads, statistics }.siteNewSelf (t.toSite s.geometry)
  have new : ¬ s.IsSite ⟨s.sites.size⟩ := by simp [IsSite]
  refine ⟨t, chosen, fun guarded h => ?_, fun _ => rfl, rfl, site, new, ?_⟩
  · refine (Moves.ask reads statistics s.resources.available evolves).trans (.create _ ?_)
    exact toSitePlain (s := { s with reads, statistics }) obtained.2.1
  · refine ⟨by simp [IsSite, newSite], ?_, ?_, ?_, ?_, ready.bound, ?_⟩
    · exact (congrArg (Site.resource? s.geometry) site).trans
        (toSiteResource ready.formed obtained.2.1)
    · refine (plainCongr (s := s) rfl rfl (congrArg Site.place site)).mpr ?_
      exact toSitePlain obtained.2.1
    · exact fun w listed => new (ready.formed.listed w _ listed)
    · intro id o free owner same
      exact new (same ▸ (ready.named id o free owner).2.1)
    · exact fun inside => new (ready.secured _ inside).1

theorem stageSpec {src : SiteId} {mask : OperandMask} (evicts : Evicts evict)
    (ready : Ready old s kept hollow) (value : s.IsValue v) (housed : s.hasSite v = true)
    (guarded : src ∈ kept) (filled : src ∉ hollow)
    (source : (∃ m ∈ s.ring v, src ∈ (s.value m).sites) ∨ ¬ s.Plain (s.site src))
    (ok : stageWith evict v src mask s = .ok i s') :
    Moves old kept hollow s hollow s' ∧ i ∈ (s'.value v).sites ∧ s'.IsSite i ∧ ¬ s.IsSite i := by
  unfold stageWith probe at ok
  simp only [modifyGetBind, bindOk, pureOk] at ok
  obtain ⟨j, s₁, chosen, ⟨⟩, s₂, placed, ⟨⟩, s₃, copied, rfl, rfl⟩ := ok
  have probed : Moves old kept hollow s hollow
      { s with reads := (s.reads.single v (.ofOperand mask) (some v)).2 } :=
    .ask _ s.statistics s.resources.available (ReadTable.evolvesPush _ _ _ _)
  have ready₀ := ready.moves probed
  obtain ⟨t, target, moves, values, resources, site, new, fresh⟩ := chooseSiteMoves ready₀ chosen
  have ready₁ := ready₀.moves (moves kept hollow)
  have before := probed.trans (moves kept hollow)
  have available : (s₁.resources.get t.resource).isUnavailable = false := by
    rw [resources]
    exact (target.obtainable target.possible).1
  have housed₁ : s₁.hasSite v = true := by
    rw [hasSiteCongr (moves kept hollow).keeps.size values]
    exact (hasSiteCongr (s := s) probed.keeps.size (fun _ => rfl) v).trans housed
  have entitled := entitledOf housed₁ (fun r same => by
    rw [(moves kept hollow).keeps.machine]
    exact ((target.obtainable target.possible).2.2 r same).2) available
  obtain ⟨taken, held⟩ := placeSpec evicts ready₁ ((before.keeps.isValue v).mpr value) fresh
    (ready₁.evictable available) entitled placed
  have all := before.trans taken
  have apart : src ≠ j := by
    rintro rfl
    exact fresh.apart guarded
  have copies : Copies s₂ hollow v src j := by
    refine ⟨all.keeps.isSite (ready.secured src guarded).1, taken.keeps.isSite fresh.known, held,
      ?_, by simpa [apart] using filled⟩
    rcases source with ⟨m, member, listed⟩ | bare
    · exact .inl ⟨m, (all.keeps.ring v).symm ▸ member, all.keepsListed guarded listed⟩
    · refine .inr fun plain => bare ?_
      exact (plainCongr all.keeps.geometry all.keeps.resources.shape.slots
        (all.keeps.place src (ready.secured src guarded).1)).mp plain
  have ready₂ : Ready old s₂ kept hollow := ready.moves all
  obtain ⟨filledIn, held'⟩ := emitMoveSpec ready₂.formed ready₂.named ready₂.secured
    ready₂.guarded copies copied
  exact ⟨all.trans filledIn, held', (taken.trans filledIn).keeps.isSite fresh.known, new⟩

/-! Moving a value to a new site. -/

theorem foldPicks {α : Type} {step : Option α → α → Option α} {xs : List α} {start : Option α} {x : α}
    (picks : ∀ best y, step best y = best ∨ step best y = some y) (found : xs.foldl step start = some x) :
    start = some x ∨ x ∈ xs := by
  induction xs generalizing start with
  | nil => exact .inl found
  | cons y rest ih =>
    rcases ih found with here | later
    · rcases picks start y with same | new
      · exact .inl (same.symm.trans here)
      · cases new.symm.trans here
        exact .inr List.mem_cons_self
    · exact .inr (List.mem_cons_of_mem _ later)

theorem cheapestSourceMem {costs : List (SiteId × Nat)} {c : SiteId × Nat}
    (found : cheapestSource costs = some c) : c ∈ costs := by
  refine (foldPicks (fun best d => ?_) found).resolve_left nofun
  cases best with
  | none => exact .inr rfl
  | some b => exact (ite_eq_or_eq ..).symm

theorem sourceCostPos (x : Site) : 0 < x.sourceCost := by
  cases x <;> simp [Site.sourceCost, Lowering.copyCosts]

theorem copyCostsMem {x : Site} {mask : SiteMask} {src : SiteId} {cost : Nat}
    (member : (src, cost) ∈ s.copyCosts v x mask) :
    (∃ m ∈ s.ring v, src ∈ (s.value m).sites) ∧ (cost = 0 ↔ (s.site src).coincides x = true) := by
  simp only [State.copyCosts, List.mem_map, Prod.mk.injEq] at member
  obtain ⟨o, held, rfl, rfl⟩ := member
  have inside := memPlacements.mp held
  refine ⟨⟨o.value, inside.1, inside.2⟩, ?_⟩
  have pos := sourceCostPos (s.site o.site)
  cases same : (s.site o.site).coincides x with
  | true => simp [Site.copyCost, same]
  | false =>
    simp only [Site.copyCost, same, Bool.false_eq_true, if_false, iff_false]
    split
    · omega
    · omega

theorem coincidesRegister {x : Site} {r : Register} :
    x.coincides (.ofRegister r) = true ↔ x.number? = some r ∧ r < 64 := by
  cases x with
  | register mask number =>
    cases number with
    | none => simp [Site.coincides, Site.number?]
    | some n =>
      simp only [Site.coincides, Site.ofRegister, Site.number?, Option.some.injEq]
      simp only [RegisterSet.has, RegisterSet.single, BitVec.getLsbD_twoPow, Bool.and_eq_true,
        decide_eq_true_eq]
      constructor
      · rintro ⟨small, rfl⟩
        exact ⟨rfl, small⟩
      · rintro ⟨rfl, small⟩
        exact ⟨small, rfl⟩
  | constant p => simp [Site.coincides, Site.ofRegister, Site.number?]
  | address p => simp [Site.coincides, Site.ofRegister, Site.number?]
  | memory m acquired => simp [Site.coincides, Site.ofRegister, Site.number?]

theorem coincidesSlot {x : Site} {g : FrameGeometry} {n : Nat} :
    x.coincides (.frame g n) = true ↔ x.place = .frame g n := by
  cases x <;> simp [Site.coincides, Site.frame, Site.ofMemory, Site.place]

theorem coincidesTarget (formed : s.WellFormed) {t : Target} {x : Site}
    (slots : ∀ n, t.resource = .slot n → n < s.resources.slots.length)
    (same : x.coincides (t.toSite s.geometry) = true) :
    x.resource? s.geometry = some t.resource ∧
      ∀ mask, (t.toSite s.geometry).satisfies s.geometry mask = true →
        x.satisfies s.geometry mask = true := by
  have stands := toSiteResource formed slots
  unfold Target.toSite at same stands ⊢
  cases which : t.resource with
  | register r =>
    simp only [which] at same
    obtain ⟨number, -⟩ := coincidesRegister.mp same
    cases x with
    | register mask number' =>
      simp only [Site.number?] at number
      subst number
      exact ⟨rfl, fun _ meets => meets⟩
    | constant p => simp [Site.number?] at number
    | address p => simp [Site.number?] at number
    | memory m acquired => simp [Site.number?] at number
  | slot n =>
    simp only [which] at same stands
    have place := coincidesSlot.mp same
    refine ⟨?_, fun mask meets => ?_⟩
    · rw [← Site.resourcePlace, place]
      exact stands
    · rw [← Site.satisfiesPlace, place]
      exact meets

theorem bareOfSameResource (formed : s.WellFormed) {t : Target} {x : Site}
    (registers : ∀ r, t.resource = .register r → r < 64)
    (names : x.resource? s.geometry = some t.resource)
    (differs : x.coincides (t.toSite s.geometry) = false) : ¬ s.Plain x := by
  intro plain
  rw [← Bool.not_eq_true] at differs
  apply differs
  unfold Target.toSite
  cases which : t.resource with
  | register r =>
    refine coincidesRegister.mpr ⟨?_, registers r which⟩
    cases x with
    | register mask number => simpa [Site.resource?, which, Site.number?] using names
    | constant p => simp [Site.resource?] at names
    | address p => simp [Site.resource?] at names
    | memory m acquired =>
      simp only [Site.resource?, which] at names
      split at names <;> simp at names
  | slot n =>
    refine coincidesSlot.mpr ?_
    cases x with
    | register mask number => cases number <;> simp [Site.resource?, which] at names
    | constant p => simp [Site.resource?] at names
    | address p => simp [Site.resource?] at names
    | memory m acquired =>
      simp only [Site.resource?, which] at names
      split at names
      · rename_i onStack
        obtain ⟨k, inside, rfl⟩ := plain m acquired rfl (by simpa using onStack)
        have bound : (k + s.geometry.footer) * wordSize < modulus 32 :=
          Nat.lt_of_lt_of_le (Nat.mul_lt_mul_of_pos_right (by omega) (by decide)) formed.frame
        simp only [s.geometry.indexOffset bound, Option.some.injEq, ResourceId.slot.injEq] at names
        subst names
        rfl
      · simp at names

/- The source stays frozen while the new site is placed. It is lost only if it stands for the
resource that is taken. -/
theorem placeFrozenSpec {src : SiteId} (evicts : Evicts evict) (ready : Ready old s kept hollow)
    (value : s.IsValue v) (fit : Fit old s kept id i) (apart : i ≠ src)
    (available : (s.resources.get id).isUnavailable = false) (there : s.IsSite src)
    (entitled : s.Entitled v id) (straddles : s.resource? src = some id → s.Straddled id)
    (ok : whileFrozen src (placeWith evict v i) s = .ok () s') :
    Moves old kept hollow s (i :: hollow) s' ∧ i ∈ (s'.value v).sites ∧
      ∀ w, src ∈ (s.value w).sites → s.resource? src ≠ some id → src ∈ (s'.value w).sites := by
  rw [whileFrozenOk] at ok
  obtain ⟨t, placed, rfl⟩ := ok
  have frozen := ready.freeze there
  have evictable := ready.evictable available
  have value' : (s.freezeSite src).IsValue v := by
    rw [freezeSiteRest]
    exact value
  have fit' := fit.freeze apart
  have housed : (s.freezeSite src).hasSite v = true := by
    rw [hasSiteCongr (by rw [freezeSiteRest]) (s.freezeSiteValue src)]
    exact entitled.housed
  have numbered : ∀ r, id = .register r → r < (s.freezeSite src).machine.registerCount := by
    rw [freezeSiteRest]
    exact entitled.numbered
  by_cases same : s.resource? src = some id
  · have fewer : ∀ k ∈ kept, k ∈ src :: kept := fun k member => List.mem_cons_of_mem _ member
    have loose := frozen.sub fewer ready.guarded
    have evictable' : Evictable (s.freezeSite src) kept id := by
      refine ⟨(s.freezeSiteFree src id).mpr evictable.free, fun o owner => ?_⟩
      rw [freezeSiteOwner] at owner
      exact evictable.apart o owner
    have entitled' : (s.freezeSite src).Entitled v id := by
      obtain ⟨w, k, listed, stands, bare⟩ := straddles same
      refine ⟨housed, numbered, .inr ⟨w, k, ?_, (s.freezeSiteResource src k).trans stands, ?_⟩⟩
      · rwa [freezeSiteValue]
      · intro plain
        refine bare ((plainCongr ?_ (s.freezeSiteSlots src) ?_).mp plain)
        · rw [freezeSiteRest]
        · rw [freezeSiteRest]
          rfl
    obtain ⟨taken, held⟩ := placeSpec evicts loose value' (fit'.sub fewer) evictable' entitled' placed
    refine ⟨.frozen there taken, ?_, fun w _ other => absurd same other⟩
    rwa [thawSiteValue]
  · have evictable' : Evictable (s.freezeSite src) (src :: kept) id := by
      refine ⟨(s.freezeSiteFree src id).mpr evictable.free, fun o owner inside => ?_⟩
      rw [freezeSiteOwner] at owner
      rcases List.mem_cons.mp inside with here | inside
      · exact same (here ▸ (ready.named id o evictable.free owner).2.2)
      · exact evictable.apart o owner inside
    have free : (s.resources.get id).freezes = 0 := by
      simp only [Resource.isUnavailable, Bool.or_eq_false_iff, decide_eq_false_iff_not] at available
      omega
    have entitled' : (s.freezeSite src).Entitled v id := by
      refine ⟨housed, numbered, .inl ?_⟩
      rw [freezeSiteFreezes, free, if_neg fun here => same here.1]
    obtain ⟨taken, held⟩ := placeSpec evicts frozen value' fit' evictable' entitled' placed
    refine ⟨.frozen there (taken.mono fun k member => List.mem_cons_of_mem _ member), ?_, ?_⟩
    · rwa [thawSiteValue]
    · intro w listed _
      rw [thawSiteValue]
      exact taken.keepsListed List.mem_cons_self (by rwa [freezeSiteValue])

theorem copySpec {src dst origin : SiteId} {temporary : OperandMask} {u : State}
    (evicts : Evicts evict) (ready : Ready old s kept hollow) (value : s.IsValue v)
    (copies : Copies s hollow v src dst)
    (staged : (origin = src ∧ u = s) ∨
      whileFrozen src (whileFrozen dst (stageWith evict v src temporary)) s = .ok origin u)
    (ok : emitMove origin dst u = .ok () s') :
    Moves old kept (dst :: hollow) s hollow s' ∧ dst ∈ (s'.value v).sites := by
  rcases staged with ⟨rfl, rfl⟩ | staged
  · exact emitMoveSpec ready.formed ready.named ready.secured ready.guarded copies ok
  · simp only [whileFrozenOk] at staged
    obtain ⟨w, ⟨x, stage, rfl⟩, rfl⟩ := staged
    have frozen := (ready.freeze copies.knownSource).freeze
      ((s.freezeSiteIsSite src dst).mpr copies.knownTarget)
    have copies' := (copies.freeze src).freeze dst
    have ready' : Ready old ((s.freezeSite src).freezeSite dst) (dst :: src :: kept) (dst :: hollow) :=
      ⟨frozen.formed, frozen.named, frozen.secured, fun y member => by
        rcases List.mem_cons.mp member with rfl | member
        · exact List.mem_cons_self
        · exact frozen.guarded y member, frozen.bound⟩
    have value' : ((s.freezeSite src).freezeSite dst).IsValue v := by
      rw [freezeSiteRest, freezeSiteRest]
      exact value
    obtain ⟨run, held, known, new⟩ := stageSpec evicts ready' value'
      (hasSiteOf (selfMemRing _ v) copies'.held) (by simp) copies'.filled copies'.source stage
    have moves : Moves old kept (dst :: hollow) s (dst :: hollow) ((x.thawSite dst).thawSite src) :=
      .frozen copies.knownSource (.frozen ((s.freezeSiteIsSite src dst).mpr copies.knownTarget)
        (run.mono fun k member => by simp [member]))
    have after := ready.moves moves
    have kept' : dst ∈ (x.value v).sites := run.keepsListed List.mem_cons_self copies'.held
    have ahead : Copies ((x.thawSite dst).thawSite src) hollow v origin dst := by
      refine ⟨?_, moves.keeps.isSite copies.knownTarget, ?_, ?_, ?_⟩
      · rw [thawSiteEq, thawSiteEq]
        exact known
      · rwa [thawSiteValue, thawSiteValue]
      · refine .inl ⟨v, selfMemRing _ v, ?_⟩
        rwa [thawSiteValue, thawSiteValue]
      · intro inside
        refine new ?_
        rcases List.mem_cons.mp inside with rfl | inside
        · exact copies'.knownTarget
        · exact (frozen.secured origin (frozen.guarded origin inside)).1
    obtain ⟨filled, final⟩ := emitMoveSpec after.formed after.named after.secured after.guarded
      ahead ok
    exact ⟨moves.trans filled, final⟩

theorem coincidesPlace {x y : Site} (same : x.place = y.place) (z : Site) :
    x.coincides z = y.coincides z := by
  have placed : ∀ x : Site, x.place.coincides z = x.coincides z := by
    intro x
    cases x <;> cases z <;> rfl
  rw [← placed x, same, placed]

theorem toSiteCoincides {g : FrameGeometry} {t : Target}
    (registers : ∀ r, t.resource = .register r → r < 64) :
    (t.toSite g).coincides (t.toSite g) = true := by
  unfold Target.toSite
  cases which : t.resource with
  | register r => exact coincidesRegister.mpr ⟨rfl, registers r which⟩
  | slot n => exact coincidesSlot.mpr rfl

def State.Located (s : State) (x : Site) : Prop :=
  ∃ t : Target, x.coincides (t.toSite s.geometry) = true ∧
    (∀ n, t.resource = .slot n → n < s.resources.slots.length) ∧
    ∀ r, t.resource = .register r → r < 64

structure Relocated (old : Nat) (s : State) (kept hollow : List SiteId) (r : ReadId) (strict : Bool)
    (i : SiteId) (s' : State) : Prop where
  moves : Moves old kept hollow s hollow s'
  held : ∃ m ∈ s.ring (s.reads.value r), i ∈ (s'.value m).sites
  known : s'.IsSite i
  obtained : ∃ id, s'.resource? i = some id ∧ (s.resources.get id).isUnavailable = false
  located : s'.Located (s'.site i)
  meets : strict = true → ∀ own successor next, s.reads.kind r = .single own successor next →
    (s'.site i).satisfies s'.geometry own = true

theorem placeCheapestSpec {dst src : SiteId} {cost : Nat} {mask : SiteMask} {t : Target}
    (evicts : Evicts evict) (ready : Ready old s kept hollow) (value : s.IsValue v)
    (site : s.site dst = t.toSite s.geometry) (fresh : Fit old s kept t.resource dst)
    (available : (s.resources.get t.resource).isUnavailable = false)
    (numbered : ∀ r, t.resource = .register r → r < 64 ∧ r < s.machine.registerCount)
    (cheapest : cheapestSource (s.copyCosts v (s.site dst) mask) = some (src, cost))
    (needed : cost ≠ 0) (ok : whileFrozen src (placeWith evict v dst) s = .ok () s') :
    dst ≠ src ∧ Moves old kept hollow s (dst :: hollow) s' ∧ dst ∈ (s'.value v).sites ∧
      ∃ m ∈ s.ring v, src ∈ (s.value m).sites ∧
        (src ∈ (s'.value m).sites ∨ ¬ s'.Plain (s'.site src)) := by
  obtain ⟨⟨m, inRing, listed⟩, costless⟩ := copyCostsMem (cheapestSourceMem cheapest)
  rw [site] at costless
  have there := ready.formed.listed m src listed
  have apart : dst ≠ src := by
    rintro rfl
    exact fresh.unlisted m listed
  have differs : (s.site src).coincides (t.toSite s.geometry) = false := by
    rw [← Bool.not_eq_true]
    exact fun same => needed (costless.mpr same)
  have bare : s.resource? src = some t.resource → ¬ s.Plain (s.site src) := fun same =>
    bareOfSameResource ready.formed (fun r which => (numbered r which).1) same differs
  obtain ⟨taken, held, stays⟩ := placeFrozenSpec evicts ready value fresh apart available there
    (entitledOf (hasSiteOf inRing listed) (fun r same => (numbered r same).2) available)
    (fun same => ⟨m, src, listed, same, bare same⟩) ok
  refine ⟨apart, taken, held, m, inRing, listed, ?_⟩
  by_cases same : s.resource? src = some t.resource
  · refine .inr fun plain => bare same ?_
    exact (plainCongr taken.keeps.geometry taken.keeps.resources.shape.slots
      (taken.keeps.place src there)).mp plain
  · exact .inl (stays m listed same)

theorem relocatedTo {r : ReadId} {strict : Bool} {t : Target} (target : Chosen s r strict t)
    (ready : Ready old s kept hollow) (moves : Moves old kept hollow s hollow s')
    (held : ∃ m ∈ s.ring (s.reads.value r), i ∈ (s'.value m).sites) (known : s'.IsSite i)
    (there : (s'.site i).coincides (t.toSite s'.geometry) = true) :
    Relocated old s kept hollow r strict i s' := by
  obtain ⟨available, slots, numbered⟩ := target.obtainable target.possible
  have slots' : ∀ n, t.resource = .slot n → n < s'.resources.slots.length := by
    rw [moves.keeps.resources.shape.slots]
    exact slots
  obtain ⟨stands, meets⟩ := coincidesTarget (ready.moves moves).formed slots' there
  refine ⟨moves, held, known, ⟨t.resource, stands, available⟩,
    ⟨t, there, slots', fun r same => (numbered r same).1⟩, fun must own successor next kind => ?_⟩
  apply meets
  rw [moves.keeps.geometry]
  exact target.meets must own successor next kind

theorem relocatedCopy {r : ReadId} {strict : Bool} {t : Target} {u : State} {src dst origin : SiteId}
    {mask : OperandMask} (evicts : Evicts evict) (target : Chosen s r strict t)
    (ready : Ready old s kept hollow) (value : s.IsValue (s.reads.value r))
    (taken : Moves old kept hollow s (dst :: hollow) u)
    (copies : Copies u hollow (s.reads.value r) src dst) (known : u.IsSite dst)
    (there : (u.site dst).coincides (t.toSite u.geometry) = true) {w : State}
    (staged : (origin = src ∧ w = u) ∨ whileFrozen src (whileFrozen dst
      (stageWith evict (s.reads.value r) src mask)) u = .ok origin w)
    (emitted : emitMove origin dst w = .ok () s') : Relocated old s kept hollow r strict dst s' := by
  obtain ⟨copied, final⟩ := copySpec evicts (ready.moves taken)
    ((taken.keeps.isValue _).mpr value) copies staged emitted
  have there' : (s'.site dst).coincides (t.toSite s'.geometry) = true := by
    rwa [coincidesPlace (copied.keeps.place dst known), copied.keeps.geometry]
  exact relocatedTo target ready (taken.trans copied) ⟨_, selfMemRing s _, final⟩
    (copied.keeps.isSite known) there'

theorem relocateSpec {r : ReadId} {strict : Bool} {reserve : Nat} (evicts : Evicts evict)
    (ready : Ready old s kept hollow) (value : s.IsValue (s.reads.value r))
    (filled : ∀ o ∈ s.placements (s.reads.value r), o.site ∉ hollow)
    (ok : relocateWith evict r strict reserve s = .ok i s') :
    Relocated old s kept hollow r strict i s' := by
  unfold relocateWith at ok
  simp only [getBind, bindOk] at ok
  obtain ⟨dst, s₁, chosen, ok⟩ := ok
  generalize reader : s.reads.value r = v at *
  obtain ⟨t, target, moves, values, resources, site, -, fresh⟩ := chooseSiteMoves ready chosen
  obtain ⟨available, -, numbered⟩ := target.obtainable target.possible
  have registers : ∀ r, t.resource = .register r → r < 64 := fun r same => (numbered r same).1
  have before := moves kept hollow
  have ready₁ := ready.moves before
  have keeps := before.keeps
  rw [← keeps.geometry] at site
  cases cheapest : cheapestSource (s₁.copyCosts v (s₁.site dst)
      (SiteMask.ofOperand (s₁.machine.planMove wordSize (s₁.site dst).operandMask).source)) with
  | none => simp [cheapest] at ok
  | some c =>
    obtain ⟨src, cost⟩ := c
    simp only [cheapest] at ok
    have member := cheapestSourceMem cheapest
    rw [site] at member
    obtain ⟨⟨m, inRing, listed⟩, costless⟩ := copyCostsMem member
    have there := ready₁.formed.listed m src listed
    by_cases zero : cost = 0
    · subst zero
      simp only [beq_self_eq_true, if_true, pureOk] at ok
      obtain ⟨rfl, rfl⟩ := ok
      refine relocatedTo target ready before ⟨m, ?_, listed⟩ there (costless.mp rfl)
      rwa [reader, ← keeps.ring]
    · have nonzero : (cost == 0) = false := by simpa using zero
      simp only [nonzero, Bool.false_eq_true, if_false, bindOk] at ok
      obtain ⟨⟨⟩, s₂, placed, ok⟩ := ok
      have available₁ : (s₁.resources.get t.resource).isUnavailable = false := by
        rw [resources]
        exact available
      have numbered₁ : ∀ r, t.resource = .register r → r < 64 ∧ r < s₁.machine.registerCount := by
        rw [keeps.machine]
        exact numbered
      obtain ⟨apart, taken, held, n, inRing', listed', stays⟩ := placeCheapestSpec evicts ready₁
        ((keeps.isValue v).mpr value) site fresh available₁ numbered₁ cheapest zero placed
      have unfilled : src ∉ hollow := by
        refine filled ⟨m, src⟩ (memPlacements.mpr ⟨?_, ?_⟩)
        · rwa [← keeps.ring]
        · rwa [← values]
      have copies : Copies s₂ hollow v src dst := by
        refine ⟨taken.keeps.isSite there, taken.keeps.isSite fresh.known, held, ?_, ?_⟩
        · refine stays.imp (fun listed => ⟨n, (taken.keeps.ring v).symm ▸ inRing', listed⟩) id
        · simpa [Ne.symm apart] using unfilled
      have there' : (s₂.site dst).coincides (t.toSite s₂.geometry) = true := by
        rw [coincidesPlace (taken.keeps.place dst fresh.known), site, taken.keeps.geometry]
        exact toSiteCoincides registers
      have finish : ∀ {origin : SiteId} {u : State}, ((origin = src ∧ u = s₂) ∨
          whileFrozen src (whileFrozen dst (stageWith evict v src
            (s₁.machine.planMove wordSize (s₁.site dst).operandMask).temporary)) s₂ =
            .ok origin u) →
          emitMove origin dst u = .ok () s' → Relocated old s kept hollow r strict dst s' := by
        subst reader
        exact relocatedCopy evicts target ready value (before.trans taken) copies
          (taken.keeps.isSite fresh.known) there'
      obtain ⟨now, now', got, ok⟩ := ok
      obtain ⟨rfl, rfl⟩ := getOk.mp got
      split at ok
      · simp only [pureBind, bindOk, pureOk] at ok
        obtain ⟨⟨⟩, u, emitted, rfl, rfl⟩ := ok
        exact finish (.inl ⟨rfl, rfl⟩) emitted
      · simp only [bindOk, pureOk] at ok
        obtain ⟨origin, u, staged, ⟨⟩, w, emitted, rfl, rfl⟩ := ok
        exact finish (.inr staged) emitted

/-! Taking a resource from its owner. -/

theorem notLastSite {s : State} {v m : ValueId} {i j : SiteId} (member : m ∈ s.ring v)
    (listed : j ∈ (s.value m).sites) (apart : j ≠ i) : s.isLastSite v i = false := by
  rw [isLastSite, beq_eq_false_iff_ne]
  intro only
  have inside : j ∈ (s.placements v).map (·.site) :=
    List.mem_map.mpr ⟨⟨m, j⟩, memPlacements.mpr ⟨member, listed⟩, rfl⟩
  rw [only, List.mem_singleton] at inside
  exact apart inside

theorem onlySite {s : State} {v m : ValueId} {i j : SiteId} (last : s.isLastSite v i = true)
    (member : m ∈ s.ring v) (listed : j ∈ (s.value m).sites) : j = i := by
  by_contra apart
  rw [notLastSite member listed apart] at last
  cases last

/- The owner that would be lost is moved while its site is frozen; what it is moved to is another
site, so that the first can be spared. -/
theorem displaceSpec {o : Owner} {r : ReadId} {reserve : Nat} (evicts : Evicts evict)
    (ready : Ready old s kept hollow) (evictable : Evictable s kept id)
    (owner : s.owner? id = some o) (last : s.isLastSite o.value o.site = true)
    (reader : s.reads.value r ∈ s.ring o.value)
    (ok : whileFrozen o.site (relocateWith evict r false reserve) s = .ok i s') :
    Moves old kept hollow s hollow s' ∧ s'.owner? id = some o ∧ i ≠ o.site ∧
      ∃ m ∈ s.ring o.value, i ∈ (s'.value m).sites := by
  obtain ⟨value, known, names⟩ := ready.named id o evictable.free owner
  rw [whileFrozenOk] at ok
  obtain ⟨t, relocated, rfl⟩ := ok
  have frozen := ready.freeze known
  have reads : (s.freezeSite o.site).reads = s.reads := by
    rw [freezeSiteRest]
  have value' : (s.freezeSite o.site).IsValue ((s.freezeSite o.site).reads.value r) := by
    have there := isValueOfRing ready.formed.rings value reader
    rw [reads, freezeSiteRest]
    exact there
  have unfilled : o.site ∉ hollow := fun inside =>
    evictable.apart o owner (ready.guarded o.site inside)
  have filled : ∀ p ∈ (s.freezeSite o.site).placements ((s.freezeSite o.site).reads.value r),
      p.site ∉ hollow := by
    intro p member
    rw [reads] at member
    obtain ⟨inRing, listed⟩ := memPlacements.mp member
    rw [freezeSiteRing] at inRing
    rw [freezeSiteValue] at listed
    rw [onlySite last (memRingTrans ready.formed.rings value reader inRing) listed]
    exact unfilled
  have outcome := relocateSpec evicts frozen value' filled relocated
  refine ⟨.frozen known (outcome.moves.mono fun k member => List.mem_cons_of_mem _ member), ?_, ?_,
    ?_⟩
  · rw [thawSiteOwner]
    exact outcome.moves.keepsOwner List.mem_cons_self (by rwa [freezeSiteOwner])
  · rintro rfl
    obtain ⟨other, stands, available⟩ := outcome.obtained
    rw [outcome.moves.keeps.resource ((s.freezeSiteIsSite _ _).mpr known), freezeSiteResource,
      names] at stands
    cases stands
    simp only [Resource.isUnavailable, Bool.or_eq_false_iff, decide_eq_false_iff_not] at available
    have held := s.pinnedFreeze o.site id ((s.freezeSiteResource _ _).trans names)
      ((s.freezeSiteHas _ _).mpr (ResourceTable.hasOfOwner owner))
      ((s.freezeSiteFree _ _).mpr evictable.free)
    omega
  · obtain ⟨m, inRing, listed⟩ := outcome.held
    rw [reads, freezeSiteRing] at inRing
    refine ⟨m, memRingTrans ready.formed.rings value reader inRing, ?_⟩
    rwa [thawSiteValue]

theorem evictWithinSpec (fuel : Nat) : Evicts (evictWithin fuel) := by
  induction fuel with
  | zero =>
    intro s s' old kept hollow id thief ready evictable ok
    simp [evictWithin] at ok
  | succ fuel ih =>
    intro s s' old kept hollow id thief ready evictable ok
    unfold evictWithin at ok
    rw [getBind] at ok
    cases owner : (s.resources.get id).owner with
    | none =>
      simp only [owner, pureOk] at ok
      obtain ⟨-, rfl⟩ := ok
      exact .vacant owner
    | some o =>
      simp only [owner, modifyBind] at ok
      have counted : Moves old kept hollow s hollow (s.count (·.countSteal)) := Moves.count _
      have apart := evictable.apart o owner
      have ready₁ := ready.moves counted
      have value := (ready.named id o evictable.free owner).1
      by_cases alone : (!thief.any (s.areAliases · o.value) && s.isLastSite o.value o.site) = true
      · have last : (s.count (·.countSteal)).isLastSite o.value o.site = true := by
          simp only [Bool.and_eq_true] at alone
          rw [← alone.2]
          apply isLastSiteCongr
          · rfl
          · exact fun _ => rfl
        obtain ⟨reads, state, evolves, found, none⟩ := liveReadSpec ready₁.formed o.value
        have asked : Moves old kept hollow s hollow { s.count (·.countSteal) with reads } :=
          counted.trans (.ask reads _ s.resources.available evolves)
        simp only [alone, if_true, modifyGetBind, state] at ok
        cases read : ((s.count (·.countSteal)).liveRead? o.value).1 with
        | none =>
          simp only [read, modifyOk] at ok
          subst ok
          refine .owned owner asked owner apart (.inr (.inr ?_))
          rw [asked.live ready.formed, ← counted.live ready.formed, liveIff ready₁.formed]
          rintro ⟨m, member, r, chain, pending⟩
          exact none read m member r chain pending
        | some r =>
          simp only [read, bindOk, modifyOk] at ok
          obtain ⟨moved, u, displaced, ⟨⟩, w, rfl, rfl⟩ := ok
          have ready₂ := ready.moves asked
          have ring := asked.keeps.ring
          obtain ⟨-, m, member, chain⟩ := found r read
          have reader : { s.count (·.countSteal) with reads }.reads.value r ∈
              { s.count (·.countSteal) with reads }.ring o.value := by
            rw [ring, (ready₂.formed.heads m r chain).2, ← counted.keeps.ring]
            exact member
          have last' : { s.count (·.countSteal) with reads }.isLastSite o.value o.site = true := by
            rw [← last]
            apply isLastSiteCongr
            · rfl
            · exact fun _ => rfl
          have evictable₂ : Evictable { s.count (·.countSteal) with reads } kept id :=
            ⟨evictable.free, evictable.apart⟩
          obtain ⟨moves, still, other, n, inRing, listed⟩ :=
            displaceSpec ih ready₂ evictable₂ owner last' reader displaced
          have all := asked.trans moves
          rw [← moves.keeps.ring] at inRing
          have redirected : Moves old kept hollow u hollow (u.modifyValue o.value fun d =>
              if d.source == some o.site then { d with source := some moved } else d) :=
            .redirect o moved apart ⟨n, inRing, listed⟩
          refine .owned owner (all.trans redirected) still apart
            (.inr (.inl (notLastSite (m := n) (j := moved) ?_ ?_ other)))
          · rw [redirected.keeps.ring]
            exact inRing
          · rw [redirectSites]
            exact listed
      · simp only [alone, Bool.false_eq_true, if_false, modifyOk] at ok
        subst ok
        refine .owned owner counted owner apart ?_
        simp only [Bool.and_eq_true, Bool.not_eq_true', not_and, Bool.not_eq_true] at alone
        cases related : thief.any (s.areAliases · o.value) with
        | true =>
          cases thief with
          | none => simp at related
          | some v =>
            refine .inl ⟨v, rfl, ?_⟩
            rw [counted.keeps.ring]
            exact (areAliasesIff v o.value).mp (by simpa using related)
        | false =>
          refine .inr (.inl ?_)
          rw [← alone related]
          apply isLastSiteCongr
          · rfl
          · exact fun _ => rfl

end

theorem evictSpec : Evicts evict := by
  intro s s' old kept hollow id thief ready evictable ok
  unfold evict at ok
  rw [getBind] at ok
  exact evictWithinSpec _ ready evictable ok

theorem evictVacant {s : State} {id : ResourceId} {thief : Option ValueId} (vacant : s.owner? id = none) :
    evict id thief s = .ok () s := by
  have vacant : (s.resources.get id).owner = none := vacant
  rw [evict, getBind, State.displacementBound, evictWithin, getBind, vacant]
  rfl

end Lowering
