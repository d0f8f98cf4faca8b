import Lowering.Proofs.Extension
import Lowering.Proofs.Sources
/-!
Bringing values to the sites of a table.

Every pass over the frame slots freezes what it settles. After the last one each live value is at
the site that its entry names, and the resource that the entry names is frozen.
-/
namespace Lowering

open State Build

def Site.Names (g : FrameGeometry) (x : Site) : ResourceId → Prop
  | .register n => x.mask g = .register n
  | .slot k => x.mask g = .slot k

instance (g : FrameGeometry) (x : Site) (id : ResourceId) : Decidable (x.Names g id) :=
  match id with
  | .register n => inferInstanceAs (Decidable (x.mask g = .register n))
  | .slot k => inferInstanceAs (Decidable (x.mask g = .slot k))

theorem satisfiesRegister {g : FrameGeometry} {y : Site} {n : Register}
    (meets : y.satisfies g (.register n) = true) :
    ∃ mask, y = .register mask (some n) := by
  cases y with
  | register mask number =>
    cases number with
    | none => cases meets
    | some m =>
      simp only [Site.satisfies, SiteMask.register, Bool.and_eq_true] at meets
      rw [RegisterSet.hasSingle meets.2]
      exact ⟨mask, rfl⟩
  | constant p => exact absurd meets (by simp [Site.satisfies, SiteMask.register,
      SiteMask.accepts, show KindSet.has OperandKind.register.bit .constant = false by decide])
  | address p => exact absurd meets (by simp [Site.satisfies, SiteMask.register,
      SiteMask.accepts, show KindSet.has OperandKind.register.bit .address = false by decide])
  | memory m acquired => exact absurd meets (by simp [Site.satisfies, SiteMask.register])

theorem satisfiesSlot {g : FrameGeometry} {y : Site} {k : Nat}
    (meets : y.satisfies g (.slot k) = true) :
    ∃ m acquired, y = .memory m acquired ∧ m.base = g.stack ∧ m.offset = g.offset k := by
  cases y with
  | memory m acquired =>
    simp only [Site.satisfies, SiteMask.slot, Bool.and_eq_true, beq_iff_eq] at meets
    exact ⟨m, acquired, rfl, meets.2.1, meets.2.2⟩
  | constant p => exact absurd meets (by simp [Site.satisfies, SiteMask.slot,
      SiteMask.accepts, show KindSet.has OperandKind.memory.bit .constant = false by decide])
  | address p => exact absurd meets (by simp [Site.satisfies, SiteMask.slot,
      SiteMask.accepts, show KindSet.has OperandKind.memory.bit .address = false by decide])
  | register mask number =>
    cases number with
    | none => cases meets
    | some n => exact absurd meets (by simp [Site.satisfies, SiteMask.slot, SiteMask.accepts,
        show KindSet.has OperandKind.memory.bit .register = false by decide])

section

variable {s s' t : State} {x y : Site} {id : ResourceId} {v : ValueId} {i : SiteId}
  {lent : List Register}

theorem standsOfNames {g : FrameGeometry} (names : x.Names g id)
    (meets : y.satisfies g (x.mask g) = true) : (y.resource? g).isSome = true := by
  cases id with
  | register n =>
    rw [show x.mask g = _ from names] at meets
    obtain ⟨mask, rfl⟩ := satisfiesRegister meets
    rfl
  | slot k =>
    rw [show x.mask g = _ from names] at meets
    obtain ⟨m, acquired, rfl, base, -⟩ := satisfiesSlot meets
    simp [Site.resource?, base]

theorem resourceOfNames (formed : s.WellFormed) (has : s.resources.Has id)
    (names : x.Names s.geometry id) (meets : y.satisfies s.geometry (x.mask s.geometry) = true) :
    y.resource? s.geometry = some id := by
  cases id with
  | register n =>
    rw [show x.mask s.geometry = _ from names] at meets
    obtain ⟨mask, rfl⟩ := satisfiesRegister meets
    rfl
  | slot k =>
    rw [show x.mask s.geometry = _ from names] at meets
    obtain ⟨m, acquired, rfl, base, offset⟩ := satisfiesSlot meets
    have inside : k < s.resources.slots.length := has
    have bound : (k + s.geometry.footer) * wordSize < modulus 32 :=
      Nat.lt_of_lt_of_le (Nat.mul_lt_mul_of_pos_right (by omega) (by decide)) formed.frame
    simp [Site.resource?, base, offset, s.geometry.indexOffset bound]

theorem copyOfNames {g : FrameGeometry} (names : x.Names g id) :
    (∃ mask, x.copy = .register mask none) ∨ (x.copy.resource? g).isSome = true := by
  cases x with
  | register mask number => cases number <;> exact .inl ⟨_, rfl⟩
  | memory m acquired =>
    right
    cases id with
    | register n =>
      simp only [Site.Names, Site.mask, SiteMask.register] at names
      split at names
      · simp at names
      · simp at names
    | slot k =>
      have slot : (Site.memory m acquired).slot? g ≠ none := by
        intro none
        simp only [Site.Names, Site.mask, none, SiteMask.slot, SiteMask.mk.injEq] at names
        cases names.2.2
      simp only [Site.slot?, ne_eq, ite_eq_right_iff, reduceCtorEq, imp_false, not_not,
        Bool.and_eq_true, beq_iff_eq] at slot
      simp [Site.copy, Site.ofMemory, Site.resource?, slot.1]
  | constant p =>
    cases id with
    | register n =>
      simp only [Site.Names, Site.mask, SiteMask.register, SiteMask.mk.injEq] at names
      exact absurd names.1 (by decide)
    | slot k =>
      simp only [Site.Names, Site.mask, SiteMask.slot, SiteMask.mk.injEq] at names
      exact absurd names.1 (by decide)
  | address p =>
    cases id with
    | register n =>
      simp only [Site.Names, Site.mask, SiteMask.register, SiteMask.mk.injEq] at names
      exact absurd names.1 (by decide)
    | slot k =>
      simp only [Site.Names, Site.mask, SiteMask.slot, SiteMask.mk.injEq] at names
      exact absurd names.1 (by decide)

/-! What a pass keeps. -/

structure Settles (lent : List Register) (s s' : State) : Prop where
  tracked : s'.Tracked lent []
  extend : Extends s s'
  aligned : s'.Aligned
  freezes : ∀ id, (s.resources.get id).freezes ≤ (s'.resources.get id).freezes

theorem Settles.refl (tracked : s.Tracked lent []) (aligned : s.Aligned) : Settles lent s s :=
  ⟨tracked, .refl s, aligned, fun _ => le_rfl⟩

theorem Settles.trans (first : Settles lent s t) (second : Settles lent t s') :
    Settles lent s s' :=
  ⟨second.tracked, first.extend.trans second.extend, second.aligned,
    fun id => (first.freezes id).trans (second.freezes id)⟩

theorem settlesMoves {old : Nat} {kept : List SiteId} (run : Moves old kept [] s [] s')
    (h : s.Tracked lent []) (aligned : s.Aligned) : Settles lent s s' :=
  ⟨run.tracked h (by simp), run.keeps.extends, run.aligned h.formed aligned,
    fun id => (run.keeps.resources.freezes id).ge⟩

theorem settlesFreeze (h : s.Tracked lent []) (aligned : s.Aligned)
    (stands : (s.resource? i).isSome = true) : Settles lent s (s.freezeSite i) := by
  obtain ⟨id, names⟩ := Option.isSome_iff_exists.mp stands
  have frozen := h.freeze i
  simp only [bound, names, List.nil_append] at frozen
  refine ⟨frozen, s.extendsFreeze i, aligned.freeze h.formed i, fun id => ?_⟩
  rw [freezeSiteFreezes]
  exact Nat.le_add_right _ _

theorem thawTracked (h : s.Tracked lent []) (stands : (s.resource? i).isSome = true) :
    (s.thawSite i).Tracked lent [] := by
  obtain ⟨id, names⟩ := Option.isSome_iff_exists.mp stands
  refine Tracked.thaw (i := i) ?_
  simpa only [bound, names, List.nil_append] using h

def State.Stand (s : State) (sites : List SiteId) : Prop :=
  ∀ i ∈ sites, s.IsSite i ∧ (s.resource? i).isSome = true

theorem Stand.extends {sites : List SiteId} (stand : s.Stand sites) (extend : Extends s s') :
    s'.Stand sites := by
  intro i inside
  obtain ⟨known, stands⟩ := stand i inside
  refine ⟨extend.isSite known, ?_⟩
  rw [extend.resource known]
  exact stands

theorem thawSitesTracked (sites : List SiteId) (h : s.Tracked lent []) (aligned : s.Aligned)
    (stand : s.Stand sites) : (s.thawSites sites).Tracked lent [] ∧ (s.thawSites sites).Aligned ∧
      Extends s (s.thawSites sites) := by
  induction sites with
  | nil => exact ⟨h, aligned, .refl s⟩
  | cons i rest ih =>
    obtain ⟨tracked, aligned', extend⟩ := ih fun j inside => stand j (List.mem_cons_of_mem _ inside)
    have stands := (Stand.extends stand extend i List.mem_cons_self).2
    exact ⟨thawTracked tracked stands, aligned'.thaw tracked.formed i,
      extend.trans (extendsThaw _ i)⟩

/-! One slot. -/

def meetEntry (v : ValueId) (x : Site) (reserve : Nat) : Build SiteId := do
  let r ← probe v (x.mask (← get).geometry)
  hold (← settle r true reserve)

theorem probeEntry {old : Nat} {kept : List SiteId} (value : s.IsValue v) (mask : SiteMask) :
    Moves old kept [] s [] { s with reads := (s.reads.single v mask (some v)).2 } ∧
      State.SingleReads { s with reads := (s.reads.single v mask (some v)).2 }
        [(s.reads.single v mask (some v)).1] := by
  have pushed := ReadTable.pushedKind s.reads v mask (some v)
  have reader : (s.reads.single v mask (some v)).2.value (s.reads.single v mask (some v)).1 = v :=
    congrArg Read.value pushed
  refine ⟨.ask _ s.statistics s.resources.available (ReadTable.evolvesPush _ _ _ _), fun r member => ?_⟩
  rw [List.mem_singleton.mp member]
  exact ⟨reader.symm ▸ value, _, _, _, congrArg Read.kind pushed⟩

theorem meetEntryMoves {old : Nat} {kept : List SiteId} {reserve : Nat} (ready : Ready old s kept [])
    (value : s.IsValue v) (ok : meetEntry v x reserve s = .ok i s') :
    ∃ t, Moves old kept [] s [] t ∧ s' = t.freezeSite i ∧ t.IsSite i ∧
      (∃ m ∈ t.ring v, i ∈ (t.value m).sites) ∧
      (t.site i).satisfies t.geometry (x.mask t.geometry) = true := by
  simp only [meetEntry, probe, hold, getBind, modifyGetBind, bindOk, modifyOk, pureOk] at ok
  obtain ⟨j, t, settled, ⟨⟩, u, rfl, rfl, rfl⟩ := ok
  obtain ⟨asked, single⟩ : Moves old kept [] s [] _ ∧ _ := probeEntry value (x.mask s.geometry)
  have pushed := ReadTable.pushedKind s.reads v (x.mask s.geometry) (some v)
  have kind := congrArg Read.kind pushed
  have reader : (s.reads.single v (x.mask s.geometry) (some v)).2.value
      (s.reads.single v (x.mask s.geometry) (some v)).1 = v := congrArg Read.value pushed
  obtain ⟨moves, known, own, successor, next, kind', held, meets⟩ :=
    settleSpec (ready.moves asked) single settled
  have run := asked.trans moves
  cases (moves.keeps.reads.single kind).symm.trans kind'
  rw [moves.keeps.reads.value _ (ReadTable.isReadOfPending (.single kind)), reader] at held
  refine ⟨t, run, rfl, known, held, ?_⟩
  rw [run.keeps.geometry] at meets ⊢
  exact meets

theorem meetEntrySpec {reserve : Nat} (h : s.Tracked lent []) (aligned : s.Aligned)
    (value : s.IsValue v) (names : x.Names s.geometry id)
    (ok : meetEntry v x reserve s = .ok i s') :
    Settles lent s s' ∧ s'.Stand [i] ∧
      ∀ id, x.Names s.geometry id → s.resources.Has id → s.Free id →
        0 < (s'.resources.get id).freezes := by
  obtain ⟨t, run, rfl, known, -, meets⟩ := meetEntryMoves (h.ready (Nat.zero_le _)) value ok
  have first := settlesMoves run h aligned
  have names' : x.Names t.geometry id := by
    rw [run.keeps.geometry]
    exact names
  have stands : (t.resource? i).isSome = true := standsOfNames names' meets
  refine ⟨first.trans (settlesFreeze first.tracked first.aligned stands), ?_, ?_⟩
  · intro k member
    rw [List.mem_singleton.mp member]
    exact ⟨(t.freezeSiteIsSite i i).mpr known, by rw [freezeSiteResource]; exact stands⟩
  · intro other named has free
    have has' := (run.keeps.has other).mpr has
    have free' := (run.keeps.free other).mpr free
    have resource : t.resource? i = some other := by
      refine resourceOfNames first.tracked.formed has' ?_ meets
      rw [run.keeps.geometry]
      exact named
    rw [freezeSiteFreezes, if_pos ⟨resource, has', free'⟩]
    exact Nat.succ_pos _

theorem Seizes.unlisted {old : Nat} {o : Owner} (h : Seizes old [] [] s id o t)
    (early : i.index < old) (fresh : s.Unlisted i) : t.Unlisted i := by
  cases h with
  | reserved => exact fresh
  | taken free run vacates =>
    exact fun w listed => run.keepsUnlisted early fresh w (vacates.listed listed)

theorem Seizes.aligned {old : Nat} {o : Owner} (h : Seizes old [] [] s id o t)
    (formed : s.WellFormed) (aligned : s.Aligned) : t.Aligned := by
  cases h with
  | reserved => exact aligned
  | @taken t u free run vacates =>
    have after := (run.aligned formed aligned).fewer (run.wellFormed formed) vacates.keeps.geometry
      vacates.keeps.place fun _ _ => vacates.listed
    exact fun w j inside => after w j inside

theorem extendsSetSite {r : State} (extend : Extends r s) (new : ¬ r.IsSite i) (y : Site) :
    Extends r (s.setSite i y) := by
  refine ⟨?_, extend.size, extend.value, ?_, fun j known => ?_, extend.reads, extend.shape,
    extend.reserved⟩
  · rw [extend.rest]
    rfl
  · rw [sizeSetSite]
    exact extend.sites
  · rw [siteSet, if_neg]
    · exact extend.place j known
    · rintro ⟨rfl, -⟩
      exact new known

theorem Acquires.extends {old : Nat} {kept hollow : List SiteId} {r : State}
    (h : Acquires old kept hollow s v i t) (extend : Extends r s) (new : ¬ r.IsSite i) :
    Extends r t ∧ ∀ id, (t.resources.get id).freezes = (s.resources.get id).freezes := by
  have reached := s.keepsReach i
  cases h with
  | bare names closed =>
    exact ⟨extendsSetSite (extend.trans reached.extends) new _, reached.resources.freezes⟩
  | named names seizes =>
    have keeps := reached.trans seizes.keeps
    exact ⟨extendsSetSite (extend.trans keeps.extends) new _, keeps.resources.freezes⟩
  | settled site available seizes =>
    exact ⟨extendsSetSite (extend.trans seizes.keeps.extends) new _, seizes.keeps.resources.freezes⟩

structure Obtained (r s : State) (i : SiteId) (t : State) : Prop where
  extend : Extends r t
  freezes : ∀ id, (t.resources.get id).freezes = (s.resources.get id).freezes
  aligned : t.Aligned
  unlisted : t.Unlisted i
  stands : (t.resource? i).isSome = true

theorem Acquires.obtained {old : Nat} {r : State} (h : Acquires old [] [] s v i t)
    (extend : Extends r s) (new : ¬ r.IsSite i) (known : s.IsSite i) (early : i.index < old)
    (formed : s.WellFormed) (aligned : s.Aligned) (fresh : s.Unlisted i)
    (stands : (∃ mask, s.site i = .register mask none) ∨ (s.resource? i).isSome = true) :
    Obtained r s i t := by
  have set : ∀ (t' : State) (y : Site), t'.Aligned → t'.Unlisted i → (t'.setSite i y).Aligned := by
    intro t' y aligned unlisted w j inside
    have other : j ≠ i := by
      rintro rfl
      exact unlisted w inside
    rw [siteSet, if_neg fun both => other both.1]
    exact aligned w j inside
  have reached := s.keepsReach i
  have formed' := reached.wellFormed formed formed.listed
  have aligned' : (s.reach i).Aligned := fun w j inside => aligned w j inside
  obtain ⟨later, freezes⟩ := h.extends extend new
  cases h with
  | bare names closed =>
    rcases stands with ⟨mask, site⟩ | stands
    · exact absurd site (closed mask)
    · rw [names] at stands
      cases stands
  | @named id t names seizes =>
    have keeps := reached.trans seizes.keeps
    have unlisted := seizes.unlisted early fresh
    refine ⟨later, freezes, set _ _ (seizes.aligned formed' aligned') unlisted, unlisted, ?_⟩
    have set := keepsSetSite t i ((Site.placeTaken _).trans (keeps.place i known).symm)
    rw [set.resource (keeps.isSite known), keeps.resource known, names]
    rfl
  | @settled mask n t site available seizes =>
    have keeps := seizes.keeps
    have unlisted := seizes.unlisted early fresh
    refine ⟨later, freezes, set _ _ (seizes.aligned formed aligned) unlisted, unlisted, ?_⟩
    rw [State.resource?, siteSet, if_pos ⟨rfl, keeps.isSite known⟩]
    rfl

def emptyEntry (x : Site) : Build SiteId := do
  let v ← modifyGet (·.newValue .general)
  let i ← modifyGet (·.newSite x.copy)
  place v i
  modify (·.removeSite v i)
  hold i

structure Prepared (lent : List Register) (s : State) (x : Site) (v : ValueId) (i : SiteId)
    (t : State) : Prop where
  tracked : t.Tracked lent []
  extend : Extends s t
  new : ¬ s.IsSite i
  value : t.IsValue v
  known : t.IsSite i
  site : t.site i = x.copy
  sites : ∀ w, (t.value w).sites = (s.value w).sites
  resources : t.resources = s.resources

theorem Prepared.fresh (h : s.Tracked lent []) (prepared : Prepared lent s x v i t) :
    t.Unlisted i := by
  intro w listed
  rw [prepared.sites] at listed
  exact prepared.new (h.formed.listed w i listed)

theorem preparedNew (h : s.Tracked lent []) (x : Site) :
    Prepared lent s x (s.newValue .general).1 ((s.newValue .general).2.newSite x.copy).1
      ((s.newValue .general).2.newSite x.copy).2 := by
  have created := h.newValue .general
  refine ⟨created.still (keepsNewSite _ x.copy) (fun _ => rfl) (fun j => siteNewOld _ x.copy)
    fun _ => rfl, (s.extendsNewValue .general).trans (keepsNewSite _ x.copy).extends, ?_, ?_, ?_,
    siteNewSelf _ _, s.sitesNewValue .general, rfl⟩
  · simp [IsSite, newSite, State.newValue]
  · simp [IsValue, newSite, State.newValue]
  · simp [IsSite, newSite]

theorem emptyEntryActs (h : s.Tracked lent []) (ok : emptyEntry x s = .ok i s') :
    ∃ v s₁ t, Prepared lent s x v i s₁ ∧ acquire v i s₁ = .ok () t ∧
      (t.enlist v i).Tracked lent [] ∧ s' = ((t.enlist v i).removeSite v i).freezeSite i := by
  simp only [emptyEntry, hold, modifyGetBind, bindOk, modifyOk, pureOk] at ok
  obtain ⟨⟨⟩, u, placed, ⟨⟩, w, rfl, ⟨⟩, w', rfl, here, rfl⟩ := ok
  have prepared := preparedNew h x
  rw [here] at prepared placed
  have fresh := prepared.fresh h
  generalize ((s.newValue .general).2.newSite x.copy).2 = s₁ at *
  generalize (s.newValue .general).1 = v at *
  have after := (placeTracked prepared.tracked prepared.value prepared.known
    (fun w listed => absurd listed (fresh w)) placed).1
  simp only [place, placeWith, getBind] at placed
  rw [if_neg (by simpa using fresh v)] at placed
  simp only [bindOk, modifyOk] at placed
  obtain ⟨⟨⟩, t, acquired, rfl⟩ := placed
  refine ⟨v, s₁, t, prepared, acquired, after, ?_⟩
  rw [here, State.enlist]

theorem emptiedListed {w : ValueId} {k : SiteId} (value : t.IsValue v)
    (once : (t.enlist v i).ListedOnce)
    (inside : k ∈ (((t.enlist v i).removeSite v i).value w).sites) : k ∈ (t.value w).sites := by
  obtain ⟨-, absent⟩ | ⟨m, -, listed, same⟩ := (t.enlist v i).removeSiteCases v i
  · exact absurd ((t.enlistListed value).mpr (.inl ⟨rfl, rfl⟩)) (absent v (selfMemRing _ v))
  · rw [same, detachListed] at inside
    rcases (t.enlistListed value).mp inside.1 with ⟨rfl, rfl⟩ | old
    · have owner := once.apart m w k listed ((t.enlistListed value).mpr (.inl ⟨rfl, rfl⟩))
      exact absurd rfl (inside.2 owner.symm)
    · exact old

theorem emptyEntrySpec (h : s.Tracked lent []) (aligned : s.Aligned)
    (names : x.Names s.geometry id) (ok : emptyEntry x s = .ok i s') :
    Settles lent s s' ∧ s'.Stand [i] := by
  obtain ⟨v, s₁, t, prepared, acquired, after, rfl⟩ := emptyEntryActs h ok
  have fresh := prepared.fresh h
  have aligned' : s₁.Aligned := aligned.fewer h.formed prepared.extend.geometry prepared.extend.place
    fun w j inside => by rwa [prepared.sites] at inside
  have stands : (∃ mask, s₁.site i = .register mask none) ∨ (s₁.resource? i).isSome = true := by
    rw [State.resource?, prepared.site, prepared.extend.geometry]
    exact copyOfNames names
  have acquires := acquireAcquires prepared.tracked acquired
  have obtained := acquires.obtained prepared.extend prepared.new prepared.known prepared.known
    prepared.tracked.formed aligned' fresh stands
  have value' : t.IsValue v := by
    rw [IsValue, acquires.size]
    exact prepared.value
  have keeps := (t.keepsEnlist v i).trans ((t.enlist v i).keepsRemoveSite v i)
  have site' : t.IsSite i := by
    by_contra outside
    have stands := obtained.stands
    have default : t.site i = default := by
      simp only [IsSite, Nat.not_lt] at outside
      simp [State.site, Array.getD, Nat.not_lt.mpr outside]
    rw [State.resource?, default] at stands
    cases stands
  have settled : Settles lent s ((t.enlist v i).removeSite v i) := by
    refine ⟨after.removeSite v i, obtained.extend.trans keeps.extends, ?_, fun id => ?_⟩
    · intro w j inside
      have before := emptiedListed value' after.once inside
      have there : t.IsSite j :=
        after.formed.listed w j ((t.enlistListed value').mpr (.inr before))
      exact (alignedCongr keeps.geometry (keeps.place j there)).mpr (obtained.aligned w j before)
    · rw [keeps.resources.freezes, obtained.freezes, prepared.resources]
  have stands' : (((t.enlist v i).removeSite v i).resource? i).isSome = true := by
    rw [keeps.resource site']
    exact obtained.stands
  refine ⟨settled.trans (settlesFreeze settled.tracked settled.aligned stands'), ?_⟩
  intro k member
  rw [List.mem_singleton.mp member]
  exact ⟨(freezeSiteIsSite _ i i).mpr (keeps.isSite site'), by rw [freezeSiteResource]; exact stands'⟩

def State.present (s : State) : Option ValueId → Option ValueId × State
  | some v => (if (s.isLive v).1 then some v else none, (s.isLive v).2)
  | none => (none, s)

def conformPresent (j : JunctionId) (c : Conformed) (k : Nat) : Option ValueId → Build Conformed
  | some v => do
    match (← get).tableEntry j k with
    | some x => do
      let i ← meetEntry v x (← get).settings.resolveReserve
      return { c with frozen := c.frozen ++ [i] }
    | none => return { c with complete := false }
  | none => do
    match (← get).tableEntry j k with
    | some x => do
      let i ← emptyEntry x
      return { c with frozen := c.frozen ++ [i] }
    | none => return c

variable {j : JunctionId} {slot : FrameElement} {c c' : Conformed}

theorem conformSlotEq : conformSlot j c slot s =
    conformPresent j c slot.slot (s.present slot.value).1 (s.present slot.value).2 := by
  unfold conformSlot conformPresent State.present
  cases slot.value with
  | none =>
    simp only [pureBind, getBind]
    cases s.tableEntry j slot.slot with
    | none => rfl
    | some x =>
      simp only [emptyEntry, bind_assoc]
      rfl
  | some v =>
    simp only [live, modifyGetBind, getBind]
    cases (s.isLive v).1 with
    | true =>
      simp only [if_true, getBind]
      cases (s.isLive v).2.tableEntry j slot.slot with
      | none => rfl
      | some x => simp only [meetEntry, bind_assoc, getBind]
    | false =>
      simp only [Bool.false_eq_true, if_false, getBind]
      cases (s.isLive v).2.tableEntry j slot.slot with
      | none => rfl
      | some x => simp only [emptyEntry, bind_assoc]

theorem presentSpec {old : Nat} {kept hollow : List SiteId} (formed : s.WellFormed)
    (value : Option ValueId) : Moves old kept hollow s hollow (s.present value).2 ∧
      ∀ v, (s.present value).1 = some v ↔ value = some v ∧ s.Live v := by
  cases value with
  | none => exact ⟨.refl _ _ _, by simp [State.present]⟩
  | some w =>
    obtain ⟨reads, state, evolves, -⟩ := liveReadSpec formed w
    refine ⟨?_, fun v => ?_⟩
    · show Moves old kept hollow s hollow (s.isLive w).2
      rw [isLiveState, state]
      exact .ask reads s.statistics s.resources.available evolves
    · have same : (s.present (some w)).1 = if s.Live w then some w else none := rfl
      rw [same]
      by_cases alive : s.Live w
      · simp only [alive, if_true, Option.some.injEq]
        constructor
        · rintro rfl
          exact ⟨rfl, alive⟩
        · exact fun both => both.1
      · simp only [alive, if_false, Option.some.injEq, reduceCtorEq, false_iff, not_and]
        rintro rfl
        exact alive

theorem conformSlotSpec (h : s.Tracked lent []) (aligned : s.Aligned)
    (known : ∀ v, slot.value = some v → s.IsValue v)
    (named : ∀ x, s.tableEntry j slot.slot = some x → ∃ id, x.Names s.geometry id)
    (ok : conformSlot j c slot s = .ok c' s') :
    Settles lent s s' ∧ (s.Stand c.frozen → s'.Stand c'.frozen) ∧
      (∀ v x id, slot.value = some v → s.Live v → s.tableEntry j slot.slot = some x →
        x.Names s.geometry id → s.resources.Has id → s.Free id →
          0 < (s'.resources.get id).freezes) ∧
      (c'.complete = true → c.complete = true ∧ ∀ v, slot.value = some v → s.Live v →
        (s.tableEntry j slot.slot).isSome = true) := by
  obtain ⟨asked, present⟩ : Moves 0 [] [] s [] _ ∧ _ := presentSpec h.formed slot.value
  have first := settlesMoves asked h aligned
  have keeps := asked.keeps
  rw [conformSlotEq] at ok
  generalize (s.present slot.value).2 = t at *
  have entry := first.extend.tableEntry j slot.slot
  have stand : ∀ {u : State} {i : SiteId}, Settles lent t u → u.Stand [i] → s.Stand c.frozen →
      u.Stand (c.frozen ++ [i]) := by
    intro u i settles stands before k member
    rcases List.mem_append.mp member with old | new
    · exact Stand.extends before (first.extend.trans settles.extend) k old
    · exact stands k new
  cases who : (s.present slot.value).1 with
  | none =>
    have dead : ∀ v, slot.value = some v → ¬ s.Live v := by
      intro v here alive
      have found := (present v).mpr ⟨here, alive⟩
      rw [who] at found
      cases found
    simp only [who, conformPresent, getBind, entry] at ok
    cases there : s.tableEntry j slot.slot with
    | none =>
      simp only [there, pureOk] at ok
      obtain ⟨rfl, rfl⟩ := ok
      exact ⟨first, fun before => Stand.extends before first.extend, by simp,
        fun complete => ⟨complete, fun v here alive => absurd alive (dead v here)⟩⟩
    | some x =>
      simp only [there, bindOk, pureOk] at ok
      obtain ⟨i, u, emptied, rfl, rfl⟩ := ok
      obtain ⟨id, names⟩ := named x there
      rw [← keeps.geometry] at names
      obtain ⟨settles, stands⟩ := emptyEntrySpec first.tracked first.aligned names emptied
      exact ⟨first.trans settles, stand settles stands,
        fun v _ _ here alive => absurd alive (dead v here),
        fun complete => ⟨complete, fun v here alive => absurd alive (dead v here)⟩⟩
  | some v =>
    obtain ⟨here, alive⟩ := (present v).mp who
    simp only [who, conformPresent, getBind, entry] at ok
    cases there : s.tableEntry j slot.slot with
    | none =>
      simp only [there, pureOk] at ok
      obtain ⟨rfl, rfl⟩ := ok
      exact ⟨first, fun before => Stand.extends before first.extend, by simp,
        fun complete => by cases complete⟩
    | some x =>
      simp only [there] at ok
      rw [getBind] at ok
      simp only [bindOk, pureOk] at ok
      obtain ⟨i, u, met, rfl, rfl⟩ := ok
      obtain ⟨id, names⟩ := named x there
      rw [← keeps.geometry] at names
      obtain ⟨settles, stands, frozen⟩ := meetEntrySpec first.tracked first.aligned
        ((keeps.isValue v).mpr (known v here)) names met
      refine ⟨first.trans settles, stand settles stands, ?_, fun complete => ⟨complete, by simp⟩⟩
      intro w y id _ _ same names has free
      cases same
      rw [← keeps.geometry] at names
      exact frozen id names ((keeps.has id).mpr has) ((keeps.free id).mpr free)

/-! All slots. -/

theorem conformPassSpec (slots : List FrameElement) : ∀ {s : State} {c : Conformed},
    s.Tracked lent [] → s.Aligned →
    (∀ slot ∈ slots, ∀ v, slot.value = some v → s.IsValue v) →
    (∀ slot ∈ slots, ∀ x, s.tableEntry j slot.slot = some x → ∃ id, x.Names s.geometry id) →
    slots.foldlM (conformSlot j) c s = .ok c' s' →
    Settles lent s s' ∧ (s.Stand c.frozen → s'.Stand c'.frozen) ∧
      (∀ slot ∈ slots, ∀ v x id, slot.value = some v → s.Live v →
        s.tableEntry j slot.slot = some x → x.Names s.geometry id → s.resources.Has id →
        s.Free id → 0 < (s'.resources.get id).freezes) ∧
      (c'.complete = true → c.complete = true ∧ ∀ slot ∈ slots, ∀ v, slot.value = some v →
        s.Live v → (s.tableEntry j slot.slot).isSome = true) := by
  induction slots with
  | nil =>
    intro s c h aligned _ _ ok
    obtain ⟨rfl, rfl⟩ := pureOk.mp ok
    exact ⟨.refl h aligned, id, by simp, fun complete => ⟨complete, by simp⟩⟩
  | cons slot rest ih =>
    intro s c h aligned known named ok
    rw [List.foldlM_cons] at ok
    obtain ⟨d, t, first, later⟩ := bindOk.mp ok
    obtain ⟨settles, stand, frozen, complete⟩ := conformSlotSpec h aligned
      (known slot List.mem_cons_self) (named slot List.mem_cons_self) first
    have extend := settles.extend
    have live : ∀ {v}, s.IsValue v → (t.Live v ↔ s.Live v) :=
      fun there => extend.live h.formed settles.tracked.formed there
    have known' : ∀ slot ∈ rest, ∀ v, slot.value = some v → s.IsValue v :=
      fun other member => known other (List.mem_cons_of_mem _ member)
    obtain ⟨settles', stand', frozen', complete'⟩ := ih settles.tracked settles.aligned
      (fun other member v here => extend.isValue (known' other member v here))
      (fun other member x there => by
        rw [extend.tableEntry] at there
        rw [extend.geometry]
        exact named other (List.mem_cons_of_mem _ member) x there) later
    refine ⟨settles.trans settles', fun before => stand' (stand before), ?_, fun all => ?_⟩
    · intro other member v x id here alive there names has free
      rcases List.mem_cons.mp member with rfl | member
      · exact (frozen v x id here alive there names has free).trans_le (settles'.freezes id)
      · refine frozen' other member v x id here ((live (known' other member v here)).mpr alive) ?_ ?_
          ((extend.has id).mpr has) ((extend.free id).mpr free)
        · rwa [extend.tableEntry]
        · rwa [extend.geometry]
    · obtain ⟨mid, entries⟩ := complete' all
      obtain ⟨start, entry⟩ := complete mid
      refine ⟨start, fun other member v here alive => ?_⟩
      rcases List.mem_cons.mp member with rfl | member
      · exact entry v here alive
      · rw [← extend.tableEntry]
        exact entries other member v here ((live (known' other member v here)).mpr alive)

def State.Meets (s : State) (v : ValueId) (x : Site) : Prop :=
  ∃ m ∈ s.ring v, ∃ i ∈ (s.value m).sites,
    (s.site i).satisfies s.geometry (x.mask s.geometry) = true

instance (s : State) (v : ValueId) (x : Site) : Decidable (s.Meets v x) :=
  inferInstanceAs (Decidable (∃ _ ∈ _, ∃ _ ∈ _, _))

theorem isSettledSpec {answer : Bool} (slots : List FrameElement) : ∀ {s s' : State},
    s.WellFormed → isSettled j slots s = .ok answer s' →
    ∃ reads, s' = { s with reads } ∧ s.reads.Evolves reads ∧ (answer = true → ∀ slot ∈ slots,
      ∀ v x, slot.value = some v → s.tableEntry j slot.slot = some x → s.Live v →
        s.Meets v x) := by
  induction slots with
  | nil =>
    intro s s' _ ok
    obtain ⟨-, rfl⟩ := pureOk.mp ok
    exact ⟨s.reads, rfl, .refl _, by simp⟩
  | cons slot rest ih =>
    intro s s' formed ok
    have skip : ∀ {reads : ReadTable}, s.reads.Evolves reads →
        isSettled j rest { s with reads } = .ok answer s' →
        (∀ v x, slot.value = some v → s.tableEntry j slot.slot = some x → s.Live v →
          s.Meets v x) →
        ∃ reads, s' = { s with reads } ∧ s.reads.Evolves reads ∧ (answer = true →
          ∀ other ∈ slot :: rest, ∀ v x, other.value = some v →
            s.tableEntry j other.slot = some x → s.Live v → s.Meets v x) := by
      intro reads evolves later here
      have keeps := s.keepsReads evolves
      have formed' := keeps.wellFormed formed formed.listed
      obtain ⟨reads', state, evolves', there⟩ := ih formed' later
      refine ⟨reads', state, evolves.trans evolves', ?_⟩
      intro yes other member v x value entry alive
      rcases List.mem_cons.mp member with rfl | member
      · exact here v x value entry alive
      · obtain ⟨m, inRing, i, listed, meets⟩ := there yes other member v x value entry
          ((keeps.live formed formed' v).mpr alive)
        rw [keeps.ring] at inRing
        exact ⟨m, inRing, i, listed, meets⟩
    unfold isSettled at ok
    cases value : slot.value with
    | none =>
      simp only [value, getBind] at ok
      exact skip (.refl _) ok (by simp [value])
    | some v =>
      simp only [value, getBind] at ok
      cases entry : s.tableEntry j slot.slot with
      | none =>
        simp only [entry] at ok
        exact skip (.refl _) ok (by simp [entry])
      | some x =>
        obtain ⟨reads, state, evolves, -⟩ := liveReadSpec formed v
        simp only [entry, live, modifyGetBind, isLiveState, state, getBind] at ok
        split at ok
        · obtain ⟨rfl, rfl⟩ := pureOk.mp ok
          exact ⟨reads, rfl, evolves, by simp⟩
        · rename_i fine
          refine skip evolves ok ?_
          intro w y same same' alive
          cases value.symm.trans same
          cases entry.symm.trans same'
          have held : ({ s with reads }.placements v).any (fun o => ({ s with reads }.site
              o.site).satisfies s.geometry (x.mask s.geometry)) = true := by
            have alive' : (s.isLive v).1 = true := alive
            simpa [alive'] using fine
          obtain ⟨o, placed, meets⟩ := List.any_eq_true.mp held
          obtain ⟨inRing, listed⟩ := memPlacements.mp placed
          rw [(s.keepsReads evolves).ring] at inRing
          exact ⟨o.value, inRing, o.site, listed, meets⟩

/-- The values after an event are at the entries of the table, as far as it has some, and the
places of the entries are frozen. -/
structure Conforms (lent : List Register) (s : State) (j : JunctionId)
    (slots : List FrameElement) (s' : State) : Prop where
  tracked : s'.Tracked lent []
  extend : Extends s s'
  aligned : s'.Aligned
  frozen : ∀ slot ∈ slots, ∀ v x id, slot.value = some v → s.Live v →
    s.tableEntry j slot.slot = some x → x.Names s.geometry id → s.resources.Has id → s.Free id →
      0 < (s'.resources.get id).freezes
  meets : ∀ slot ∈ slots, ∀ v x, slot.value = some v → s.Live v →
    s.tableEntry j slot.slot = some x → s'.Meets v x

theorem conformWithinSpec {e : EventId} {slots : List FrameElement} {bound : Nat} (fuel : Nat) :
    ∀ {s : State}, s.Tracked lent [] → s.Aligned →
    (∀ slot ∈ slots, ∀ v, slot.value = some v → s.IsValue v) →
    (∀ slot ∈ slots, ∀ x, s.tableEntry j slot.slot = some x → ∃ id, x.Names s.geometry id) →
    conformWithin e j slots bound fuel s = .ok c' s' →
    Conforms lent s j slots s' ∧ (c'.complete = true → ∀ slot ∈ slots, ∀ v, slot.value = some v →
      s.Live v → (s.tableEntry j slot.slot).isSome = true) := by
  induction fuel with
  | zero =>
    intro s _ _ _ _ ok
    simp [conformWithin] at ok
  | succ fuel ih =>
    intro s h aligned known named ok
    simp only [conformWithin, bindOk] at ok
    obtain ⟨d, t, pass, settled, u, asked, ok⟩ := ok
    obtain ⟨settles, stand, frozen, complete⟩ := conformPassSpec slots h aligned known named pass
    have extend := settles.extend
    have live : ∀ {v}, s.IsValue v → (t.Live v ↔ s.Live v) :=
      fun there => extend.live h.formed settles.tracked.formed there
    obtain ⟨reads, rfl, evolves, there⟩ := isSettledSpec slots settles.tracked.formed asked
    have looked : Moves 0 [] [] t [] { t with reads } :=
      .ask reads t.statistics t.resources.available evolves
    cases settled with
    | true =>
      simp only [if_true, bindOk, modifyOk, pureOk] at ok
      obtain ⟨⟨⟩, w, rfl, rfl, rfl⟩ := ok
      have counted := looked.trans (Moves.count fun n => n.countJunction (bound - fuel))
      have later := settlesMoves counted settles.tracked settles.aligned
      have all := settles.trans later
      refine ⟨⟨all.tracked, all.extend, all.aligned, ?_, ?_⟩, fun whole => (complete whole).2⟩
      · intro slot member v x id value alive entry names has free
        exact (frozen slot member v x id value alive entry names has free).trans_le
          (later.freezes id)
      · intro slot member v x value alive entry
        obtain ⟨m, inRing, i, listed, meets⟩ := there rfl slot member v x value
          (by rwa [extend.tableEntry]) ((live (known slot member v value)).mpr alive)
        rw [← counted.keeps.ring] at inRing
        exact ⟨m, inRing, i, listed, meets⟩
    | false =>
      simp only [Bool.false_eq_true, if_false, modifyBind] at ok
      have later := settlesMoves looked settles.tracked settles.aligned
      have standing := Stand.extends (stand (by simp [State.Stand])) later.extend
      obtain ⟨tracked, aligned', thawed⟩ := thawSitesTracked d.frozen later.tracked later.aligned
        standing
      have extend' := (extend.trans later.extend).trans thawed
      have live' : ∀ {v}, s.IsValue v → (({ t with reads }.thawSites d.frozen).Live v ↔ s.Live v) :=
        fun there => extend'.live h.formed tracked.formed there
      obtain ⟨conforms, entries⟩ := ih tracked aligned'
        (fun slot member v value => extend'.isValue (known slot member v value))
        (fun slot member x entry => by
          rw [extend'.tableEntry] at entry
          rw [extend'.geometry]
          exact named slot member x entry) ok
      refine ⟨⟨conforms.tracked, extend'.trans conforms.extend, conforms.aligned, ?_, ?_⟩, ?_⟩
      · intro slot member v x id value alive entry names has free
        refine conforms.frozen slot member v x id value
          ((live' (known slot member v value)).mpr alive) ?_ ?_ ((extend'.has id).mpr has)
          ((extend'.free id).mpr free)
        · rwa [extend'.tableEntry]
        · rwa [extend'.geometry]
      · intro slot member v x value alive entry
        refine conforms.meets slot member v x value ((live' (known slot member v value)).mpr alive) ?_
        rwa [extend'.tableEntry]
      · intro whole slot member v value alive
        rw [← extend'.tableEntry]
        exact entries whole slot member v value ((live' (known slot member v value)).mpr alive)

theorem conformSpec {e : EventId} (h : s.Tracked lent []) (aligned : s.Aligned)
    (known : ∀ slot ∈ s.slotsAfter e, ∀ v, slot.value = some v → s.IsValue v)
    (named : ∀ slot ∈ s.slotsAfter e, ∀ x, s.tableEntry j slot.slot = some x →
      ∃ id, x.Names s.geometry id) (ok : conform e j s = .ok c' s') :
    Conforms lent s j (s.slotsAfter e) s' ∧ (c'.complete = true → ∀ slot ∈ s.slotsAfter e,
      ∀ v, slot.value = some v → s.Live v → (s.tableEntry j slot.slot).isSome = true) :=
  conformWithinSpec _ h aligned known named ok

end

end Lowering
