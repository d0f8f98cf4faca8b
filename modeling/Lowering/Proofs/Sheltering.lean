import Lowering.Proofs.Beginning
import Lowering.Proofs.Minding
import Lowering.Proofs.Upkeep
/-!
Words in memory while values are moved.

Who has a word off the stack counts as a user of the registers of its address. So the allocator writes none of them,
whatever it moves, and the word is still there afterwards. Events do not ask: a result takes the place of an operand
that is read for the last time, even if a word is addressed through the register.
-/
namespace Lowering

open State Build

variable {s s' t u : State} {lent lent' : List Register} {n : Register} {i j : SiteId} {d : Description}

theorem unownedWord (named : s.Named) (off : s.resource? i = none) : s.Unowned i := by
  intro id o free owner same
  obtain ⟨-, -, names⟩ := named id o free owner
  rw [same, off] at names
  cases names

theorem Site.addressedOfReferred {x : Site} (inside : n ∈ x.referred) : n ∈ x.addressed := by
  cases x with
  | memory m acquired =>
    cases acquired with
    | true => exact inside
    | false => cases inside
  | constant | address | register => cases inside

/- What is guarded stays as it is while something else is seized or acquired. -/
theorem Seizes.leaves {old : Nat} {kept hollow : List SiteId} {id : ResourceId} {o : Owner}
    (h : Seizes old kept hollow s id o t) (inside : i ∈ kept) (known : s.IsSite i) :
    t.site i = s.site i ∧ (s.Records → t.Records) := by
  cases h with
  | reserved => exact ⟨rfl, fun records => records⟩
  | taken free run vacates =>
    refine ⟨(vacates.keptSite inside).trans (run.keptSite inside known), fun records => ?_⟩
    exact ((run.records records).quiet vacates.quiet).quiet rfl

theorem Acquires.leaves {old : Nat} {kept hollow : List SiteId} {v : ValueId}
    (h : Acquires old kept hollow s v j t) (inside : i ∈ kept) (known : s.IsSite i) (other : i ≠ j) :
    t.site i = s.site i ∧ (s.Records → t.Records) ∧ t.geometry = s.geometry ∧ s.resources.SameShape t.resources := by
  have reached := s.keepsReach j
  have set : ∀ (u : State) (x : Site), (u.setSite j x).site i = u.site i := fun u x => by
    rw [siteSet, if_neg fun both => other both.1]
  cases h with
  | bare => exact ⟨set _ _, fun records => records.quiet rfl, reached.geometry, reached.resources.shape⟩
  | named _ seizes =>
    obtain ⟨site, records⟩ := seizes.leaves inside (reached.isSite known)
    have keeps := reached.trans seizes.keeps
    exact ⟨(set _ _).trans site, fun before => (records (before.quiet rfl)).quiet rfl, keeps.geometry,
      keeps.resources.shape⟩
  | settled _ _ seizes =>
    obtain ⟨site, records⟩ := seizes.leaves inside known
    exact ⟨(set _ _).trans site, fun before => (records before).quiet rfl, seizes.keeps.geometry,
      seizes.keeps.resources.shape⟩

/-- The tables agree, and a value has a word off the stack that is addressed through the register. -/
structure State.Addresses (lent : List Register) (n : Register) (i : SiteId) (s : State) : Prop where
  coherent : s.Coherent lent
  records : s.Records
  has : s.resources.Has (.register n)
  pins : s.Pins n i
  off : s.resource? i = none

namespace State.Addresses

theorem tracked (h : Addresses lent n i s) : s.Tracked lent [] := trackedIff.mpr h.coherent

theorem known (h : Addresses lent n i s) : s.IsSite i := by
  obtain ⟨v, listed⟩ := h.pins.listed
  exact h.tracked.formed.listed v i listed

theorem unowned (h : Addresses lent n i s) : s.Unowned i := unownedWord h.tracked.named h.off

theorem shelters (h : Addresses lent n i s) : Shelters 0 n i s [i] [] := by
  refine ⟨⟨h.tracked.formed, h.tracked.named, fun k member => ?_, by simp, Nat.zero_le _⟩,
    ⟨lent, h.tracked, .inr h.pins⟩, h.records, h.has, List.mem_singleton_self i⟩
  rw [List.mem_singleton.mp member]
  exact ⟨h.known, .inr h.unowned⟩

theorem apart (h : Addresses lent n i s) {id : ResourceId} :
    ∀ o, s.Free id → s.owner? id = some o → o.site ∉ [i] := fun o free owner inside =>
  h.unowned id o free owner (List.mem_singleton.mp inside)

/- A step after which the tables agree and the word is where it was. -/
theorem still (h : Addresses lent n i s) (tracked : s'.Tracked lent' []) (unmoved : Unmoved s s')
    (emitter : s'.emitter = s.emitter) : Addresses lent' n i s' where
  coherent := trackedIff.mp tracked
  records := h.records.quiet emitter
  has := (unmoved.shape.has _).mpr h.has
  pins := by
    obtain ⟨v, listed⟩ := h.pins.listed
    refine ⟨⟨v, by rwa [unmoved.sites]⟩, ?_⟩
    rw [unmoved.site i h.known]
    exact h.pins.referred
  off := (unmoved.resource h.known).trans h.off

theorem moves (h : Addresses lent n i s) (run : Moves 0 [i] [] s [] s') : Addresses lent n i s' where
  coherent := trackedIff.mp (run.tracked h.tracked (by simp))
  records := run.records h.records
  has := (run.keeps.has _).mpr h.has
  pins := h.pins.moves run (List.mem_singleton_self i) (run.keptSite (List.mem_singleton_self i) h.known)
  off := (run.keeps.resource h.known).trans h.off

/- Sites are given up or handed to an alias, and somebody still has the word. -/
theorem passes (h : Addresses lent n i s) (passes : Passes s s') (tracked : s'.Tracked lent [])
    (geometry : s'.geometry = s.geometry) (stays : ∃ v, i ∈ (s'.value v).sites) : Addresses lent n i s' where
  coherent := trackedIff.mp tracked
  records := h.records.quiet passes.emitter
  has := (passes.shape.has _).mpr h.has
  pins := by
    refine ⟨stays, ?_⟩
    obtain ⟨v, listed⟩ := stays
    rcases passes.taken v i listed with same | taken
    · rw [same]
      exact h.pins.referred
    · rw [Site.referredTaken taken, Site.addressedOfPlace (passes.place i h.known)]
      exact Site.addressedOfReferred h.pins.referred
  off := by
    have before := h.off
    rw [resource?] at before ⊢
    rw [geometry, Site.resourceOfPlace (passes.place i h.known)]
    exact before

/- Another site is acquired for a value. -/
theorem acquires {v : ValueId} (h : Addresses lent n i s) (value : s.IsValue v) (other : i ≠ j)
    (acquires : Lowering.Acquires 0 [j, i] [] s v j t) (tracked : (t.enlist v j).Tracked lent' []) :
    Addresses lent' n i (t.enlist v j) := by
  obtain ⟨site, records, geometry, shape⟩ := acquires.leaves (by simp) h.known other
  have same : (t.enlist v j).site i = s.site i := site
  refine ⟨trackedIff.mp tracked, (records h.records).quiet rfl, (shape.has _).mpr h.has, ⟨?_, ?_⟩, ?_⟩
  · obtain ⟨w, listed⟩ := h.pins.listed
    have value' : t.IsValue v := by rwa [IsValue, acquires.size]
    exact ⟨w, (t.enlistListed value').mpr (.inr (acquires.keepsListed (by simp) listed))⟩
  · rw [same]
    exact h.pins.referred
  · have before := h.off
    rw [resource?] at before ⊢
    rwa [same, show (t.enlist v j).geometry = s.geometry from geometry]

/-! One thing that the allocator does. -/

theorem evict {id : ResourceId} (h : Addresses lent n i s) (ok : evict id none s = .ok () s') :
    (∀ d, s.Avoids d n s') ∧ Addresses lent n i s' := by
  have away : ∀ k ∈ [i], s.resource? k ≠ some id := by simp [h.off]
  refine ⟨fun d => ?_, h.moves (evictEmpties h.tracked h.shelters.ready away ok).1⟩
  by_cases free : s.Free id
  · exact evictAvoids h.shelters ⟨free, fun o => h.apart o free⟩ ok
  · cases (evictVacant (h.coherent.vacant id free)).symm.trans ok
    exact .refl s

theorem choose {r : ReadId} {found : Option (SiteId × Nat)} (h : Addresses lent n i s) (single : s.SingleReads [r])
    (chosen : s.chooseSource r { strict := true } = (found, s')) : s.Avoids d n s' ∧ Addresses lent n i s' := by
  refine ⟨.quiet ?_, h.moves (chooseSourceSpec h.tracked.formed single chosen).1⟩
  rw [← (Prod.mk.inj chosen).2]
  rfl

theorem relocate {r : ReadId} {strict : Bool} {reserve : Nat} (h : Addresses lent n i s)
    (value : s.IsValue (s.reads.value r)) (ok : relocate r strict reserve s = .ok j s') :
    (∀ d, s.Avoids d n s') ∧ Addresses lent n i s' ∧ s'.resource? j ≠ some (.register n) := by
  have relocated := relocateSpec evictSpec h.shelters.ready value (by simp) ok
  obtain ⟨id, names, available⟩ := relocated.obtained
  refine ⟨fun d => relocateAvoids evictSpec evictAvoids h.shelters value (by simp) ok, h.moves relocated.moves, fun same => ?_⟩
  exact h.shelters.apart available (Option.some.inj (names.symm.trans same))

theorem place {v : ValueId} (h : Addresses lent n i s) (value : s.IsValue v) (there : s.IsSite j)
    (fresh : s.Unlisted j) (ok : place v j s = .ok () s') : (∀ d, s.Avoids d n s') ∧ Addresses lent n i s' := by
  have unowned : s.Unowned j := h.tracked.unowned fresh (by simp)
  have tracked := (placeTracked h.tracked value there (fun w listed => absurd listed (fresh w)) ok).1
  refine ⟨fun d => placeWithAvoids evictAvoids h.shelters there unowned (fun _ o _ => h.apart o) ok, ?_⟩
  have other : i ≠ j := by
    rintro rfl
    obtain ⟨w, listed⟩ := h.pins.listed
    exact fresh w listed
  unfold Lowering.place placeWith at ok
  rw [getBind] at ok
  split at ok
  · rename_i inside
    exact absurd (List.contains_iff_mem.mp inside) (fresh v)
  · obtain ⟨⟨⟩, t, acquired, enlisted⟩ := bindOk.mp ok
    rw [modifyOk] at enlisted
    subst enlisted
    refine h.acquires value other ?_ tracked
    refine acquireSpec evictSpec (h.shelters.reach there unowned).ready (fun id o _ free owner inside => ?_) acquired
    rcases List.mem_cons.mp inside with same | inside
    · exact unowned id o free owner same
    · exact h.apart o free owner inside

theorem consume {e : EventId} (h : Addresses lent n i s) (awaits : s.Awaits e) (closed : ∀ v, s.Closed v)
    (ok : consumeReads e s = .ok () s') (stays : ∃ v, i ∈ (s'.value v).sites) : Addresses lent n i s' := by
  obtain ⟨passes, tracked⟩ := consumeReadsPasses h.tracked awaits closed ok
  have same := ((firmlyConsumeReads e).holds ok).fixed.same
  have geometry : s'.fixture.geometry = s.fixture.geometry := by rw [same]
  exact h.passes passes tracked geometry stays

theorem clean {v : ValueId} {popIndex : Nat} (h : Addresses lent n i s) (value : s.IsValue v)
    (stays : ∃ w, i ∈ ((s.cleanValue v popIndex).value w).sites) : Addresses lent n i (s.cleanValue v popIndex) :=
  h.passes (passesCleanValue h.coherent.once v popIndex) (h.tracked.cleanValue value popIndex)
    (stirsClean v popIndex).geometry stays

/- The event's own request. -/
theorem emit {q : Request} (h : Addresses lent n i s) (ok : emit q s = .ok () s') : Addresses lent n i s' := by
  obtain ⟨rest, records, -⟩ := emitRecords h.records ok
  have keeps : Keeps s s' := rest ▸ keepsEmitter s s'.emitter
  have value : ∀ v, s'.value v = s.value v := fun v => by rw [rest]; rfl
  have site : ∀ k, s'.site k = s.site k := fun k => by rw [rest]; rfl
  have resources : s'.resources = s.resources := by rw [rest]
  refine ⟨trackedIff.mp (h.tracked.still keeps (fun v => by rw [value]) (fun k _ => site k) fun k => by rw [resources]),
    records, resources ▸ h.has, ⟨?_, site i ▸ h.pins.referred⟩, (keeps.resource h.known).trans h.off⟩
  obtain ⟨v, listed⟩ := h.pins.listed
  exact ⟨v, by rwa [value]⟩

theorem lend {mask : RegisterSet} {m : Register} (h : Addresses lent n i s)
    (ok : acquireTemporary mask s = .ok m s') : m ≠ n ∧ s'.emitter = s.emitter ∧ Addresses (m :: lent) n i s' := by
  have tracked := acquireTemporaryTracked h.tracked ok
  have ready := h.shelters.ready
  obtain ⟨-, available, u, lends, rfl⟩ := acquireTemporarySpec ready.formed ok
  have moved := h.moves (lendsMoves ready.formed ready.named ready.secured (by simp) available lends)
  have quiet : u.emitter = s.emitter := by
    cases lends with
    | vacant => rfl
    | owned => exact removeSiteQuiet _ _ _
  refine ⟨fun same => h.shelters.apart available (by rw [same]), quiet, moved.still tracked ?_ rfl⟩
  exact unmovedOfKeeps (u.keepsResources (.refer _ _)) (fun _ => rfl) (fun _ _ => rfl)
    (ResourceTable.ownerReferAll [m] u.resources)

theorem giveBack {m : Register} (h : Addresses lent n i s) (inside : m ∈ lent) :
    Addresses (lent.erase m) n i (s.releaseTemporary m) := by
  refine h.still (releaseTemporaryTracked h.tracked inside) ?_ rfl
  exact unmovedOfKeeps (s.keepsResources (.unrefer _ _)) (fun _ => rfl) (fun _ _ => rfl)
    (ResourceTable.ownerUnreferAll [m] s.resources)

theorem freeze (h : Addresses lent n i s) (j : SiteId) : Addresses (s.bound j ++ lent) n i (s.freezeSite j) :=
  h.still (h.tracked.freeze j) (s.freezeSiteUnmoved j) (by rw [freezeSiteRest])

theorem thaw (h : Addresses (s.bound j ++ lent) n i s) : Addresses lent n i (s.thawSite j) := by
  refine h.still h.tracked.thaw (s.thawSiteUnmoved j) ?_
  rw [thawSiteEq]
  rfl

theorem record (h : Addresses lent n i s) (r : ReadId) (source : Option SiteId) :
    Addresses lent n i (s.record r source) := by
  have keeps := keepsRecord s r source
  refine h.still ?_ (unmovedOfKeeps keeps (recordSites s r source) (fun _ _ => rfl) fun _ => rfl) rfl
  exact h.tracked.still keeps (recordSites s r source) (fun _ _ => rfl) fun _ => rfl

end State.Addresses

/-! All that it does, one thing after the other. -/

/-- Runs of the allocator and the emitter, with what is on loan before and after. Somebody has the word at `i` throughout,
and the requests that events make themselves do not write the register. -/
inductive State.Tends (d : Description) (n : Register) (i : SiteId) :
    List Register → State → List Register → State → Prop
  | refl (lent : List Register) (s : State) : Tends d n i lent s lent s
  | trans {a b c : List Register} {s t u : State} (first : Tends d n i a s b t) (second : Tends d n i b t c u) :
      Tends d n i a s c u
  | evict {lent : List Register} {s s' : State} {id : ResourceId} (ok : Lowering.evict id none s = .ok () s') :
      Tends d n i lent s lent s'
  | choose {lent : List Register} {s s' : State} {r : ReadId} {found : Option (SiteId × Nat)} (single : s.SingleReads [r])
      (chosen : s.chooseSource r { strict := true } = (found, s')) : Tends d n i lent s lent s'
  | relocate {lent : List Register} {s s' : State} {r : ReadId} {strict : Bool} {reserve : Nat} {j : SiteId}
      (value : s.IsValue (s.reads.value r)) (ok : Lowering.relocate r strict reserve s = .ok j s') :
      Tends d n i lent s lent s'
  | place {lent : List Register} {s s' : State} {v : ValueId} {j : SiteId} (value : s.IsValue v) (there : s.IsSite j)
      (fresh : s.Unlisted j) (ok : Lowering.place v j s = .ok () s') : Tends d n i lent s lent s'
  | consume {lent : List Register} {s s' : State} {e : EventId} (awaits : s.Awaits e) (closed : ∀ v, s.Closed v)
      (ok : consumeReads e s = .ok () s') (stays : ∃ v, i ∈ (s'.value v).sites) : Tends d n i lent s lent s'
  | clean {lent : List Register} {s : State} {v : ValueId} {popIndex : Nat} (value : s.IsValue v)
      (stays : ∃ w, i ∈ ((s.cleanValue v popIndex).value w).sites) : Tends d n i lent s lent (s.cleanValue v popIndex)
  | lend {lent : List Register} {s s' : State} {mask : RegisterSet} {m : Register}
      (ok : acquireTemporary mask s = .ok m s') : Tends d n i lent s (m :: lent) s'
  | giveBack {lent : List Register} {s : State} {m : Register} (inside : m ∈ lent) :
      Tends d n i lent s (lent.erase m) (s.releaseTemporary m)
  | emit {lent : List Register} {s s' : State} {q : Request} (spares : q.writes d n = false)
      (ok : Lowering.emit q s = .ok () s') : Tends d n i lent s lent s'
  | freeze (lent : List Register) (s : State) (j : SiteId) : Tends d n i lent s (s.bound j ++ lent) (s.freezeSite j)
  | thaw (lent : List Register) (s : State) (j : SiteId) : Tends d n i (s.bound j ++ lent) s lent (s.thawSite j)
  | record (lent : List Register) (s : State) (r : ReadId) (source : Option SiteId) :
      Tends d n i lent s lent (s.record r source)

theorem State.Tends.spares (run : s.Tends d n i lent lent' s') (h : s.Addresses lent n i) :
    s.Avoids d n s' ∧ s'.Addresses lent' n i := by
  induction run with
  | refl lent s => exact ⟨.refl s, h⟩
  | trans _ _ first second =>
    obtain ⟨avoids, kept⟩ := first h
    obtain ⟨later, kept'⟩ := second kept
    exact ⟨avoids.trans later, kept'⟩
  | evict ok =>
    obtain ⟨avoids, kept⟩ := h.evict ok
    exact ⟨avoids d, kept⟩
  | choose single chosen => exact h.choose single chosen
  | relocate value ok =>
    obtain ⟨avoids, kept, -⟩ := h.relocate value ok
    exact ⟨avoids d, kept⟩
  | place value there fresh ok =>
    obtain ⟨avoids, kept⟩ := h.place value there fresh ok
    exact ⟨avoids d, kept⟩
  | consume awaits closed ok stays =>
    exact ⟨.quiet (consumeReadsPasses h.tracked awaits closed ok).1.emitter, h.consume awaits closed ok stays⟩
  | clean value stays =>
    exact ⟨.quiet (passesCleanValue h.coherent.once _ _).emitter, h.clean value stays⟩
  | lend ok =>
    obtain ⟨-, quiet, kept⟩ := h.lend ok
    exact ⟨.quiet quiet, kept⟩
  | giveBack inside => exact ⟨.quiet rfl, h.giveBack inside⟩
  | emit spares ok => exact ⟨emitAvoids h.records spares ok, h.emit ok⟩
  | freeze lent s j => exact ⟨.quiet (by rw [freezeSiteRest]), h.freeze j⟩
  | thaw lent s j =>
    refine ⟨.quiet ?_, h.thaw⟩
    rw [thawSiteEq]
    rfl
  | record lent s r source => exact ⟨.quiet rfl, h.record r source⟩

theorem settleTends {r : ReadId} {reserve : Nat} (h : s.Addresses lent n i) (single : s.SingleReads [r])
    (ok : settle r true reserve s = .ok j s') : s.Tends d n i lent lent s' := by
  obtain ⟨value, own, successor, next, kind⟩ := single r List.mem_cons_self
  have there := ReadTable.isReadOfPending (.single kind)
  unfold settle at ok
  rw [modifyGetBind] at ok
  cases chosen : s.chooseSource r { strict := true } with
  | mk found s₁ =>
    obtain ⟨asked, -⟩ : Moves 0 [i] [] s [] s₁ ∧ _ := chooseSourceSpec h.tracked.formed single chosen
    have quiet : s.Tends d n i lent lent s₁ := .choose single chosen
    simp only [chosen] at ok
    cases found with
    | some c =>
      obtain ⟨-, rfl⟩ := pureOk.mp ok
      exact quiet
    | none =>
      refine quiet.trans (.relocate ?_ ok)
      rw [asked.keeps.reads.value r there]
      exact (asked.keeps.isValue _).mpr value

theorem readSourceTends {r : ReadId} {source : Option SiteId} (h : s.Addresses lent n i) (single : s.SingleReads [r])
    (ok : readSource? r s = .ok source s') : s.Tends d n i lent lent s' := by
  unfold readSource? at ok
  rw [getBind] at ok
  split at ok
  · obtain ⟨j, settled, rfl⟩ := mapOk.mp ok
    exact settleTends h single settled
  · obtain ⟨-, rfl⟩ := pureOk.mp ok
    exact .refl lent s

/- The reads of an event are supplied one by one, while the sources of the earlier ones are frozen. -/
theorem picksTend {reads : List ReadId} {picks : List Pick} (run : Picks reads s picks s') :
    ∀ {lent}, s.Addresses lent n i → s.SingleReads reads → s.Tends d n i lent lent s' := by
  induction run with
  | nil s => exact fun _ _ => .refl _ s
  | @missing r rest s t picks u read later ih =>
    intro lent h single
    have first := readSourceTends (d := d) h (fun x member => single x (by simp_all)) read
    obtain ⟨moves, -, -⟩ := readSourceSpec h.shelters.ready (fun x member => single x (by simp_all)) read
    have recorded := first.trans (.record lent t r none)
    refine recorded.trans (ih (recorded.spares h).2 ?_)
    exact singleReadsOfKeeps (moves.keeps.trans (keepsRecord t r none)) fun x member => single x (List.mem_cons_of_mem _ member)
  | @found r rest s t j picks u read later ih =>
    intro lent h single
    have own : s.SingleReads [r] := fun x member => single x (by simp_all)
    obtain ⟨moves, -, chosen⟩ := readSourceSpec h.shelters.ready own read
    have frozen := ((readSourceTends (d := d) h own read).trans (.record lent t r (some j))).trans (.freeze lent _ j)
    have h' := (frozen.spares h).2
    have single' : ((t.record r (some j)).freezeSite j).SingleReads rest := by
      have before : (t.record r (some j)).SingleReads rest :=
        singleReadsOfKeeps (moves.keeps.trans (keepsRecord t r (some j)))
          fun x member => single x (List.mem_cons_of_mem _ member)
      rw [freezeSiteEq]
      exact before
    have onward := (servedOfPicks later h'.shelters.ready single').keeps
    have bound : u.bound j = (t.record r (some j)).bound j := by
      rw [onward.bound ((freezeSiteIsSite _ j j).mpr (chosen j rfl).1), freezeBound]
    have last := ih h' single'
    rw [← bound] at frozen last
    exact (frozen.trans last).trans (.thaw lent u j)

/- What the allocator does for itself, all of it in any order: it takes a resource from its owner, moves a value to where
it is read, places a site that nobody has, and lends a register to the emitter. So the reads of an event are supplied. -/
theorem allocatorSparesAddress (coherent : s.Coherent lent) (records : s.Records) (has : s.resources.Has (.register n))
    (pins : s.Pins n i) (off : s.resource? i = none) :
    (∀ id s', evict id none s = .ok () s' → s.Avoids d n s' ∧ s'.Pins n i) ∧
    (∀ r strict reserve j s', s.IsValue (s.reads.value r) → relocate r strict reserve s = .ok j s' →
      s.Avoids d n s' ∧ s'.Pins n i ∧ s'.resource? j ≠ some (.register n)) ∧
    (∀ v j s', s.IsSite j → s.Unowned j → place v j s = .ok () s' → s.Avoids d n s') ∧
    (∀ mask m s', acquireTemporary mask s = .ok m s' → m ≠ n ∧ s'.Pins n i) ∧
    (∀ lent' s', s.Tends d n i lent lent' s' → s.Avoids d n s' ∧ s'.Coherent lent' ∧ s'.Pins n i) ∧
    ∀ reads s', s.SingleReads reads → chooseSources reads s = .ok () s' →
      s.Avoids d n s' ∧ s'.Coherent lent ∧ s'.Pins n i := by
  have h : s.Addresses lent n i := ⟨coherent, records, has, pins, off⟩
  have runs : ∀ lent' s', s.Tends d n i lent lent' s' → s.Avoids d n s' ∧ s'.Coherent lent' ∧ s'.Pins n i := by
    intro lent' s' run
    obtain ⟨avoids, kept⟩ := run.spares h
    exact ⟨avoids, kept.coherent, kept.pins⟩
  refine ⟨fun id s' ok => ?_, fun r strict reserve j s' value ok => ?_, fun v j s' there fresh ok => ?_,
    fun mask m s' ok => ?_, runs, fun reads s' single ok => ?_⟩
  · obtain ⟨avoids, kept⟩ := h.evict ok
    exact ⟨avoids d, kept.pins⟩
  · obtain ⟨avoids, kept, other⟩ := h.relocate value ok
    exact ⟨avoids d, kept.pins, other⟩
  · exact placeWithAvoids evictAvoids h.shelters there fresh (fun _ o _ => h.apart o) ok
  · obtain ⟨other, -, kept⟩ := h.lend ok
    exact ⟨other, kept.pins⟩
  · obtain ⟨picks, run⟩ := picksOfSources reads ok
    exact runs lent s' (picksTend run h single)

/-- Two values in each other's register, and a word that is addressed through a third one. -/
def State.crossedAside : State :=
  { crossed with
    values := crossed.values.push { kind := .general, next := ⟨2⟩, sites := [⟨2⟩] }
    sites := crossed.sites.push (.memory ⟨X64.rcx, 8, none, 1⟩ true)
    resources := crossed.resources.refer (.register X64.rcx) }

/- The values go past the register. -/
theorem crossedSpareAddress : crossedAside.Coherent [] ∧ crossedAside.Pins X64.rcx ⟨2⟩ ∧
    ∃ j s', relocate ⟨0⟩ true 0 crossedAside = .ok j s' ∧ crossedAside.Avoids (X64.describe {}) X64.rcx s' := by
  have coherent : crossedAside.Coherent [] := by decide +kernel
  have pins : crossedAside.Pins X64.rcx ⟨2⟩ := ⟨⟨⟨2⟩, by decide +kernel⟩, by decide +kernel⟩
  have value : crossedAside.IsValue (crossedAside.reads.value ⟨0⟩) := by decide +kernel
  obtain ⟨j, s', ok⟩ : Succeeds (relocate ⟨0⟩ true 0) crossedAside := by decide +kernel
  obtain ⟨-, relocated, -⟩ := allocatorSparesAddress coherent ⟨_, rfl⟩ (by decide +kernel) pins (by decide +kernel)
  exact ⟨coherent, pins, j, s', ok, (relocated ⟨0⟩ true 0 j s' value ok).1⟩

def ClientCall.updating : List ClientCall :=
  [.start 1 0 0 2, .startInstruction 0, .register X64.rdi, .memory ⟨0⟩ .general 8 none 1, .constant 1 .general,
    .combine .add 8 ⟨2⟩ ⟨0⟩, .store 8 ⟨3⟩ 8 ⟨1⟩, .leave none, .compile none 0]

/- The sum takes the place of the handle before the word is stored, so the store goes astray. -/
theorem addressIsWritten :
    let log := ((fresh (X64.describe {}) {} (.recording {}) none).history ClientCall.updating).emitter.log
    (log.drop 2).take 2 =
      [.ternary .add 8 (.constant (.immediate 1)) 8 (.register X64.rdi) 8 (.register X64.rdi),
        .binary .move 8 (.register X64.rdi) 8 (.memory ⟨X64.rdi, 8, none, 1⟩)] ∧
    (X64.Processor.numbered.follow (log.take 4)).map (fun p => (p.memory 15#64, p.memory 16#64)) =
      some (none, some 8#64) := by
  decide +kernel

end Lowering
