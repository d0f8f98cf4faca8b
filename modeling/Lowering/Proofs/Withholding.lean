import Lowering.Relocation
import Lowering.Proofs.Drafting
import Lowering.Proofs.Fidelity
/-!
Values that stay out of the way.

While emission starts, some values have a site that they do not own yet. Moving the values that do own theirs
takes no notice of them: it goes the same way in a state where the others are nowhere. So what is known of
moves when every site is owned holds of the values that have got their sites.
-/
namespace Lowering

open Build

namespace State

variable {s s' t : State} {W : ValueId → Bool} {v w : ValueId} {id : ResourceId}

def withhold (W : ValueId → Bool) (s : State) : State :=
  { s with values := s.values.mapIdx fun k d => if W ⟨k⟩ then { d with sites := [] } else d }

theorem withholdValue (s : State) (W : ValueId → Bool) (v : ValueId) :
    (s.withhold W).value v = if W v then { s.value v with sites := [] } else s.value v := by
  simp only [withhold, value, Array.getD_eq_getD_getElem?, Array.getElem?_mapIdx]
  cases s.values[v.index]? with
  | none => split <;> rfl
  | some d => rfl

@[simp] theorem withholdSize (s : State) (W : ValueId → Bool) : (s.withhold W).values.size = s.values.size := by
  simp [withhold]

@[simp] theorem withholdNext (s : State) (W : ValueId → Bool) (v : ValueId) :
    ((s.withhold W).value v).next = (s.value v).next := by
  rw [withholdValue]
  split <;> rfl

@[simp] theorem withholdReads (s : State) (W : ValueId → Bool) (v : ValueId) :
    ((s.withhold W).value v).reads = (s.value v).reads := by
  rw [withholdValue]
  split <;> rfl

@[simp] theorem withholdKind (s : State) (W : ValueId → Bool) (v : ValueId) :
    ((s.withhold W).value v).kind = (s.value v).kind := by
  rw [withholdValue]
  split <;> rfl

@[simp] theorem withholdHome (s : State) (W : ValueId → Bool) (v : ValueId) :
    ((s.withhold W).value v).home = (s.value v).home := by
  rw [withholdValue]
  split <;> rfl

theorem withholdSites (shown : W v = false) : ((s.withhold W).value v).sites = (s.value v).sites := by
  rw [withholdValue, shown]
  rfl

theorem withholdNowhere (hidden : W v = true) : ((s.withhold W).value v).sites = [] := by
  rw [withholdValue, hidden]
  rfl

theorem withholdModify (shown : W v = false) (f : Value → Value) :
    (s.modifyValue v f).withhold W = (s.withhold W).modifyValue v f := by
  simp only [withhold, modifyValue, State.mk.injEq, true_and, and_true]
  refine Array.ext (by simp) fun k below below' => ?_
  simp only [Array.getElem_mapIdx, Array.getElem_modify]
  by_cases here : v.index = k
  · subst here
    simp [shown]
  · simp [here]

@[simp] theorem withholdRing (s : State) (W : ValueId → Bool) (v : ValueId) : (s.withhold W).ring v = s.ring v :=
  ringCongr (s.withholdSize W) (s.withholdNext W) v

@[simp] theorem withholdAliases (s : State) (W : ValueId → Bool) (v : ValueId) :
    (s.withhold W).areAliases v = s.areAliases v := by
  funext w
  simp only [areAliases, withholdRing]

/-- No value has an alias, what is owned is owned by values that are not in `W`, and requests are recorded. -/
structure Aside (W : ValueId → Bool) (s : State) : Prop where
  alone : ∀ v, s.IsValue v → (s.value v).next = v
  owners : ∀ id o, s.owner? id = some o → s.IsValue o.value ∧ W o.value = false
  reads : s.reads.WellFormed
  heads : ∀ v r, (s.value v).reads = some r → s.reads.ReadOf v r
  records : ∃ r, s.emitter = .recording r

structure Bides (W : ValueId → Bool) (s t : State) : Prop where
  size : t.values.size = s.values.size
  next : ∀ v, (t.value v).next = (s.value v).next
  heads : ∀ v, (t.value v).reads = (s.value v).reads
  reads : s.reads.WellFormed → s.reads.Evolves t.reads
  owners : ∀ id o, t.owner? id = some o → s.owner? id = some o ∨ s.IsValue o.value ∧ W o.value = false
  records : (∃ r, s.emitter = .recording r) → ∃ r, t.emitter = .recording r
  hidden : ∀ v, W v = true → (t.value v).sites = (s.value v).sites

namespace Bides

theorem refl (s : State) : s.Bides W s := ⟨rfl, fun _ => rfl, fun _ => rfl, fun _ => .refl _, fun _ _ => .inl, id, fun _ _ => rfl⟩

theorem trans (first : s.Bides W t) (second : t.Bides W s') : s.Bides W s' where
  size := second.size.trans first.size
  next v := (second.next v).trans (first.next v)
  heads v := (second.heads v).trans (first.heads v)
  reads formed := (first.reads formed).trans (second.reads ((first.reads formed).wellFormed formed))
  owners id o owner := by
    rcases second.owners id o owner with before | ⟨known, shown⟩
    · exact first.owners id o before
    · exact .inr ⟨by rwa [IsValue, first.size] at known, shown⟩
  records recorded := second.records (first.records recorded)
  hidden v hidden := (second.hidden v hidden).trans (first.hidden v hidden)

end Bides

theorem Aside.bide (aside : s.Aside W) (bides : s.Bides W t) : t.Aside W where
  alone v known := by
    rw [bides.next]
    exact aside.alone v (by rwa [IsValue, bides.size] at known)
  owners id o owner := by
    rw [IsValue, bides.size]
    exact (bides.owners id o owner).elim (aside.owners id o) fun h => h
  reads := (bides.reads aside.reads).wellFormed aside.reads
  heads v r head := by
    rw [bides.heads] at head
    have of := aside.heads v r head
    have evolves := bides.reads aside.reads
    exact ⟨evolves.isRead of.known, (evolves.value r of.known).trans of.value⟩
  records := bides.records aside.records

/-! What is chosen. -/

theorem withholdPlacements (aside : s.Aside W) (known : s.IsValue v) (shown : W v = false) :
    (s.withhold W).placements v = s.placements v := by
  simp only [placements, withholdRing, ringAlone (aside.alone v known), List.flatMap_singleton, ownPlacements,
    withholdSites shown]

theorem withholdLast (aside : s.Aside W) {o : Owner} (owner : s.owner? id = some o) :
    (s.withhold W).isLastSite o.value o.site = s.isLastSite o.value o.site := by
  obtain ⟨known, shown⟩ := aside.owners id o owner
  rw [isLastSite, withholdPlacements aside known shown, isLastSite]

theorem withholdMoveCost (aside : s.Aside W) (known : s.IsValue v) (shown : W v = false) (mask : SiteMask) :
    (s.withhold W).moveCost v mask = s.moveCost v mask := by
  simp only [moveCost, withholdPlacements aside known shown]
  rfl

def Shown (W : ValueId → Bool) (s : State) (moved : Option ValueId) : Prop := ∀ v ∈ moved, s.IsValue v ∧ W v = false

theorem withholdResourceCost (aside : s.Aside W) {moved : Option ValueId} (shown : s.Shown W moved) (v : Option ValueId)
    (id : ResourceId) (mask : SiteMask) : (s.withhold W).resourceCost v id mask moved = s.resourceCost v id mask moved := by
  have base : moved.elim 0 ((s.withhold W).moveCost · mask) = moved.elim 0 (s.moveCost · mask) := by
    cases moved with
    | none => rfl
    | some m => exact withholdMoveCost aside (shown m rfl).1 (shown m rfl).2 mask
  unfold resourceCost
  rw [show (s.withhold W).resources = s.resources from rfl]
  cases owner : (s.resources.get id).owner with
  | none => simp only [owner, base]
  | some o => simp only [owner, base, withholdAliases, withholdLast aside owner]

section chosen

variable (aside : s.Aside W) {moved : Option ValueId} (shown : s.Shown W moved)

include aside shown

theorem withholdRegister (v : Option ValueId) (mask : RegisterSet) :
    (s.withhold W).chooseRegister v mask moved = s.chooseRegister v mask moved := by
  have target : (s.withhold W).registerTarget v moved = s.registerTarget v moved := by
    funext r
    rw [registerTarget, withholdResourceCost aside shown, registerTarget]
  simp only [chooseRegister, target]
  rfl

theorem withholdSlotTarget (v : ValueId) : (s.withhold W).slotTarget v moved = s.slotTarget v moved := by
  funext k
  rw [slotTarget, withholdResourceCost aside shown]
  rfl

theorem withholdChooseHome (v : ValueId) : (s.withhold W).chooseHome v moved = s.chooseHome v moved := by
  simp only [chooseHome, withholdRing, withholdHome, withholdSlotTarget aside shown]

theorem withholdChooseSlot (v : ValueId) : (s.withhold W).chooseSlot v moved = s.chooseSlot v moved := by
  simp only [chooseSlot, withholdSlotTarget aside shown]
  rfl

theorem withholdWithin (v : ValueId) (mask : SiteMask) (penalty : Nat) (best : Target) :
    (s.withhold W).chooseWithin v mask penalty best moved = s.chooseWithin v mask penalty best moved := by
  simp only [chooseWithin, withholdRegister aside shown, withholdSlotTarget aside shown, withholdChooseHome aside shown]

end chosen

theorem withholdPending (s : State) (W : ValueId → Bool) (vs : List ValueId) :
    (s.withhold W).firstPending vs = ((s.firstPending vs).1, (s.firstPending vs).2.withhold W) := by
  induction vs generalizing s with
  | nil => rfl
  | cons v rest ih =>
    have asked : (s.withhold W).isPending (s.value v).reads =
        ((s.isPending (s.value v).reads).1, (s.isPending (s.value v).reads).2.withhold W) := by
      unfold isPending
      cases (s.value v).reads <;> rfl
    simp only [firstPending, withholdReads, asked]
    split
    · rfl
    · exact ih _

theorem withholdLiveRead (s : State) (W : ValueId → Bool) (v : ValueId) :
    (s.withhold W).liveRead? v = ((s.liveRead? v).1, (s.liveRead? v).2.withhold W) := by
  rw [liveRead?, withholdRing, withholdPending, liveRead?]

theorem withholdReadMask (s : State) (W : ValueId → Bool) (v : ValueId) (r : ReadId) :
    (s.withhold W).readMask v r = ((s.readMask v r).1, (s.readMask v r).2.withhold W) := by
  simp only [readMask, withholdKind]
  rfl

theorem withholdSuccessorMask (s : State) (W : ValueId → Bool) (r : ReadId) (mask : SiteMask) :
    (s.withhold W).successorMask? r mask = ((s.successorMask? r mask).1, (s.successorMask? r mask).2.withhold W) := by
  simp only [successorMask?]
  rw [show (s.withhold W).reads.successor? r = s.reads.successor? r from rfl]
  cases s.reads.successor? r with
  | none => rfl
  | some v =>
    simp only [withholdLiveRead]
    cases (s.liveRead? v).1 with
    | none => rfl
    | some next => rfl

theorem withholdCopyCosts (aside : s.Aside W) (known : s.IsValue v) (shown : W v = false) (dst : Site) (source : SiteMask) :
    (s.withhold W).copyCosts v dst source = s.copyCosts v dst source := by
  simp only [copyCosts, withholdPlacements aside known shown]
  rfl

end State

/-! Work that goes the same way. -/

/-- Where `x` succeeds from `s`, `y` gives the same answer without the sites of `W`, and nothing is taken for a value of
`W`. -/
def Mirrors {α : Type} (W : ValueId → Bool) (x y : Build α) (s : State) : Prop :=
  ∀ a t, x s = .ok a t → y (s.withhold W) = .ok a (t.withhold W) ∧ s.Bides W t

namespace Mirrors

variable {α β : Type} {W : ValueId → Bool} {s t : State} {x y : Build α} {f g : α → Build β}

theorem pure (a : α) : Mirrors W (pure a : Build α) (pure a) s := by
  intro b t ok
  obtain ⟨rfl, rfl⟩ := pureOk.mp ok
  exact ⟨rfl, .refl s⟩

theorem throw {e : Error} : Mirrors W (throw e : Build α) y s := fun _ _ ok => (throwOk.mp ok).elim

theorem bindRan (aside : s.Aside W) (first : Mirrors W x y s)
    (rest : ∀ a t, x s = .ok a t → t.Aside W → s.Bides W t → Mirrors W (f a) (g a) t) :
    Mirrors W (x >>= f) (y >>= g) s := by
  intro b u ok
  obtain ⟨a, t, here, later⟩ := bindOk.mp ok
  obtain ⟨mirrored, bides⟩ := first a t here
  obtain ⟨mirrored', bides'⟩ := rest a t here (aside.bide bides) bides b u later
  exact ⟨bindOk.mpr ⟨a, _, mirrored, mirrored'⟩, bides.trans bides'⟩

theorem bind (aside : s.Aside W) (first : Mirrors W x y s)
    (rest : ∀ a t, t.Aside W → s.Bides W t → Mirrors W (f a) (g a) t) : Mirrors W (x >>= f) (y >>= g) s :=
  bindRan aside first fun a t _ => rest a t

theorem get {f g : State → Build β} (rest : Mirrors W (f s) (g (s.withhold W)) s) :
    Mirrors W (MonadState.get >>= f) (MonadState.get >>= g) s := rest

theorem modifyGet {f g : State → α × State} (answer : (g (s.withhold W)).1 = (f s).1)
    (after : (g (s.withhold W)).2 = (f s).2.withhold W) (bides : s.Bides W (f s).2) :
    Mirrors W (modifyGet f : Build α) (modifyGet g) s := by
  intro a t ok
  obtain ⟨rfl, rfl⟩ := Prod.ext_iff.mp (modifyGetOk.mp ok)
  exact ⟨modifyGetOk.mpr (Prod.ext answer after), bides⟩

theorem modify {f g : State → State} (after : g (s.withhold W) = (f s).withhold W) (bides : s.Bides W (f s)) :
    Mirrors W (modify f : Build PUnit) (modify g) s := modifyGet rfl after bides

theorem ite {c : Prop} [Decidable c] {x' y' : Build α} (yes : Mirrors W x y s) (no : Mirrors W x' y' s) :
    Mirrors W (if c then x else x') (if c then y else y') s := by
  split
  · exact yes
  · exact no

theorem ensuring {after after' : State → State} (first : Mirrors W x y s)
    (same : ∀ t, after' (t.withhold W) = (after t).withhold W) (bides : ∀ t : State, t.Bides W (after t)) :
    Mirrors W (Build.ensuring x after) (Build.ensuring y after') s := by
  intro a u ok
  obtain ⟨t, here, rfl⟩ := ensuringOk.mp ok
  obtain ⟨mirrored, bides'⟩ := first a t here
  exact ⟨ensuringOk.mpr ⟨_, mirrored, (same t).symm⟩, bides'.trans (bides t)⟩

theorem map {f : α → β} (first : Mirrors W x y s) : Mirrors W (f <$> x) (f <$> y) s := by
  intro b t ok
  obtain ⟨a, here, rfl⟩ := mapOk.mp ok
  obtain ⟨mirrored, bides⟩ := first a t here
  exact ⟨mapOk.mpr ⟨a, mirrored, rfl⟩, bides⟩

end Mirrors

section

open State

variable {s t : State} {W : ValueId → Bool} {v : ValueId} {i src dst : SiteId} {id : ResourceId} {r : ReadId}
  {moved : Option ValueId} {evict : Evict}

namespace State

theorem bidesRest (values : t.values = s.values) (reads : t.reads = s.reads)
    (owners : ∀ id o, t.owner? id = some o → s.owner? id = some o ∨ s.IsValue o.value ∧ W o.value = false)
    (emitter : t.emitter = s.emitter) : s.Bides W t := by
  have value : t.value = s.value := by funext v; simp only [State.value, values]
  exact ⟨by rw [values], fun v => by rw [value], fun v => by rw [value], fun _ => by rw [reads]; exact .refl _, owners,
    fun h => by rwa [emitter], fun v _ => by rw [value]⟩

theorem bidesReads {t : ReadTable} (evolves : s.reads.WellFormed → s.reads.Evolves t) :
    s.Bides W { s with reads := t } := ⟨rfl, fun _ => rfl, fun _ => rfl, evolves, fun _ _ => .inl, id, fun _ _ => rfl⟩

theorem bidesModifyValue (shown : W v = false) {f : Value → Value} (next : ∀ d, (f d).next = d.next)
    (heads : ∀ d, (f d).reads = d.reads) : s.Bides W (s.modifyValue v f) := by
  refine ⟨sizeModifyValue .., fun w => ?_, fun w => ?_, fun _ => .refl _, fun _ _ => .inl, id, fun w hidden => ?_⟩
  · rw [valueModify]
    split
    · rename_i here
      rw [next, here.1]
    · rfl
  · rw [valueModify]
    split
    · rename_i here
      rw [heads, here.1]
    · rfl
  · rw [valueModify, if_neg]
    rintro ⟨rfl, -⟩
    rw [shown] at hidden
    cases hidden

theorem bidesNarrow (s : State) (r : ReadId) (mask : SiteMask) : s.Bides W (s.narrow r mask).2.2 :=
  bidesReads fun formed => (ReadTable.narrowSpec formed.ordered r mask 0).evolves

theorem bidesPending (s : State) (vs : List ValueId) : s.Bides W (s.firstPending vs).2 := by
  induction vs generalizing s with
  | nil => exact .refl s
  | cons v rest ih =>
    have asked : s.Bides W (s.isPending (s.value v).reads).2 := by
      unfold isPending
      cases (s.value v).reads with
      | none => exact .refl s
      | some r => exact bidesReads fun formed => ReadTable.validEvolves formed.ordered r
    unfold firstPending
    dsimp only
    split
    · exact asked
    · exact asked.trans (ih _)

theorem bidesReadMask (s : State) (v : ValueId) (r : ReadId) : s.Bides W (s.readMask v r).2 := bidesNarrow ..

theorem bidesSuccessorMask (s : State) (r : ReadId) (mask : SiteMask) : s.Bides W (s.successorMask? r mask).2 := by
  unfold successorMask?
  split
  · exact .refl s
  · rename_i v _
    have asked : s.Bides W (s.liveRead? v).2 := bidesPending ..
    dsimp only
    split
    · exact asked
    · exact asked.trans (bidesNarrow ..)

end State

theorem State.bidesRecords (s : State) (r' : Recorder) :
    s.Bides W { s with emitter := .recording r' } :=
  ⟨rfl, fun _ => rfl, fun _ => rfl, fun _ => .refl _, fun _ _ => .inl, fun _ => ⟨r', rfl⟩, fun _ _ => rfl⟩

theorem State.Shown.bide (shown : s.Shown W moved) (bides : s.Bides W t) : t.Shown W moved := fun v member => by
  rw [IsValue, bides.size]
  exact shown v member

theorem mirrorsChooseTarget (aside : s.Aside W) (shown : s.Shown W moved) (r : ReadId) (strict : Bool) (reserve : Nat) :
    Mirrors W (chooseTarget r strict reserve moved) (chooseTarget r strict reserve moved) s := by
  refine .get ?_
  dsimp only
  rw [withholdKind, show (s.withhold W).reads = s.reads from rfl, show (s.withhold W).resources = s.resources from rfl]
  refine .bind aside (.modifyGet (by rw [withholdReadMask]) (by rw [withholdReadMask]) (s.bidesReadMask ..))
    fun mask t aside bides => .bind aside (.modifyGet (by rw [withholdSuccessorMask]) (by rw [withholdSuccessorMask])
      (t.bidesSuccessorMask ..)) fun narrower u aside' bides' => .get ?_
  have shown := (shown.bide bides).bide bides'
  simp only [withholdWithin aside' shown, withholdRegister aside' shown, withholdChooseHome aside' shown,
    withholdChooseSlot aside' shown]
  rw [show (u.withhold W).resources = u.resources from rfl]
  refine .ite (.pure _) (.ite (.pure _) (.ite (.ite ?_ (.pure _)) (.ite ?_ (.pure _))))
  · exact .bind aside' .throw fun _ _ _ _ => .pure _
  · exact .bind aside' .throw fun _ _ _ _ => .pure _

theorem mirrorsChooseSite (aside : s.Aside W) (shown : s.Shown W moved) (r : ReadId) (strict : Bool) (reserve : Nat) :
    Mirrors W (chooseSite r strict reserve moved) (chooseSite r strict reserve moved) s := by
  refine .bind aside (mirrorsChooseTarget aside shown r strict reserve) fun c t aside bides => ?_
  have sites : ∀ u : State, u.Bides W (u.newSite (c.toSite u.geometry)).2 := fun u =>
    bidesRest rfl rfl (fun _ _ => .inl) rfl
  obtain ⟨n | k, cost⟩ := c
  · exact .modifyGet rfl rfl (sites t)
  · exact .bind aside (.modify rfl (bidesRest rfl rfl (fun _ _ => .inl) rfl)) fun _ u _ _ => .modifyGet rfl rfl (sites u)

theorem State.withholdFreeze (s : State) (W : ValueId → Bool) (i : SiteId) :
    (s.withhold W).freezeSite i = (s.freezeSite i).withhold W := by
  rw [freezeSiteEq, freezeSiteEq]
  rfl

theorem State.withholdThaw (s : State) (W : ValueId → Bool) (i : SiteId) :
    (s.withhold W).thawSite i = (s.thawSite i).withhold W := by
  rw [thawSiteEq, thawSiteEq]
  rfl

theorem State.bidesFreeze (s : State) (i : SiteId) : s.Bides W (s.freezeSite i) := by
  rw [freezeSiteRest]
  exact bidesRest rfl rfl (fun id o owner => .inl (by rw [← freezeSiteOwner s i]; exact owner)) rfl

theorem State.bidesThaw (s : State) (i : SiteId) : s.Bides W (s.thawSite i) := by
  refine bidesRest ?_ ?_ (fun id o owner => .inl (by rwa [thawSiteOwner] at owner)) (s.thawSiteEmitter i) <;>
  · rw [thawSiteEq]
    rfl

theorem mirrorsFrozen {α : Type} {x y : Build α} (aside : s.Aside W) (i : SiteId)
    (within : ∀ t, t.Aside W → s.Bides W t → Mirrors W x y t) : Mirrors W (whileFrozen i x) (whileFrozen i y) s :=
  .bind aside (.modify (s.withholdFreeze W i) (s.bidesFreeze i)) fun _ t aside bides =>
    .ensuring (within t aside bides) (fun t => t.withholdThaw W i) fun t => t.bidesThaw i

theorem State.withholdRelease (s : State) (W : ValueId → Bool) (i : SiteId) :
    (s.withhold W).release i = (s.release i).withhold W := by
  have disowned : ∀ id, ((s.withhold W).disown id i).resources = (s.disown id i).resources := by
    intro id
    unfold disown
    rw [show (s.withhold W).resources = s.resources from rfl]
    dsimp only
    split <;> rfl
  have resources : (s.withhold W).releasedResources i = s.releasedResources i := by
    unfold releasedResources
    rw [show (s.withhold W).resource? i = s.resource? i from rfl, show (s.withhold W).site i = s.site i from rfl]
    cases s.resource? i with
    | none => rfl
    | some id =>
      dsimp only
      split
      · rw [disowned]
      · rfl
  rw [releaseEq, releaseEq, resources]
  rfl

theorem State.withholdRemove (aside : s.Aside W) (known : s.IsValue v) (shown : W v = false) (i : SiteId) :
    (s.withhold W).removeSite v i = (s.removeSite v i).withhold W := by
  unfold removeSite
  rw [withholdPlacements aside known shown]
  cases found : (s.placements v).find? (·.site == i) with
  | none => rfl
  | some o =>
    have member := (memPlacements.mp (List.mem_of_find?_eq_some found)).1
    rw [ringAlone (aside.alone v known), List.mem_singleton] at member
    simp only [detach, member]
    rw [withholdModify shown]
    congr 1
    exact withholdRelease ..

theorem State.bidesRemove (aside : s.Aside W) (known : s.IsValue v) (shown : W v = false) (i : SiteId) :
    s.Bides W (s.removeSite v i) := by
  have keeps := s.keepsRemoveSite v i
  refine ⟨keeps.size, keeps.next, keeps.head, fun _ => keeps.reads, fun id o owner => .inl (s.removeSiteOwner owner),
    fun records => by rwa [removeSiteRest], fun w hidden => ?_⟩
  obtain ⟨same, -⟩ | ⟨m, member, -, same⟩ := s.removeSiteCases v i
  · rw [same]
  · rw [ringAlone (aside.alone v known), List.mem_singleton] at member
    rw [same, detachValue, member, if_neg]
    rintro rfl
    rw [shown] at hidden
    cases hidden

theorem mirrorsEmit (aside : s.Aside W) (q : Request) : Mirrors W (emit q) (emit q) s := by
  obtain ⟨r, records⟩ := aside.records
  intro a t ok
  unfold emit at ok ⊢
  rw [show (s.withhold W).emitter = s.emitter from rfl]
  rw [records] at ok ⊢
  simp only [Emitter.emit] at ok ⊢
  cases emitted : r.emit q with
  | mk outcome r' =>
    rw [emitted] at ok
    cases outcome with
    | error e => cases ok
    | ok =>
      cases ok
      exact ⟨rfl, s.bidesRecords r'⟩

theorem mirrorsOperand (s : State) (W : ValueId → Bool) (i : SiteId) : Mirrors W (operandOf i) (operandOf i) s := by
  refine .get ?_
  rw [show (s.withhold W).operand i = s.operand i from rfl]
  split
  · exact .pure _
  · exact .throw

theorem mirrorsEmitMove (aside : s.Aside W) (src dst : SiteId) : Mirrors W (emitMove src dst) (emitMove src dst) s := by
  refine .bind aside (.modify rfl (bidesRest rfl rfl (fun _ _ => .inl) rfl)) fun _ t aside _ => ?_
  refine mirrorsFrozen aside src fun u aside _ => mirrorsFrozen aside dst fun w aside _ => ?_
  refine .bind aside (mirrorsOperand _ W src) fun a t aside _ => ?_
  exact .bind aside (mirrorsOperand _ W dst) fun b u aside _ => mirrorsEmit aside _

def EvictsAside (W : ValueId → Bool) (evict : Evict) : Prop :=
  ∀ (s : State) (id : ResourceId) (thief : Option ValueId), s.Aside W → Mirrors W (evict id thief) (evict id thief) s

theorem mirrorsAcquireResource (evicts : EvictsAside W evict) (aside : s.Aside W) (id : ResourceId) {o : Owner}
    (known : s.IsValue o.value) (shown : W o.value = false) :
    Mirrors W (acquireResource evict id o) (acquireResource evict id o) s := by
  have owns : ∀ u : State, s.Bides W u → u.Bides W (u.modifyResources (·.setOwner id (some o))) := by
    refine fun u bides => bidesRest rfl rfl (fun id' p owner => ?_) rfl
    change ((u.resources.setOwner id (some o)).get id').owner = some p at owner
    rw [ResourceTable.getSetOwner] at owner
    split at owner
    · cases owner
      exact .inr ⟨by rwa [IsValue, bides.size], shown⟩
    · exact .inl owner
  have rest : ∀ (u : State), s.Bides W u → Mirrors W (modify (·.modifyResources (·.setOwner id (some o))) : Build PUnit)
      (modify (·.modifyResources (·.setOwner id (some o)))) u := fun u bides => .modify rfl (owns u bides)
  refine .get (.ite (.pure _) (.ite ?_ ?_))
  · exact .bind aside (evicts s id _ aside) fun _ u _ bides => rest u bides
  · exact rest s (.refl s)

theorem mirrorsSettleRegister (aside : s.Aside W) (v : ValueId) (mask : RegisterSet) (number : Option Register) :
    Mirrors W (settleRegister v mask number) (settleRegister v mask number) s := by
  cases number with
  | some n => exact .pure n
  | none =>
    refine .get ?_
    rw [withholdRegister aside fun v none => absurd none (Option.not_mem_none v)]
    dsimp only
    generalize s.chooseRegister (some v) mask none = c
    obtain ⟨n | k, cost⟩ := c
    · cases Target.isImpossible ⟨.register n, cost⟩
      · exact .pure _
      · exact .throw
    · cases Target.isImpossible ⟨.slot k, cost⟩ <;> exact .throw

theorem mirrorsAcquireWith (evicts : EvictsAside W evict) (aside : s.Aside W) (known : s.IsValue v) (shown : W v = false)
    (i : SiteId) : Mirrors W (acquireWith evict v i) (acquireWith evict v i) s := by
  have sets : ∀ (u : State) (x : Site), Mirrors W (modify (·.setSite i x) : Build PUnit) (modify (·.setSite i x)) u :=
    fun u x => .modify rfl (bidesRest rfl rfl (fun _ _ => .inl) rfl)
  refine .get ?_
  rw [show (s.withhold W).site i = s.site i from rfl]
  cases s.site i with
  | constant | address => exact .pure _
  | register mask number =>
    refine .bind aside (mirrorsSettleRegister aside v mask number) fun n t aside bides => ?_
    have known : t.IsValue v := by rwa [IsValue, bides.size]
    exact .bind aside (mirrorsAcquireResource evicts aside (.register n) (o := ⟨v, i⟩) known shown)
      fun _ u _ _ => sets u _
  | memory m acquired =>
    refine .bind aside (.modify rfl ?_) fun _ t aside bides => .get ?_
    · refine bidesRest rfl rfl (fun id o owner => .inl ?_) rfl
      rwa [owner?, referTo, modifyResources, show (m.registers.foldl _ _) = s.resources.referAll m.registers from rfl,
        ResourceTable.ownerReferAll] at owner
    rw [show (t.withhold W).slotResource? (.memory m acquired) = t.slotResource? (.memory m acquired) from rfl]
    have known : t.IsValue v := by rwa [IsValue, bides.size]
    cases t.slotResource? (.memory m acquired) with
    | none => exact sets t _
    | some slot =>
      exact .bind aside (mirrorsAcquireResource evicts aside slot (o := ⟨v, i⟩) known shown) fun _ u _ _ => sets u _

theorem mirrorsPlaceWith (evicts : EvictsAside W evict) (aside : s.Aside W) (known : s.IsValue v) (shown : W v = false)
    (i : SiteId) : Mirrors W (placeWith evict v i) (placeWith evict v i) s := by
  refine .get ?_
  rw [withholdSites shown]
  refine .ite (.pure _) ?_
  refine .bind aside (mirrorsAcquireWith evicts aside known shown i) fun _ t aside bides => ?_
  exact .modify (withholdModify shown _).symm (bidesModifyValue shown (fun _ => rfl) fun _ => rfl)

theorem mirrorsStageWith (evicts : EvictsAside W evict) (aside : s.Aside W) (known : s.IsValue v) (shown : W v = false)
    (src : SiteId) (mask : OperandMask) : Mirrors W (stageWith evict v src mask) (stageWith evict v src mask) s := by
  have probes : s.Bides W { s with reads := (s.reads.single v (.ofOperand mask) (some v)).2 } :=
    bidesReads fun _ => ReadTable.evolvesPush ..
  refine .bind aside (.modifyGet rfl rfl probes) fun r t aside bides => ?_
  refine .bind aside (mirrorsChooseSite aside (fun v none => absurd none (Option.not_mem_none v)) r true 0) fun i u aside bides' => ?_
  have known : u.IsValue v := by rwa [IsValue, bides'.size, bides.size]
  refine .bind aside (mirrorsPlaceWith evicts aside known shown i) fun _ w aside _ => ?_
  exact .bind aside (mirrorsEmitMove aside src i) fun _ _ _ _ => .pure _

theorem mirrorsRelocateWith (evicts : EvictsAside W evict) (aside : s.Aside W) (r : ReadId)
    (known : s.IsValue (s.reads.value r)) (shown : W (s.reads.value r) = false) (strict : Bool) (reserve : Nat) :
    Mirrors W (relocateWith evict r strict reserve) (relocateWith evict r strict reserve) s := by
  refine .get ?_
  rw [show (s.withhold W).reads = s.reads from rfl]
  generalize s.reads.value r = v at known shown
  have moving : s.Shown W (some v) := fun w same => Option.some.inj same ▸ ⟨known, shown⟩
  refine .bind aside (mirrorsChooseSite aside moving r strict reserve) fun dst t aside bides => .get ?_
  have known : t.IsValue v := by rwa [IsValue, bides.size]
  dsimp only
  rw [show (t.withhold W).site dst = t.site dst from rfl, show (t.withhold W).machine = t.machine from rfl,
    withholdCopyCosts aside known shown]
  split
  · exact .throw
  · rename_i src cost _
    refine .ite (.pure _) ?_
    refine .bind aside (mirrorsFrozen aside src fun u aside bides => mirrorsPlaceWith evicts aside
      (by rwa [IsValue, bides.size]) shown dst) fun _ u aside bides => .get ?_
    have known : u.IsValue v := by rwa [IsValue, bides.size]
    rw [show (u.withhold W).site src = u.site src from rfl, show (u.withhold W).geometry = u.geometry from rfl]
    have ends : ∀ (i : SiteId) (w : State), w.Aside W →
        Mirrors W (do emitMove i dst; return dst : Build SiteId) (do emitMove i dst; return dst) w := fun i w aside =>
      .bind aside (mirrorsEmitMove aside i dst) fun _ _ _ _ => .pure _
    refine .ite (ends src u aside) (.bind aside ?_ fun i w aside _ => ends i w aside)
    refine mirrorsFrozen aside src fun w aside bides => mirrorsFrozen aside dst fun x aside bides' => ?_
    exact mirrorsStageWith evicts aside (by rwa [IsValue, bides'.size, bides.size]) shown src _

theorem headOfLive (alone : (s.value v).next = v) (live : (s.liveRead? v).1 = some r) : (s.value v).reads = some r := by
  rw [liveRead?, ringAlone alone] at live
  unfold firstPending at live
  dsimp only at live
  split at live
  · exact live
  · cases live

theorem evictsAside (fuel : Nat) : EvictsAside W (evictWithin fuel) := by
  induction fuel with
  | zero => exact fun s id thief aside => .throw
  | succ fuel ih =>
    intro s id thief aside
    unfold evictWithin
    refine .get ?_
    rw [show (s.withhold W).resources = s.resources from rfl]
    cases owner : (s.resources.get id).owner with
    | none => exact .pure _
    | some o =>
      obtain ⟨known, shown⟩ := aside.owners id o owner
      have drops : ∀ u : State, u.Aside W → u.IsValue o.value →
          Mirrors W (modify (·.removeSite o.value o.site) : Build PUnit) (modify (·.removeSite o.value o.site)) u :=
        fun u aside known => .modify (withholdRemove aside known shown _) (bidesRemove aside known shown _)
      have alone : (s.withhold W).isLastSite o.value o.site = s.isLastSite o.value o.site := withholdLast aside owner
      have aliased : (fun v => (s.withhold W).areAliases v o.value) = fun v => s.areAliases v o.value := by
        simp only [withholdAliases]
      dsimp only
      rw [alone, aliased]
      refine .bind aside (.modify rfl (bidesRest rfl rfl (fun _ _ => .inl) rfl)) fun _ t aside bides => ?_
      have known : t.IsValue o.value := by rwa [IsValue, bides.size]
      refine .ite (.bindRan aside (.modifyGet (by rw [withholdLiveRead]) (by rw [withholdLiveRead]) (t.bidesPending _))
        fun r u asked aside' bides => ?_) (drops t aside known)
      have known' : u.IsValue o.value := by rwa [IsValue, bides.size]
      cases r with
      | none => exact drops u aside' known'
      | some r =>
        have head : (u.value o.value).reads = some r := by
          rw [bides.heads]
          exact headOfLive (aside.alone _ known) (congrArg Prod.fst (modifyGetOk.mp asked))
        have value := (aside'.heads _ _ head).value
        refine .bind aside' (mirrorsFrozen aside' o.site fun w aside bides => ?_) fun moved w aside bides => ?_
        · have reader := (aside.heads _ _ ((bides.heads _).trans head)).value
          exact mirrorsRelocateWith ih aside r (by rwa [reader, IsValue, bides.size]) (by rwa [reader]) _ _
        · have known : w.IsValue o.value := by rwa [IsValue, bides.size]
          refine .bind aside (.modify (withholdModify shown _).symm (bidesModifyValue shown (fun d => ?_) fun d => ?_))
            fun _ x aside bides => drops x aside (by rwa [IsValue, bides.size])
          · split <;> rfl
          · split <;> rfl

end

end Lowering
