import Lowering.Proofs.Isolation
/-!
Sites that pass from alias to alias.

Cleaning a value takes sites away. Consuming a read may end a value: then its sites are given up, or
an alias that is still read gets them. Since what a live value is at is recorded as its own, nobody
has to make room for the heir, and nothing is emitted.
-/
namespace Lowering

open State Build

variable {s s' t : State} {id : ResourceId} {v w : ValueId} {i j : SiteId} {lent : List Register}
  {due : List Owner}

structure Passes (s s' : State) : Prop where
  shape : s.resources.SameShape s'.resources
  size : s'.values.size = s.values.size
  sites : s.sites.size ≤ s'.sites.size
  place : ∀ i, s.IsSite i → (s'.site i).place = (s.site i).place
  reads : s.reads.Evolves s'.reads
  emitter : s'.emitter = s.emitter
  met : ∀ v, s.IsValue v → ∀ w ∈ s'.ring v, w ∈ s.ring v
  listed : ∀ v, ∀ i ∈ (s'.value v).sites, ∃ w ∈ s.ring v, i ∈ (s.value w).sites
  taken : ∀ v, ∀ i ∈ (s'.value v).sites, s'.site i = s.site i ∨ (s'.site i).isTaken = true
  source : ∀ v, (s'.value v).source = (s.value v).source

namespace Passes

theorem isValue (h : Passes s s') (v : ValueId) : s'.IsValue v ↔ s.IsValue v := by
  rw [IsValue, IsValue, h.size]

theorem isSite (h : Passes s s') (known : s.IsSite i) : s'.IsSite i :=
  Nat.lt_of_lt_of_le known h.sites

theorem refl (s : State) : Passes s s :=
  ⟨.refl _, rfl, le_rfl, fun _ _ => rfl, .refl _, rfl, fun _ _ _ member => member,
    fun v _ listed => ⟨v, selfMemRing s v, listed⟩, fun _ _ _ => .inl rfl, fun _ => rfl⟩

theorem trans (rings : s.Permutes) (first : Passes s t) (second : Passes t s') : Passes s s' := by
  refine ⟨first.shape.trans second.shape, second.size.trans first.size, first.sites.trans second.sites,
    fun i known => ?_, first.reads.trans second.reads, second.emitter.trans first.emitter, fun v known w member => ?_,
    fun v i listed => ?_, fun v i listed => ?_, fun v => (second.source v).trans (first.source v)⟩
  · exact (second.place i (first.isSite known)).trans (first.place i known)
  · exact first.met v known w (second.met v ((first.isValue v).mpr known) w member)
  · have known : s.IsValue v := (first.isValue v).mp ((second.isValue v).mp (s'.isValueOfSites listed))
    obtain ⟨u, between, inside⟩ := second.listed v i listed
    obtain ⟨w, member, before⟩ := first.listed u i inside
    exact ⟨w, memRingTrans rings known (first.met v known u between) member, before⟩
  · rcases second.taken v i listed with same | taken
    · obtain ⟨u, -, inside⟩ := second.listed v i listed
      rw [same]
      exact first.taken u i inside
    · exact .inr taken

theorem ofKeeps (keeps : Keeps s s') (emitter : s'.emitter = s.emitter)
    (source : ∀ v, (s'.value v).source = (s.value v).source)
    (fewer : ∀ v, ∀ i ∈ (s'.value v).sites, i ∈ (s.value v).sites ∧ s'.site i = s.site i) : Passes s s' :=
  ⟨keeps.resources.shape, keeps.size, keeps.sites, keeps.place, keeps.reads, emitter,
    fun v _ w member => by rwa [keeps.ring] at member,
    fun v i listed => ⟨v, selfMemRing s v, (fewer v i listed).1⟩,
    fun v i listed => .inl (fewer v i listed).2, source⟩

theorem asked {reads : ReadTable} (evolves : s.reads.Evolves reads) : Passes s { s with reads } :=
  ofKeeps (s.keepsAsk s.statistics s.resources.available evolves) rfl (fun _ => rfl)
    fun _ _ listed => ⟨listed, rfl⟩

end Passes

theorem detachAllRest (os : List Owner) : ∀ s : State, os.foldl State.detach s = { s with
    values := (os.foldl State.detach s).values
    sites := (os.foldl State.detach s).sites
    resources := (os.foldl State.detach s).resources } := by
  induction os with
  | nil => exact fun _ => rfl
  | cons o rest ih =>
    intro s
    have later := ih (s.detach o)
    rw [List.foldl_cons]
    generalize rest.foldl State.detach (s.detach o) = t at later ⊢
    rw [s.detachRest o] at later
    exact later

theorem detachAllSource (os : List Owner) : ∀ (s : State) (v : ValueId),
    ((os.foldl State.detach s).value v).source = (s.value v).source := by
  induction os with
  | nil => exact fun _ _ => rfl
  | cons o rest ih =>
    intro s v
    rw [List.foldl_cons, ih, detachValue]

theorem detachAllSite (os : List Owner) (i : SiteId) : ∀ s : State, (os.foldl State.detach s).site i =
    if ∃ o ∈ os, o.site = i then (s.site i).place else s.site i := by
  have placed : ∀ x : Site, x.place.place = x.place := by
    intro x
    cases x <;> rfl
  induction os with
  | nil => exact fun _ => by simp
  | cons o rest ih =>
    intro s
    rw [List.foldl_cons, ih, detachSite]
    by_cases here : o.site = i
    · simp [here, placed]
    · simp [here, Ne.symm here]

theorem passesDetachAll {os : List Owner} (once : s.ListedOnce)
    (held : ∀ o ∈ os, o.site ∈ (s.value o.value).sites) : Passes s (os.foldl State.detach s) := by
  refine .ofKeeps (keepsDetachAll os s) (by rw [detachAllRest]) (detachAllSource os s) fun v i listed => ?_
  obtain ⟨before, left⟩ := detachAllListed (o := ⟨v, i⟩) os listed
  rw [detachAllSite, if_neg]
  · exact ⟨before, rfl⟩
  rintro ⟨o, member, same⟩
  refine left ?_
  have here := held o member
  rw [same] at here
  rw [← once.apart o.value v i here before, ← same]
  exact member

theorem passesIsLive (formed : s.WellFormed) (v : ValueId) : Passes s (s.isLive v).2 := by
  obtain ⟨reads, state, evolves, -⟩ := liveReadSpec formed v
  rw [isLiveState, state]
  exact .asked evolves

theorem Advances.passes {next : Option ReadId} (h : Advances s v next t) : Passes s t := by
  refine ⟨h.unmoved.shape, h.size, h.unmoved.bound, fun i known => by rw [h.unmoved.site i known],
    h.evolves, by rw [h.rest], fun u _ w member => ?_, fun u i listed => ?_, fun u i _ => .inl ?_,
    fun w => by rw [h.value]⟩
  · rwa [h.ring] at member
  · rw [h.value] at listed
    exact ⟨u, selfMemRing s u, listed⟩
  · rw [h.rest]
    rfl

/-! Giving the sites of a value to an alias. -/

def Site.isOpen : Site → Bool
  | .register _ none => true
  | _ => false

theorem takenOfClosed {x : Site} (closed : x.isOpen = false) : x.taken.isTaken = true := by
  cases x with
  | register mask number =>
    cases number with
    | none => cases closed
    | some n => rfl
  | memory m acquired => rfl
  | constant p => rfl
  | address p => rfl

theorem isOpenOfPlace {x y : Site} (same : x.place = y.place) : x.isOpen = y.isOpen := by
  have isOpen : ∀ x : Site, x.place.isOpen = x.isOpen := by
    intro x
    cases x <;> rfl
  rw [← isOpen x, same, isOpen]

def State.Closed (s : State) (v : ValueId) : Prop := ∀ i ∈ (s.value v).sites, (s.site i).isOpen = false

instance (v : ValueId) : Decidable (s.Closed v) := inferInstanceAs (Decidable (∀ _ ∈ _, _))

theorem Passes.closed (h : Passes s s') (formed : s.WellFormed) (closed : ∀ v, s.Closed v) (v : ValueId) :
    s'.Closed v := by
  intro i listed
  obtain ⟨w, -, before⟩ := h.listed v i listed
  exact (isOpenOfPlace (h.place i (formed.listed w i before))).trans (closed w i before)

theorem acquireClosed (closed : (s.site i).isOpen = false)
    (vacant : ∀ id, s.resource? i = some id → s.Free id → s.owner? id = none) :
    acquire v i s = .ok () (((s.reach i).own ⟨v, i⟩ (s.site i).taken).setSite i (s.site i).taken) := by
  have named : ∀ id, s.resource? i = some id → acquireResource evict id ⟨v, i⟩ (s.reach i) =
      .ok () ((s.reach i).own ⟨v, i⟩ (s.site i).taken) := by
    intro id names
    have stands : (s.site i).taken.resource? (s.reach i).geometry = some id := by
      rw [← names]
      exact Site.resourceOfPlace (Site.placeTaken _)
    have owner : (s.reach i).owner? id = s.owner? id := s.reachOwner i id
    have free : (s.reach i).Free id ↔ s.Free id := (s.keepsReach i).free id
    rw [acquireFree fun unreserved => owner.trans (vacant id names (free.mp unreserved)), own, stands]
  unfold acquire acquireWith
  rw [getBind]
  cases site : s.site i with
  | constant p =>
    rw [reachBare (by rw [site]; rfl)]
    simp only [own, Site.taken, Site.resource?]
    rw [← site, setSiteSame]
    rfl
  | address p =>
    rw [reachBare (by rw [site]; rfl)]
    simp only [own, Site.taken, Site.resource?]
    rw [← site, setSiteSame]
    rfl
  | register mask number =>
    cases number with
    | none => simp [site, Site.isOpen] at closed
    | some n =>
      have bare : s.reach i = s := reachBare (by rw [site]; rfl)
      have taken := named (.register n) (by simp [State.resource?, site, Site.resource?])
      rw [bare, site] at taken
      simp only [settleRegister, bind, EStateM.bind, pure, EStateM.pure, taken, bare]
      rfl
  | memory m acquired =>
    have reach : s.reach i = s.referTo m := by simp [State.reach, site, Site.addressed, referToEq]
    have names : (s.reach i).slotResource? (.memory m acquired) = s.resource? i := by
      rw [State.resource?, site]
      rfl
    simp only [modifyBind, getBind, ← reach, names]
    cases slot : s.resource? i with
    | none =>
      have stands : (Site.memory m true).resource? (s.reach i).geometry = none := by
        rw [← slot, State.resource?, site]
        rfl
      simp only [Site.taken, own, stands]
      rfl
    | some id =>
      have taken := named id slot
      rw [site] at taken
      simp only [bind, EStateM.bind, taken]
      rfl

theorem releaseOwner (s : State) (i : SiteId) (id : ResourceId) : (s.release i).owner? id =
    if s.resource? i = some id ∧ (s.site i).isTaken = true ∧ s.Free id ∧
      (s.owner? id).map (·.site) = some i then none else s.owner? id := by
  rw [← ownerReleased, releaseEq]
  rfl

structure State.Passable (s : State) (i : SiteId) : Prop where
  known : s.IsSite i
  closed : (s.site i).isOpen = false
  recorded : ∀ id, s.Free id →
    ((s.owner? id).map (·.site) = some i ↔ s.resource? i = some id ∧ s.resources.Has id)
  taken : ∀ id, s.Free id → (s.owner? id).map (·.site) = some i → (s.site i).isTaken = true

theorem passableOfHeld (formed : s.WellFormed) (named : s.Named) (taken : s.Taken) (held : s.Held v)
    (closed : s.Closed v) (listed : i ∈ (s.value v).sites) : s.Passable i := by
  refine ⟨formed.listed v i listed, closed i listed, fun id free => ⟨fun owner => ?_, fun ⟨names, has⟩ => ?_⟩,
    fun id free owner => ?_⟩
  · obtain ⟨o, found, rfl⟩ := Option.map_eq_some_iff.mp owner
    exact ⟨(named id o free found).2.2, ResourceTable.hasOfOwner found⟩
  · rw [held i listed id names has free]
    rfl
  · obtain ⟨o, found, rfl⟩ := Option.map_eq_some_iff.mp owner
    exact taken id o free found

structure Gives (s : State) (w : ValueId) (given : List SiteId) (s' : State) : Prop where
  keeps : Keeps s s'
  bound : s'.sites.size = s.sites.size
  emitter : s'.emitter = s.emitter
  statistics : s'.statistics = s.statistics
  source : ∀ u, (s'.value u).source = (s.value u).source
  sites : ∀ u, (s'.value u).sites = (if u = w then given.reverse else []) ++ (s.value u).sites
  site : ∀ j, s.IsSite j → s'.site j = if j ∈ given then (s.site j).taken else s.site j
  owner : ∀ id, s.Free id → s'.owner? id =
    (s.owner? id).map fun o => if o.site ∈ given then ⟨w, o.site⟩ else o

namespace Gives

variable {given rest : List SiteId}

theorem nil (s : State) (w : ValueId) : Gives s w [] s :=
  ⟨.refl s, rfl, rfl, rfl, fun _ => rfl, fun _ => by simp, fun _ _ => by simp, fun _ _ => by simp⟩

theorem cons (first : Gives s w [i] t) (later : Gives t w rest s') : Gives s w (i :: rest) s' := by
  refine ⟨first.keeps.trans later.keeps, later.bound.trans first.bound, later.emitter.trans first.emitter,
    later.statistics.trans first.statistics, fun u => (later.source u).trans (first.source u),
    fun u => ?_, fun j known => ?_, fun id free => ?_⟩
  · rw [later.sites, first.sites]
    split <;> simp
  · rw [later.site j (first.keeps.isSite known), first.site j known]
    by_cases here : j = i
    · subst here
      simp [Site.takenOfPlace (Site.placeTaken _)]
    · simp [here]
  · rw [later.owner id ((first.keeps.free id).mpr free), first.owner id free, Option.map_map]
    refine congrArg (Option.map · _) (funext fun o => ?_)
    by_cases here : o.site = i
    · simp [here]
    · simp [here]

theorem ownerSite (h : Gives s w given s') (free : s.Free id) :
    (s'.owner? id).map (·.site) = (s.owner? id).map (·.site) := by
  rw [h.owner id free, Option.map_map]
  refine congrArg (Option.map · _) (funext fun o => ?_)
  simp only [Function.comp]
  split <;> rfl

theorem isTaken (h : Gives s w given s') (known : s.IsSite j)
    (closed : j ∈ given → (s.site j).isOpen = false) :
    s'.site j = s.site j ∨ (s'.site j).isTaken = true := by
  rw [h.site j known]
  split
  · rename_i inside
    exact .inr (takenOfClosed (closed inside))
  · exact .inl rfl

theorem passable (h : Gives s w given s') (before : s.Passable j) : s'.Passable j := by
  have known := before.known
  refine ⟨h.keeps.isSite known, (isOpenOfPlace (h.keeps.place j known)).trans before.closed,
    fun id free => ?_, fun id free owner => ?_⟩
  · rw [h.keeps.free] at free
    rw [h.ownerSite free, h.keeps.resource known, h.keeps.has]
    exact before.recorded id free
  · rw [h.keeps.free] at free
    rw [h.ownerSite free] at owner
    rcases h.isTaken known (fun _ => before.closed) with same | taken
    · rw [same]
      exact before.taken id free owner
    · exact taken

end Gives

theorem settleAtSource (s : State) (v : ValueId) (i : SiteId) (x : Site) (w : ValueId) :
    ((s.settleAt v i x).value w).source = (s.value w).source := by
  rw [settleAt, enlist, valueModify]
  split
  · rename_i here
    rw [here.1, ownRest]
    rfl
  · rw [ownRest]
    rfl

theorem handSettles (passable : s.Passable i) :
    hand w i s = .ok () (((s.release i).reach i).settleAt w i (s.site i).taken) := by
  have keeps := keepsRelease s i
  have place := keeps.place i passable.known
  have vacant : ∀ id, (s.release i).resource? i = some id → (s.release i).Free id →
      (s.release i).owner? id = none := by
    intro id names free
    rw [keeps.resource passable.known] at names
    rw [keeps.free] at free
    rw [releaseOwner]
    cases owner : s.owner? id with
    | none => simp
    | some o =>
      have same := (passable.recorded id free).mpr ⟨names, ResourceTable.hasOfOwner owner⟩
      have taken := passable.taken id free same
      rw [owner] at same
      exact if_pos ⟨names, taken, free, same⟩
  simp only [hand, modifyBind, bindOk, modifyOk]
  refine ⟨⟨⟩, _, acquireClosed ((isOpenOfPlace place).trans passable.closed) vacant, ?_⟩
  rw [Site.takenOfPlace place, settleAt, enlist]

theorem handGives (passable : s.Passable i) (value : s.IsValue w) :
    ∃ s', hand w i s = .ok () s' ∧ Gives s w [i] s' := by
  have known := passable.known
  have first := (keepsRelease s i).trans ((s.release i).keepsReach i)
  have value' := (first.isValue w).mpr value
  have same : ∀ u, ((s.release i).reach i).value u = s.value u := releaseValue s i
  have place : (s.site i).taken.place = (((s.release i).reach i).site i).place :=
    (Site.placeTaken _).trans (first.place i known).symm
  refine ⟨_, handSettles passable, ?_, ?_, ?_, ?_, fun u => ?_, fun u => ?_, fun j there => ?_, fun id free => ?_⟩
  · refine (first.trans (keepsOwn _ _ _)).trans ((keepsSetSite _ i ?_).trans (keepsEnlist _ w i))
    rw [place, ownRest]
    rfl
  · refine (settleAtSize _ _).2.trans ?_
    show (s.release i).sites.size = _
    rw [releaseEq]
    exact sizeSetSite _ _ _
  · rw [settleAtRest]
    show (s.release i).emitter = _
    rw [releaseEq]
    rfl
  · rw [settleAtRest]
    show (s.release i).statistics = _
    rw [releaseEq]
    rfl
  · rw [settleAtSource, same]
  · rw [settleAtSites _ _ value', same]
    split <;> rfl
  · rw [settleAtSite _ _ (first.isSite known)]
    have before : ((s.release i).reach i).site j = (s.release i).site j := rfl
    by_cases here : j = i
    · simp [here]
    · simp [here, before, releaseSite]
  · have stands : (s.site i).taken.resource? ((s.release i).reach i).geometry = s.resource? i := by
      rw [first.geometry]
      exact Site.resourceOfPlace (Site.placeTaken _)
    have owner : (((s.release i).reach i).settleAt w i (s.site i).taken).owner? id =
        if s.resource? i = some id ∧ s.resources.Has id ∧ s.Free id then some ⟨w, i⟩
        else (s.release i).owner? id := by
      rw [State.owner?, settleAtRest]
      refine (ownOwner _ _ _ id).trans ?_
      simp only [stands, first.has, first.free, reachOwner]
    have recorded := passable.recorded id free
    rw [owner]
    by_cases here : (s.owner? id).map (·.site) = some i
    · obtain ⟨names, has⟩ := recorded.mp here
      obtain ⟨o, found, site⟩ := Option.map_eq_some_iff.mp here
      simp [names, has, free, found, site]
    · have away : ¬ (s.resource? i = some id ∧ s.resources.Has id ∧ s.Free id) :=
        fun all => here (recorded.mpr ⟨all.1, all.2.1⟩)
      rw [if_neg away, releaseOwner, if_neg fun all => here all.2.2.2]
      cases found : s.owner? id with
      | none => rfl
      | some o =>
        have apart : o.site ≠ i := by simpa [found] using here
        simp [apart]

theorem handAllGives (sites : List SiteId) : ∀ {s : State}, (∀ i ∈ sites, s.Passable i) → s.IsValue w →
    ∃ s', sites.forM (hand w) s = .ok () s' ∧ Gives s w sites s' := by
  induction sites with
  | nil => exact fun {s} _ _ => ⟨s, rfl, .nil s w⟩
  | cons i rest ih =>
    intro s passable value
    obtain ⟨t, first, gives⟩ := handGives (passable i List.mem_cons_self) value
    obtain ⟨s', later, onward⟩ := ih (fun j member => gives.passable (passable j (List.mem_cons_of_mem _ member)))
      ((gives.keeps.isValue w).mpr value)
    exact ⟨s', bindOk.mpr ⟨⟨⟩, t, first, later⟩, gives.cons onward⟩

theorem heirMet (s : State) (rings : s.Permutes) (known : s.IsValue v) :
    (s.leaveRing v).1 ∈ s.ring v := by
  unfold State.leaveRing
  dsimp only
  split
  · exact selfMemRing s v
  · rw [memRing rings known, ← followKnown known]
    exact ⟨1, rfl⟩

def State.withdraw (s : State) (v : ValueId) : State := (s.leaveRing v).2.forfeit v

theorem State.withdrawRest (s : State) (v : ValueId) :
    s.withdraw v = { s with values := (s.withdraw v).values } := by
  rw [withdraw, forfeit, modifyValue, (s.leaveRingRelinks v).rest]

theorem State.withdrawSites (s : State) (v w : ValueId) :
    ((s.withdraw v).value w).sites = if w = v then [] else (s.value w).sites := by
  rw [withdraw, forfeitSites, (s.leaveRingRelinks v).sites]

theorem State.withdrawKeeps (s : State) (v : ValueId) : Keeps (s.leaveRing v).2 (s.withdraw v) :=
  keepsModifyValue _ v fun _ => rfl

theorem bequeathGives (formed : s.WellFormed) (taken : s.Taken) (named : s.Named) (known : s.IsValue v)
    (held : s.Held v) (closed : s.Closed v) : ∃ s', bequeath v s = .ok () s' ∧
      Gives (s.withdraw v) (s.leaveRing v).1 (s.value v).sites.reverse s' := by
  have relinks := s.leaveRingRelinks v
  have heir : (s.withdraw v).IsValue (s.leaveRing v).1 :=
    ((s.withdrawKeeps v).isValue _).mpr ((relinks.isValue _).mpr (leaveRingKnown formed.rings known))
  have passable : ∀ i ∈ (s.value v).sites.reverse, (s.withdraw v).Passable i := by
    intro i member
    obtain ⟨known, closed, recorded, taken⟩ :=
      passableOfHeld formed named taken held closed (List.mem_reverse.mp member)
    rw [s.withdrawRest]
    exact ⟨known, closed, recorded, taken⟩
  obtain ⟨s', ok, gives⟩ := handAllGives _ passable heir
  rw [← relinks.sites v] at ok
  refine ⟨s', ?_, gives⟩
  simp only [bequeath, modifyGetBind, getBind, modifyBind]
  exact ok

theorem bequeathPasses (h : s.Tracked lent []) (known : s.IsValue v) (alive : s.Live v)
    (closed : s.Closed v) (ok : bequeath v s = .ok () s') : Passes s s' := by
  have rings := h.formed.rings
  have relinks := s.leaveRingRelinks v
  have unmoved := relinks.unmoved
  obtain ⟨t, ok', gives⟩ := bequeathGives h.formed h.taken h.named known
    (fun i listed id => h.held v i id alive listed) closed
  cases ok.symm.trans ok'
  have all := (s.withdrawKeeps v).trans gives.keeps
  have listed : ∀ u, ∀ i ∈ (s'.value u).sites, ∃ w ∈ s.ring u, i ∈ (s.value w).sites := by
    intro u i listed
    rw [gives.sites, withdrawSites, List.mem_append] at listed
    rcases listed with given | old
    · split at given
      · rename_i here
        rw [List.reverse_reverse] at given
        exact ⟨v, memRingSymm rings known (here ▸ heirMet s rings known), given⟩
      · cases given
    · split at old
      · cases old
      · exact ⟨u, selfMemRing s u, old⟩
  have site : ∀ i, (s.withdraw v).site i = s.site i := by
    rw [s.withdrawRest]
    exact fun _ => rfl
  refine ⟨unmoved.shape.trans all.resources.shape, all.size.trans relinks.size,
    unmoved.bound.trans all.sites, fun i there => ?_, ?_, ?_, fun u inside w member => ?_, listed,
    fun u i inside => ?_, fun u => ?_⟩
  · rw [all.place i (Nat.lt_of_lt_of_le there unmoved.bound), unmoved.site i there]
  · have reads : (s.leaveRing v).2.reads = s.reads := by rw [relinks.rest]
    rw [← reads]
    exact all.reads
  · rw [gives.emitter, s.withdrawRest]
  · rw [all.ring] at member
    exact metLeave rings known inside w member
  · obtain ⟨w, -, before⟩ := listed u i inside
    have there := h.formed.listed w i before
    rw [← site i]
    refine gives.isTaken ((s.withdrawKeeps v).isSite (Nat.lt_of_lt_of_le there unmoved.bound)) fun given => ?_
    rw [site]
    exact closed i (List.mem_reverse.mp given)
  · rw [gives.source, withdraw, forfeit, valueModify]
    split
    · rename_i here
      rw [here.1, relinks.value]
    · rw [relinks.value]

/-! Consuming reads. -/

def State.Awaits (s : State) (e : EventId) : Prop :=
  ∀ r, (s.reads.get r).event = some e → s.reads.Pending r

theorem ReadTable.outside {t : ReadTable} {r : ReadId} (outside : ¬ t.IsRead r) : t.get r = default := by
  simp only [IsRead, size, Nat.not_lt] at outside
  simp [get, Array.getD, Nat.not_lt.mpr outside]

theorem State.Awaits.evolves {e : EventId} (awaits : s.Awaits e) (evolves : s.reads.Evolves s'.reads) :
    s'.Awaits e := by
  intro r own
  by_cases known : s.reads.IsRead r
  · rw [evolves.event r known] at own
    exact evolves.pendingOf (awaits r own)
  · by_cases there : s'.reads.IsRead r
    · obtain ⟨mask, successor, kind⟩ := evolves.added r known there
      exact .single kind
    · rw [ReadTable.outside there] at own
      cases own

theorem consumeReadPasses {e : EventId} (h : s.Tracked lent []) (awaits : s.Awaits e)
    (closed : ∀ v, s.Closed v) (ok : consumeRead (some e) v s = .ok () s') :
    Passes s s' ∧ s'.Tracked lent [] := by
  have rings := h.formed.rings
  obtain ⟨head, next, fronts⟩ := consumeReadFronts ok
  -- the value is live as long as the read is its first one
  have alive : s.Live v :=
    (liveIff h.formed v).mpr ⟨v, selfMemRing s v, head, fronts.front, awaits head fronts.own⟩
  have awake : s.Dormant v → s.Settled v := fun dormant => absurd alive dormant.1
  refine ⟨?_, consumeReadTracked h awake ok⟩
  obtain ⟨t, advances, onward⟩ := consumeReadGoesOn h.formed fronts
  have tracked := advances.tracked h awake fronts
  have first := advances.passes
  cases onward with
  | read _ same =>
    cases ok.symm.trans same
    exact first
  | shared _ alive same =>
    exact first.trans rings (bequeathPasses tracked ((first.isValue v).mpr fronts.known) alive
      (first.closed h.formed closed v) (same.symm.trans ok))
  | dead _ same =>
    cases ok.symm.trans same
    exact first.trans rings (passesDetachAll tracked.once fun o member => (memPlacements.mp member).2)

theorem consumeReadsPasses {e : EventId} (h : s.Tracked lent []) (awaits : s.Awaits e)
    (closed : ∀ v, s.Closed v) (ok : consumeReads e s = .ok () s') :
    Passes s s' ∧ s'.Tracked lent [] := by
  simp only [consumeReads, getBind] at ok
  refine forMKeeps (P := fun t => Passes s t ∧ t.Tracked lent []) _ (fun r _ t t' before step => ?_)
    ⟨.refl s, h⟩ ok
  obtain ⟨passes, tracked⟩ := before
  rw [getBind] at step
  obtain ⟨onward, tracked'⟩ := consumeReadPasses tracked (awaits.evolves passes.reads)
    (passes.closed h.formed closed) step
  exact ⟨passes.trans h.formed.rings onward, tracked'⟩

/-! Cleaning the frame. -/

theorem passesCleanValue (once : s.ListedOnce) (v : ValueId) (popIndex : Nat) : Passes s (s.cleanValue v popIndex) :=
  passesDetachAll once fun _ member => (memPlacements.mp (List.mem_filter.mp member).1).2

end Lowering
