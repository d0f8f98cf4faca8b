import Lowering.Proofs.Passing
import Lowering.Proofs.Upkeep
/-!
Consuming a read neither loses nor duplicates a location.

The chain of the value moves on by one read. As long as a value of the ring is read, the ring is where it
was: what the value itself was at passes to an alias, which has nobody to make room for it. When no value
of the ring is read any more, all its sites are given up.
-/
namespace Lowering

open State Build

variable {s s' t : State} {v w : ValueId} {i : SiteId} {id : ResourceId} {lent : List Register}
  {next : Option ReadId} {head : ReadId} {e : Option EventId} {ring : List ValueId}

/-! Chains of reads. -/

/-- The first reads of a chain. Nothing is known of those behind a fork. -/
def ReadTable.chain (t : ReadTable) : Nat → Option ReadId → List ReadId
  | n + 1, some r => r :: match t.next r with
      | .ok next => t.chain n next
      | .error _ => []
  | _, _ => []

theorem ReadTable.chainEvolves {t t' : ReadTable} (formed : t.WellFormed) (evolves : t.Evolves t') (n : Nat) :
    ∀ front : Option ReadId, (∀ r, front = some r → t.IsRead r) → t'.chain n front = t.chain n front := by
  induction n with
  | zero => exact fun front _ => by cases front <;> rfl
  | succ n ih =>
    intro front known
    cases front with
    | none => rfl
    | some r =>
      rw [chain, chain, evolves.next (known r rfl)]
      cases follows : t.next r with
      | error _ => rfl
      | ok next => exact congrArg (r :: ·) (ih next fun x same => (formed.chains (same ▸ follows)).1)

def State.chain (s : State) (v : ValueId) (n : Nat) : List ReadId := s.reads.chain n (s.value v).reads

structure Mute (s s' : State) : Prop where
  formed : s'.WellFormed
  reads : s.reads.Evolves s'.reads
  front : ∀ w, (s'.value w).reads = (s.value w).reads
  emitter : s'.emitter = s.emitter
  statistics : s'.statistics = s.statistics

theorem Mute.awaited (h : Mute s s') (formed : s.WellFormed) (w : ValueId) : s'.Awaited w ↔ s.Awaited w :=
  awaitedEvolves formed h.formed h.reads (h.front w)

theorem liveIffAwaited (formed : s.WellFormed) (v : ValueId) : s.Live v ↔ ∃ m ∈ s.ring v, s.Awaited m := by
  rw [liveIff formed]
  simp only [awaitedIff formed]

/-! Where a ring is. -/

def State.locations (s : State) (vs : List ValueId) : List Site :=
  vs.flatMap fun m => (s.value m).sites.map fun i => (s.site i).place

def State.Enrolled (s : State) : Prop := ∀ id o, s.Free id → s.owner? id = some o →
  o.site ∈ (s.value o.value).sites ∧ s.resource? o.site = some id

structure Retains (s : State) (ring : List ValueId) (s' : State) : Prop where
  locations : (s'.locations ring).Perm (s.locations ring)
  owner : ∀ id i, s.Free id →
    ((∃ m ∈ ring, s'.owner? id = some ⟨m, i⟩) ↔ ∃ m ∈ ring, s.owner? id = some ⟨m, i⟩)
  enrolled : s'.Enrolled
  foreign : ∀ id o, s.Free id → o.value ∉ ring → (s'.owner? id = some o ↔ s.owner? id = some o)
  elsewhere : ∀ w, w ∉ ring → (s'.value w).sites = (s.value w).sites

theorem locationsCongr (formed : s.WellFormed) (sites : ∀ w, (s'.value w).sites = (s.value w).sites)
    (place : ∀ i, s.IsSite i → (s'.site i).place = (s.site i).place) : s'.locations ring = s.locations ring := by
  refine List.flatMap_congr fun m _ => ?_
  rw [sites]
  exact List.map_congr_left fun i listed => place i (formed.listed m i listed)

theorem State.Unmoved.enrolled (h : Unmoved s t) (formed : s.WellFormed) (before : s.Enrolled) : t.Enrolled := by
  intro id o free owner
  rw [h.free] at free
  rw [h.owner] at owner
  obtain ⟨listed, names⟩ := before id o free owner
  rw [h.sites, h.resource (formed.listed _ _ listed)]
  exact ⟨listed, names⟩

theorem State.Enrolled.named (enrolled : s.Enrolled) (formed : s.WellFormed) : s.Named := by
  intro id o free owner
  obtain ⟨listed, names⟩ := enrolled id o free owner
  exact ⟨s.isValueOfSites listed, formed.listed _ _ listed, names⟩

theorem Retains.ofEnrolled (enrolled : s.Enrolled) : Retains s ring s :=
  ⟨.refl _, fun _ _ _ => Iff.rfl, enrolled, fun _ _ _ _ => Iff.rfl, fun _ _ => rfl⟩

theorem Retains.after (h : Retains t ring s') (formed : s.WellFormed) (unmoved : Unmoved s t) :
    Retains s ring s' := by
  have same : t.locations ring = s.locations ring :=
    locationsCongr formed unmoved.sites fun i known => by rw [unmoved.site i known]
  refine ⟨same ▸ h.locations, fun id i free => ?_, h.enrolled, fun id o free away => ?_,
    fun w away => (h.elsewhere w away).trans (unmoved.sites w)⟩
  · rw [h.owner id i ((unmoved.free id).mpr free)]
    simp only [unmoved.owner]
  · rw [h.foreign id o ((unmoved.free id).mpr free) away, unmoved.owner]

theorem flatMapPoured {α β : Type} [DecidableEq α] {f f' : α → List β} {a b : α} {l : List α}
    (once : l.Nodup) (first : a ∈ l) (second : b ∈ l) (apart : b ≠ a) (emptied : f' a = [])
    (filled : f' b = f a ++ f b) (others : ∀ c, c ≠ a → c ≠ b → f' c = f c) :
    (l.flatMap f').Perm (l.flatMap f) := by
  have split : l.Perm (a :: b :: (l.erase a).erase b) :=
    (List.perm_cons_erase first).trans ((List.perm_cons_erase ((List.mem_erase_of_ne apart).mpr second)).cons a)
  have rest : ((l.erase a).erase b).flatMap f' = ((l.erase a).erase b).flatMap f := by
    refine List.flatMap_congr fun c member => ?_
    obtain ⟨otherB, member⟩ := (once.erase a).mem_erase_iff.mp member
    exact others c (once.mem_erase_iff.mp member).1 otherB
  refine (split.flatMap_right f').trans (.trans ?_ (split.flatMap_right f).symm)
  simp [emptied, filled, rest]

/-! The sites pass to an alias. -/

theorem heirApart (formed : s.WellFormed) (silent : ¬ s.Awaited v) (alive : s.Live v) :
    (s.leaveRing v).1 ≠ v := by
  obtain ⟨m, member, awaited⟩ := (liveIffAwaited formed v).mp alive
  intro same
  have alone : (s.value v).next = v := by
    unfold leaveRing at same
    dsimp only at same
    split at same
    · rename_i alone
      simpa using alone
    · exact same
  rw [ringAlone alone, List.mem_singleton] at member
  exact silent (member ▸ awaited)

structure Inherits (s : State) (v heir : ValueId) (s' : State) : Prop where
  free : ∀ id, s'.Free id ↔ s.Free id
  geometry : s'.geometry = s.geometry
  place : ∀ i, s.IsSite i → (s'.site i).place = (s.site i).place
  sites : ∀ u, (s'.value u).sites = if u = heir then (s.value v).sites ++ (s.value heir).sites
    else if u = v then [] else (s.value u).sites
  owner : ∀ id, s.Free id → s'.owner? id =
    (s.owner? id).map fun o => if o.site ∈ (s.value v).sites then ⟨heir, o.site⟩ else o

theorem bequeathInherits (formed : s.WellFormed) (enrolled : s.Enrolled) (taken : s.Taken) (known : s.IsValue v)
    (held : s.Held v) (closed : s.Closed v) (apart : (s.leaveRing v).1 ≠ v) :
    ∃ s', bequeath v s = .ok () s' ∧ Mute s s' ∧ Inherits s v (s.leaveRing v).1 s' ∧
      (s'.value v).next = v := by
  obtain ⟨s', ok, gives⟩ := bequeathGives formed taken (enrolled.named formed) known held closed
  have relinks := s.leaveRingRelinks v
  have rings := permutesLeave formed.rings known
  have all := (s.withdrawKeeps v).trans gives.keeps
  have rest := s.withdrawRest v
  have bound := relinks.unmoved.bound
  have isSite : ∀ i, s.IsSite i → s'.IsSite i := fun i there => all.isSite (Nat.lt_of_lt_of_le there bound)
  have inherits : Inherits s v (s.leaveRing v).1 s' := by
    refine ⟨fun id => (all.free id).trans (relinks.unmoved.free id), all.geometry.trans relinks.unmoved.geometry,
      fun i there => ?_, fun u => ?_, fun id free => ?_⟩
    · rw [all.place i (Nat.lt_of_lt_of_le there bound), relinks.unmoved.site i there]
    · rw [gives.sites, s.withdrawSites]
      by_cases here : u = (s.leaveRing v).1
      · rw [here, if_pos rfl, if_pos rfl, if_neg apart, List.reverse_reverse]
      · rw [if_neg here, if_neg here, List.nil_append]
    · rw [gives.owner id (by rw [rest]; exact free), rest]
      simp only [List.mem_reverse]
      rfl
  refine ⟨s', ok, ⟨?_, ?_, fun u => (all.head u).trans (relinks.head u), ?_, ?_⟩, inherits, ?_⟩
  · refine all.wellFormed (relinks.wellFormed formed rings) fun u i listed => ?_
    rw [inherits.sites] at listed
    split at listed
    · exact (List.mem_append.mp listed).elim (fun from_ => isSite i (formed.listed v i from_))
        fun own => isSite i (formed.listed _ i own)
    · split at listed
      · cases listed
      · exact isSite i (formed.listed u i listed)
  · have reads : (s.leaveRing v).2.reads = s.reads := by rw [relinks.rest]
    rw [← reads]
    exact all.reads
  · rw [gives.emitter, rest]
  · rw [gives.statistics, rest]
  · have step := followLeave formed.rings known v
    rw [if_pos rfl, followKnown ((relinks.isValue v).mpr known)] at step
    rw [all.next, step]

theorem Inherits.retains {heir : ValueId} (h : Inherits s v heir s') (formed : s.WellFormed)
    (enrolled : s.Enrolled) (known : s.IsValue v) (held : s.Held v) (met : heir ∈ s.ring v) (apart : heir ≠ v) :
    Retains s (s.ring v) s' := by
  have own : ∀ id o, s.Free id → s.owner? id = some o → o.site ∈ (s.value v).sites → o.value = v := by
    intro id o free found listed
    have here := held o.site listed id (enrolled id o free found).2 (ResourceTable.hasOfOwner found) free
    rw [Option.some.inj (found.symm.trans here)]
  have self := selfMemRing s v
  have inLists : ∀ u, u ≠ v → u ≠ heir → (s'.value u).sites = (s.value u).sites := by
    intro u other other'
    rw [h.sites, if_neg other', if_neg other]
  refine ⟨?_, fun id i free => ?_, fun id o free found => ?_, fun id o free away => ?_, fun u away => ?_⟩
  · have known' : ∀ u, ∀ i ∈ (s'.value u).sites, s.IsSite i := by
      intro u i listed
      rw [h.sites] at listed
      split at listed
      · exact (List.mem_append.mp listed).elim (formed.listed v i) (formed.listed heir i)
      · split at listed
        · cases listed
        · exact formed.listed u i listed
    have same : s'.locations (s.ring v) =
        (s.ring v).flatMap fun m => (s'.value m).sites.map fun i => (s.site i).place :=
      List.flatMap_congr fun m _ => List.map_congr_left fun i listed => h.place i (known' m i listed)
    rw [same]
    refine flatMapPoured (nodupRing formed.rings known) self met apart ?_ ?_ fun u other other' => ?_
    · simp [h.sites, apart.symm]
    · simp [h.sites]
    · rw [inLists u other other']
  · rw [h.owner id free]
    constructor
    · rintro ⟨m, member, found⟩
      obtain ⟨o, before, moved⟩ := Option.map_eq_some_iff.mp found
      split at moved
      · rename_i listed
        cases moved
        exact ⟨v, self, by rw [before, ← own id o free before listed]⟩
      · cases moved
        exact ⟨m, member, before⟩
    · rintro ⟨m, member, before⟩
      rw [before, Option.map_some]
      split
      · exact ⟨heir, met, rfl⟩
      · exact ⟨m, member, rfl⟩
  · rw [h.free] at free
    rw [h.owner id free] at found
    obtain ⟨p, before, moved⟩ := Option.map_eq_some_iff.mp found
    obtain ⟨listed, names⟩ := enrolled id p free before
    have stands : s'.resource? p.site = some id := by
      rw [resource?, h.geometry, Site.resourceOfPlace (h.place _ (formed.listed _ _ listed))]
      exact names
    split at moved
    · rename_i inside
      subst moved
      exact ⟨by rw [h.sites, if_pos rfl]; exact List.mem_append_left _ inside, stands⟩
    · rename_i outside
      subst moved
      refine ⟨?_, stands⟩
      rw [h.sites]
      split
      · rename_i here
        rw [← here]
        exact List.mem_append_right _ listed
      · rw [if_neg fun here => outside (by rw [← here]; exact listed)]
        exact listed
  · rw [h.owner id free, Option.map_eq_some_iff]
    constructor
    · rintro ⟨p, before, moved⟩
      split at moved
      · exact absurd (by rw [← moved]; exact met) away
      · rwa [← moved]
    · intro before
      refine ⟨o, before, if_neg fun listed => away ?_⟩
      rw [own id o free before listed]
      exact self
  · exact inLists u (fun here => away (by rw [here]; exact self)) fun here => away (by rw [here]; exact met)

/-! The sites are given up. -/

structure GivesUp (s : State) (v : ValueId) (s' : State) : Prop where
  bare : ∀ m ∈ s.ring v, (s'.value m).sites = []
  released : ∀ o ∈ s.placements v, s'.site o.site = (s.site o.site).place
  vacated : ∀ o ∈ s.placements v, ∀ id p, s.Free id → s'.owner? id = some p → p.site ≠ o.site

theorem detachAllApart (os : List Owner) : ∀ {s : State}, s.Named → s.Taken → s.Free id →
    ∀ {p : Owner}, (os.foldl State.detach s).owner? id = some p → ∀ o ∈ os, p.site ≠ o.site := by
  induction os with
  | nil => simp
  | cons q rest ih =>
    intro s named taken free p owner o member
    have keeps := s.keepsDetach q
    have free' := (keeps.free id).mpr free
    rcases List.mem_cons.mp member with rfl | member
    · exact (detachApart named taken free (detachAllOwner rest owner)).2
    · refine ih (keeps.named (fun id p owner => ?_) named) (detachTaken named taken q) free' owner o member
      exact detachAllOwner [q] owner

theorem clearSitesGivesUp (formed : s.WellFormed) (named : s.Named) (taken : s.Taken) (v : ValueId) :
    Mute s (s.clearSites v) ∧ GivesUp s v (s.clearSites v) := by
  have keeps := keepsClearSites s v
  have rest := detachAllRest (s.placements v) s
  refine ⟨⟨?_, keeps.reads, keeps.head, ?_, ?_⟩, fun m member => clearSitesBare member, fun o inside => ?_,
    fun o inside id p free owner => detachAllApart _ named taken free owner o inside⟩
  · exact keeps.wellFormed formed fun w i listed => keeps.isSite (formed.listed w i (clearSitesListed listed))
  · rw [clearSites, rest]
  · rw [clearSites, rest]
  · exact (detachAllSite _ _ _).trans (if_pos ⟨o, inside, rfl⟩)

/-! Consuming a read. -/

structure Consumes (s : State) (v : ValueId) (s' : State) : Prop where
  chain : ∃ head, ∀ n, s.chain v (n + 1) = head :: s'.chain v n
  chains : ∀ w, w ≠ v → ∀ n, s'.chain w n = s.chain w n
  emitter : s'.emitter = s.emitter
  statistics : s'.statistics = s.statistics
  kept : (∃ m ∈ s.ring v, s'.Awaited m) → Retains s (s.ring v) s'
  alone : (∃ m ∈ s.ring v, s'.Awaited m) → ¬ s'.Awaited v →
    (s'.value v).next = v ∧ (s'.value v).sites = []
  gone : (∀ m ∈ s.ring v, ¬ s'.Awaited m) → GivesUp s v s'
  coherent : ¬ s'.Awaited v → ∀ lent, s.Coherent lent → s'.Coherent lent

theorem chainsAdvance (formed : s.WellFormed) (fronts : s.Fronts e v head next) (advances : Advances s v next t)
    (mute : Mute t s') : (∀ n, s.chain v (n + 1) = head :: s'.chain v n) ∧
      ∀ w, w ≠ v → ∀ n, s'.chain w n = s.chain w n := by
  have evolves := advances.evolves.trans mute.reads
  have front : ∀ w, (s'.value w).reads = if w = v then next else (s.value w).reads := fun w => by
    rw [mute.front, advances.value]
  refine ⟨fun n => ?_, fun w other n => ?_⟩
  · have rest : s'.chain v n = s.reads.chain n next := by
      rw [State.chain, front, if_pos rfl]
      exact ReadTable.chainEvolves formed.reads evolves n next fun x same =>
        (formed.reads.chains (same ▸ fronts.follows)).1
    rw [rest, State.chain, fronts.front, ReadTable.chain, fronts.follows]
  · rw [State.chain, State.chain, front, if_neg other]
    exact ReadTable.chainEvolves formed.reads evolves n _ fun x front => (formed.heads w x front).1

theorem aliveBefore (formed : s.WellFormed) (fronts : s.Fronts e v head next) (advances : Advances s v next t)
    (silent : ¬ t.Awaited v) (alive : t.Live v) : s.Live v := by
  have formed' := advances.wellFormed formed fronts
  obtain ⟨m, member, awaited⟩ := (liveIffAwaited formed' v).mp alive
  obtain ⟨r, front, pending⟩ := (awaitedIff formed' m).mp awaited
  have other : m ≠ v := fun same => silent (same ▸ awaited)
  rw [advances.value] at front
  simp only [other, if_false] at front
  rw [advances.ring] at member
  exact (liveIff formed v).mpr ⟨m, member, r, front,
    advances.evolves.ofPending formed.reads.ordered pending (formed.heads m r front).1⟩

theorem State.Unmoved.held (h : Unmoved s t) (formed : s.WellFormed) (before : s.Held v) : t.Held v := by
  intro i listed id names has free
  rw [h.sites] at listed
  rw [h.resource (formed.listed v i listed)] at names
  rw [h.owner]
  exact before i listed id names ((h.shape.has id).mp has) ((h.free id).mp free)

theorem GivesUp.after (h : GivesUp t v s') (formed : s.WellFormed) (advances : Advances s v next t) :
    GivesUp s v s' := by
  have unmoved := advances.unmoved
  have ring := advances.ring v
  have placed : ∀ o ∈ s.placements v, o ∈ t.placements v := by
    intro o inside
    obtain ⟨member, listed⟩ := memPlacements.mp inside
    exact memPlacements.mpr ⟨by rw [ring]; exact member, by rw [unmoved.sites]; exact listed⟩
  refine ⟨fun m member => h.bare m (by rw [ring]; exact member), fun o inside => ?_,
    fun o inside id p free => h.vacated o (placed o inside) id p ((unmoved.free id).mpr free)⟩
  rw [h.released o (placed o inside), unmoved.site _ (formed.listed _ _ (memPlacements.mp inside).2)]

theorem consumeReadConsumes (formed : s.WellFormed) (owned : s.Owned) (taken : s.Taken) (closed : s.Closed v)
    (fronts : s.Fronts e v head next) : ∃ s', consumeRead e v s = .ok () s' ∧ Consumes s v s' := by
  obtain ⟨t, advances, onward⟩ := consumeReadGoesOn formed fronts
  have formed' := advances.wellFormed formed fronts
  have unmoved := advances.unmoved
  have enrolled : t.Enrolled := unmoved.enrolled formed owned.recorded
  have taken' := unmoved.taken (owned.named formed) taken
  have ring := advances.ring v
  -- whichever way it goes on, the reads are the same from here
  have assemble : ∀ s', consumeRead e v s = .ok () s' → Mute t s' →
      ((∃ m ∈ s.ring v, t.Awaited m) → Retains s (s.ring v) s') →
      ((∃ m ∈ s.ring v, t.Awaited m) → ¬ t.Awaited v → (s'.value v).next = v ∧ (s'.value v).sites = []) →
      ((∀ m ∈ s.ring v, ¬ t.Awaited m) → GivesUp s v s') → Consumes s v s' := by
    intro s' ok mute kept alone gone
    have awaited := mute.awaited formed'
    obtain ⟨chain, chains⟩ := chainsAdvance formed fronts advances mute
    refine ⟨⟨head, chain⟩, chains, ?_, ?_, ?_, ?_, ?_, fun silent lent coherent => ?_⟩
    · rw [mute.emitter, advances.rest]
    · rw [mute.statistics, advances.rest]
    · simpa only [awaited] using kept
    · simpa only [awaited] using alone
    · simpa only [awaited] using gone
    · refine trackedIff.mp (consumeReadTracked (trackedIff.mpr coherent) (fun dormant => absurd ?_ silent) ok)
      obtain ⟨-, r, x, front, follows, pending⟩ := dormant
      cases fronts.front.symm.trans front
      cases fronts.follows.symm.trans follows
      refine (awaited v).mpr ((awaitedIff formed' v).mpr ⟨x, ?_, advances.evolves.pendingOf pending⟩)
      rw [advances.value, if_pos rfl]
  cases onward with
  | read awaited same =>
    refine ⟨t, same, assemble t same ⟨formed', .refl _, fun _ => rfl, rfl, rfl⟩
      (fun _ => (Retains.ofEnrolled enrolled).after formed unmoved) (fun _ silent => absurd awaited silent)
      fun none => absurd awaited (none v (selfMemRing s v))⟩
  | shared silent alive same =>
    have held : t.Held v := by
      refine unmoved.held formed fun i listed id => ?_
      exact owned.held v i id (aliveBefore formed fronts advances silent alive) listed
    have apart := heirApart formed' silent alive
    have known := (advances.isValue v).mpr fronts.known
    have closed' : t.Closed v := by
      intro i listed
      rw [unmoved.sites] at listed
      rw [unmoved.site i (formed.listed v i listed)]
      exact closed i listed
    obtain ⟨s', ok, mute, inherits, alone⟩ := bequeathInherits formed' enrolled taken' known held closed' apart
    have retains := inherits.retains formed' enrolled known held (heirMet t formed'.rings known) apart
    rw [ring] at retains
    refine ⟨s', same.trans ok, assemble s' (same.trans ok) mute (fun _ => retains.after formed unmoved)
      (fun _ _ => ⟨alone, ?_⟩) fun none => ?_⟩
    · rw [inherits.sites, if_neg apart.symm, if_pos rfl]
    · obtain ⟨m, member, awaited⟩ := (liveIffAwaited formed' v).mp alive
      rw [ring] at member
      exact absurd awaited (none m member)
  | dead silent same =>
    obtain ⟨mute, gone⟩ := clearSitesGivesUp formed' (enrolled.named formed') taken' v
    have dead : ¬ ∃ m ∈ s.ring v, t.Awaited m := by rwa [← ring, ← liveIffAwaited formed']
    exact ⟨_, same, assemble _ same mute (fun some => absurd some dead) (fun some => absurd some dead)
      fun _ => gone.after formed advances⟩

/- Consuming fails before anything is handed on, or not at all. -/
theorem consumingKeepsLocations (formed : s.WellFormed) (owned : s.Owned) (taken : s.Taken)
    (closed : s.Closed v) :
    (Succeeds (consumeRead e v) s ↔ ∃ head next, s.Fronts e v head next) ∧
      ∀ s', consumeRead e v s = .ok () s' → Consumes s v s' := by
  refine ⟨⟨fun ⟨_, _, ok⟩ => consumeReadFronts ok, fun ⟨_, _, fronts⟩ => ?_⟩, fun s' ok => ?_⟩
  · obtain ⟨s', ok, -⟩ := consumeReadConsumes formed owned taken closed fronts
    exact ⟨⟨⟩, s', ok⟩
  · obtain ⟨head, next, fronts⟩ := consumeReadFronts ok
    obtain ⟨t, ok', consumes⟩ := consumeReadConsumes formed owned taken closed fronts
    cases ok.symm.trans ok'
    exact consumes

def pairing : Build Unit := do
  discard (modifyGet (·.newValue .general))
  discard (modifyGet (·.newValue .general))
  discard (modifyGet (·.newSite (.ofRegister X64.rdi)))
  linkRead none ⟨0⟩ (← probe ⟨0⟩ .any)
  linkRead none ⟨1⟩ (← probe ⟨1⟩ .any)
  place ⟨0⟩ ⟨0⟩
  modify (·.joinRing ⟨0⟩ ⟨1⟩)

def State.paired : State := after pairing unstarted

theorem pairedKeepsLocations : (paired.Coherent [] ∧ paired.Closed ⟨0⟩) ∧
    (Succeeds (consumeRead none ⟨0⟩) paired ∧ Consumes paired ⟨0⟩ (after (consumeRead none ⟨0⟩) paired)) ∧
      ((∃ m ∈ paired.ring ⟨0⟩, (after (consumeRead none ⟨0⟩) paired).Awaited m) ∧
        ¬ (after (consumeRead none ⟨0⟩) paired).Awaited ⟨0⟩) ∧
      (after (consumeRead none ⟨0⟩) paired).owner? (.register X64.rdi) = some ⟨⟨1⟩, ⟨0⟩⟩ := by
  have coherent : paired.Coherent [] := by decide +kernel
  have closed : paired.Closed ⟨0⟩ := by decide +kernel
  obtain ⟨⟨⟩, s', ok⟩ : Succeeds (consumeRead none ⟨0⟩) paired := by decide +kernel
  have consumes := (consumingKeepsLocations coherent.formed coherent.owned coherent.taken closed).2 s' ok
  rw [← afterOk ok] at consumes
  exact ⟨⟨coherent, closed⟩, ⟨⟨⟨⟩, s', ok⟩, consumes⟩, by decide +kernel, by decide +kernel⟩

def choosing : Build Unit := do
  discard (modifyGet (·.newValue .general))
  discard (modifyGet (·.newSite (.ofRegister X64.rdi)))
  linkRead none ⟨0⟩ (← probe ⟨0⟩ .any)
  place ⟨0⟩ ⟨0⟩
  discard (modifyGet (·.newValueAt .general (.ofRegisters (RegisterSet.single X64.rdi))))
  discard (modifyGet (·.newValue .general))
  linkRead none ⟨1⟩ (← probe ⟨1⟩ .any)
  linkRead none ⟨2⟩ (← probe ⟨2⟩ .any)
  modify (·.joinRing ⟨1⟩ ⟨2⟩)

def State.unchosen : State := after choosing unstarted

def listing : Build Unit := do
  discard (modifyGet fun s => s.newValueAt .general (.frame s.geometry 2))
  discard (modifyGet (·.newValue .general))
  linkRead none ⟨0⟩ (← probe ⟨0⟩ .any)
  linkRead none ⟨1⟩ (← probe ⟨1⟩ .any)
  modify (·.joinRing ⟨0⟩ ⟨1⟩)
  modify (·.modifyResources (·.setOwner (.slot 2) (some ⟨⟨0⟩, ⟨0⟩⟩)))

def State.unacquired : State := after listing unstarted

/- The alias chooses the register, and takes it from the value that has it. The slot is not given back,
so that it is taken from the value that gives it away. -/
theorem handingSteals :
    (unchosen.Coherent [] ∧ Succeeds (consumeRead none ⟨1⟩) unchosen ∧
      (after (consumeRead none ⟨1⟩) unchosen).Awaited ⟨2⟩ ∧
      ¬ ((after (consumeRead none ⟨1⟩) unchosen).locations (unchosen.ring ⟨1⟩)).Perm
        (unchosen.locations (unchosen.ring ⟨1⟩)) ∧
      (after (consumeRead none ⟨1⟩) unchosen).owner? (.register X64.rdi) = some ⟨⟨2⟩, ⟨1⟩⟩ ∧
      (after (consumeRead none ⟨1⟩) unchosen).statistics.steals = unchosen.statistics.steals + 1) ∧
    unacquired.WellFormed ∧ unacquired.Owned ∧ unacquired.Counted [] ∧
      Succeeds (consumeRead none ⟨0⟩) unacquired ∧
      (after (consumeRead none ⟨0⟩) unacquired).statistics.steals = unacquired.statistics.steals + 1 := by
  decide +kernel

end Lowering
