import Lowering.Proofs.Agreement
/-!
A value that is no longer read leaves its sites to an alias.

The sites are taken off its list all at once and given to the heir one after the other. In between
they are recorded without being listed, and what they refer to counts as lent.
-/
namespace Lowering

open State Build

variable {s s' t : State} {old : Nat} {id : ResourceId} {v w : ValueId} {i j : SiteId}
  {lent : List Register} {due : List Owner}

/-! Taking the sites off the list. -/

def State.referredAll (s : State) (sites : List SiteId) : List Register :=
  sites.flatMap fun i => (s.site i).referred

theorem State.usesOfReferred (s : State) (v : ValueId) (r : Register) :
    (s.referredAll (s.value v).sites).count r = s.usesOf v r := by
  rw [referredAll, List.count_flatMap]
  rfl

theorem State.referredAllPerm (s : State) {sites sites' : List SiteId}
    (perm : sites.Perm sites') (r : Register) :
    (s.referredAll sites).count r = (s.referredAll sites').count r :=
  (perm.flatMap_right _).count_eq r

def State.forfeit (s : State) (v : ValueId) : State :=
  s.modifyValue v fun d => { d with sites := [] }

theorem forfeitSites (s : State) (v w : ValueId) :
    ((s.forfeit v).value w).sites = if w = v then [] else (s.value w).sites := by
  rw [forfeit, valueModify]
  by_cases same : w = v
  · subst same
    by_cases known : s.IsValue w
    · simp [known]
    · rw [if_neg fun both => known both.2, s.valueOutside known, if_pos rfl]
      rfl
  · simp [same]

theorem forfeitListed : j ∈ ((s.forfeit v).value w).sites ↔ w ≠ v ∧ j ∈ (s.value w).sites := by
  rw [forfeitSites]
  split <;> simp_all

theorem forfeitTracked (h : s.Tracked lent []) (known : s.IsValue v) {sites : List SiteId}
    (all : sites.Perm (s.value v).sites) :
    (s.forfeit v).Tracked (s.referredAll sites ++ lent) (sites.map (⟨v, ·⟩)) := by
  have keeps : Keeps s (s.forfeit v) := s.keepsModifyValue v fun _ => rfl
  have formed := keeps.wellFormed h.formed fun w i listed =>
    h.formed.listed w i (forfeitListed.mp listed).2
  refine ⟨formed, fun id o free owner => ?_, fun w i id alive listed names has free => ?_, h.vacant,
    h.taken, ⟨fun w => ?_, fun w u i first second => ?_⟩, fun r has free => ?_, fun o inside => ?_⟩
  · obtain ⟨listed, names⟩ := h.recorded id o free owner
    have listed := listed.resolve_right (by simp)
    refine ⟨?_, names⟩
    by_cases here : o.value = v
    · refine .inr (List.mem_map.mpr ⟨o.site, all.mem_iff.mpr (here ▸ listed), ?_⟩)
      rw [← here]
    · exact .inl (forfeitListed.mpr ⟨here, listed⟩)
  · refine h.held w i id ?_ (forfeitListed.mp listed).2 names has free
    exact (keeps.live h.formed formed w).mp alive
  · rw [forfeit, valueModify]
    split
    · exact List.nodup_nil
    · exact h.once.each w
  · exact h.once.apart w u i (forfeitListed.mp first).2 (forfeitListed.mp second).2
  · have others : ∀ w, w ≠ v → (s.forfeit v).usesOf w r = s.usesOf w r := by
      intro w other
      unfold usesOf
      rw [forfeit, valueModify, if_neg fun both => other both.1]
      rfl
    have none : (s.forfeit v).usesOf v r = 0 := by
      unfold usesOf
      rw [forfeit, valueModify, if_pos ⟨rfl, known⟩]
      rfl
    have update := usesUpdate known keeps.size others
    have was := h.counted r has free
    rw [List.count_append, s.referredAllPerm all, usesOfReferred]
    show (s.resources.get (.register r)).references = _
    omega
  · obtain ⟨i, member, rfl⟩ := List.mem_map.mp inside
    have listed := all.mem_iff.mp member
    refine ⟨(keeps.isValue v).mpr known, h.formed.listed v i listed, fun w inside => ?_⟩
    obtain ⟨other, listed'⟩ := forfeitListed.mp inside
    exact other (h.once.apart w v i listed' listed)

/-! Releasing a site that is on its way. -/

theorem keepsRelease (s : State) (i : SiteId) : Keeps s (s.release i) := by
  refine ⟨?_, ?_, fun w => ?_, ?_, fun j _ => ?_, ?_, ?_⟩
  · rw [releaseEq]
    rfl
  · rw [releaseEq]
    rfl
  · rw [releaseEq]
    rfl
  · rw [releaseEq, sizeSetSite]
  · rw [releaseSite]
    split
    · rename_i here
      rw [here]
      cases s.site i <;> rfl
    · rfl
  · rw [releaseEq]
    exact .refl _
  · rw [releaseEq]
    exact s.steadyReleased i

theorem releaseValue (s : State) (i : SiteId) (w : ValueId) :
    (s.release i).value w = s.value w := by
  rw [releaseEq]
  rfl

theorem releaseTracked (h : s.Tracked ((s.site i).referred ++ lent) (⟨v, i⟩ :: due))
    (settled : ∀ o ∈ due, o.site ≠ i) : (s.release i).Tracked lent due := by
  have keeps := keepsRelease s i
  obtain ⟨-, -, unlisted⟩ := h.loose ⟨v, i⟩ List.mem_cons_self
  have owner : ∀ id, (s.release i).owner? id =
      if s.resource? i = some id ∧ (s.site i).isTaken = true ∧ s.Free id ∧
        (s.owner? id).map (·.site) = some i then none else s.owner? id := by
    intro id
    rw [← ownerReleased, releaseEq]
    rfl
  -- an owner that is left has it through another site
  have before : ∀ id o, s.Free id → (s.release i).owner? id = some o →
      s.owner? id = some o ∧ o.site ≠ i := by
    intro id o free left
    rw [owner] at left
    split at left
    · cases left
    · rename_i stays
      refine ⟨left, fun same => stays ?_⟩
      obtain ⟨-, names⟩ := h.recorded id o free left
      have taken := h.taken id o free left
      rw [same] at names taken
      exact ⟨names, taken, free, by simp [left, same]⟩
  have listed : ∀ w j, j ∈ ((s.release i).value w).sites → j ∈ (s.value w).sites ∧ j ≠ i := by
    intro w j inside
    rw [releaseValue] at inside
    refine ⟨inside, ?_⟩
    rintro rfl
    exact unlisted w inside
  have formed := keeps.wellFormed h.formed fun w j inside =>
    keeps.isSite (h.formed.listed w j (listed w j inside).1)
  refine ⟨formed, fun id o free owned => ?_, fun w j id alive inside names has free => ?_,
    fun id held => ?_, fun id o free owned => ?_, h.once.congr fun w => by rw [releaseValue],
    fun r has free => ?_, fun o inside => ?_⟩
  · rw [keeps.free] at free
    obtain ⟨owned, other⟩ := before id o free owned
    obtain ⟨from_, names⟩ := h.recorded id o free owned
    rw [keeps.resource (h.named id o free owned).2.1, releaseValue]
    refine ⟨from_.imp_right fun inside => ?_, names⟩
    rcases List.mem_cons.mp inside with rfl | inside
    · exact absurd rfl other
    · exact inside
  · obtain ⟨inside, other⟩ := listed w j inside
    rw [keeps.resource (h.formed.listed w j inside)] at names
    rw [keeps.has] at has
    rw [keeps.free] at free
    have owned := h.held w j id ((keeps.live h.formed formed w).mp alive) inside names has free
    rw [owner, if_neg]
    · exact owned
    · rintro ⟨-, -, -, same⟩
      rw [owned] at same
      exact other (by simpa using same)
  · rw [keeps.free] at held
    rw [owner, h.vacant id held]
    simp
  · rw [keeps.free] at free
    obtain ⟨owned, other⟩ := before id o free owned
    rw [releaseSite, if_neg other]
    exact h.taken id o free owned
  · rw [keeps.has] at has
    rw [keeps.free] at free
    have uses : (s.release i).uses r = s.uses r := by
      refine usesCongr keeps.size (fun w => by rw [releaseValue]) (fun w j inside => ?_) r
      rw [releaseSite, if_neg]
      rintro rfl
      exact unlisted w inside
    have was := h.counted r has free
    have resources : (s.release i).resources = s.releasedResources i := by
      rw [releaseEq]
      rfl
    rw [List.count_append] at was
    rw [resources, s.referencesReleased i has free, uses]
    omega
  · obtain ⟨value, there, fresh⟩ := h.loose o (List.mem_cons_of_mem _ inside)
    refine ⟨(keeps.isValue _).mpr value, keeps.isSite there, fun w listed => ?_⟩
    rw [releaseValue] at listed
    exact fresh w listed

/-! Giving the sites to the heir. -/

theorem Seizes.site {o : Owner} (h : Seizes old [] [] s id o t) (early : j.index < old)
    (known : s.IsSite j) (fresh : s.Unlisted j) : t.site j = s.site j := by
  cases h with
  | reserved => rfl
  | @taken u u' free run vacates =>
    have same := run.keepsSite early known fresh
    cases vacates with
    | vacant => exact same
    | owned => exact (u.removeSiteSite _ _ (run.keepsUnlisted early fresh)).trans same

theorem Acquires.site (h : Acquires old [] [] s v i t) (early : j.index < old) (known : s.IsSite j)
    (fresh : s.Unlisted j) (other : j ≠ i) : t.site j = s.site j := by
  cases h with
  | bare => rw [siteSet, if_neg fun both => other both.1]; rfl
  | named names seizes =>
    rw [siteSet, if_neg fun both => other both.1]
    exact seizes.site (s := s.reach i) early known fresh
  | settled site available seizes =>
    rw [siteSet, if_neg fun both => other both.1]
    exact seizes.site early known fresh

def hand (heir : ValueId) (i : SiteId) : Build Unit := do
  modify (·.release i)
  acquire heir i
  modify (·.enlist heir i)

theorem handTracked {rest : List Owner} (h : s.Tracked ((s.site i).referred ++ lent) (⟨v, i⟩ :: rest))
    (value : s.IsValue w) (settled : ∀ o ∈ rest, o.site ≠ i) (ok : hand w i s = .ok () s') :
    s'.Tracked lent rest ∧ s'.IsValue w ∧ ∀ o ∈ rest, s'.site o.site = s.site o.site := by
  obtain ⟨-, known, unlisted⟩ := h.loose ⟨v, i⟩ List.mem_cons_self
  simp only [hand, modifyBind, bindOk, modifyOk] at ok
  obtain ⟨⟨⟩, t, acquired, rfl⟩ := ok
  have keeps := keepsRelease s i
  have released := releaseTracked h settled
  have known' := keeps.isSite known
  have value' := (keeps.isValue w).mpr value
  have fresh : (s.release i).Unlisted i := fun u => by
    rw [releaseValue]
    exact unlisted u
  have acquires := acquireAcquires released acquired
  refine ⟨acquires.tracked released value' known' fresh settled known' fun o inside =>
    (released.loose o inside).2.1, ?_, fun o inside => ?_⟩
  · rw [IsValue, enlist, sizeModifyValue, acquires.size]
    exact value'
  · obtain ⟨-, there, loose⟩ := released.loose o inside
    have other := settled o inside
    have same : (s.release i).site o.site = s.site o.site := by rw [releaseSite, if_neg other]
    exact (acquires.site there there loose other).trans same

theorem handAllTracked (sites : List SiteId) : ∀ {s s' : State},
    s.Tracked (s.referredAll sites ++ lent) (sites.map (⟨v, ·⟩)) → sites.Nodup → s.IsValue w →
    sites.forM (hand w) s = .ok () s' → s'.Tracked lent [] := by
  induction sites with
  | nil =>
    intro s s' h _ _ ok
    obtain ⟨-, rfl⟩ := pureOk.mp ok
    exact h
  | cons i rest ih =>
    intro s s' h nodup value ok
    obtain ⟨apart, nodup⟩ := List.nodup_cons.mp nodup
    obtain ⟨⟨⟩, t, first, later⟩ := bindOk.mp ok
    simp only [referredAll, List.flatMap_cons, List.append_assoc, List.map_cons] at h
    obtain ⟨tracked, value', same⟩ := handTracked h value (fun o inside => by
      obtain ⟨j, member, rfl⟩ := List.mem_map.mp inside
      rintro rfl
      exact apart member) first
    refine ih ?_ nodup value' later
    have referred : t.referredAll rest = s.referredAll rest := by
      unfold referredAll
      refine List.flatMap_congr fun j member => ?_
      rw [same ⟨v, j⟩ (List.mem_map.mpr ⟨j, member, rfl⟩)]
    rw [referred]
    exact tracked

theorem bequeathTracked (h : s.Tracked lent []) (known : s.IsValue v)
    (ok : bequeath v s = .ok () s') : s'.Tracked lent [] := by
  simp only [bequeath, modifyGetBind, getBind, modifyBind] at ok
  have relinks := s.leaveRingRelinks v
  have left := h.leaveRing known
  have known' := (relinks.isValue v).mpr known
  have heir : (s.leaveRing v).2.IsValue (s.leaveRing v).1 :=
    (relinks.isValue _).mpr (leaveRingKnown h.formed.rings known)
  have forfeited := forfeitTracked left known' (List.reverse_perm _)
  refine handAllTracked _ forfeited ?_ ?_ ok
  · exact List.nodup_reverse.mpr (left.once.each v)
  · rw [IsValue, forfeit, sizeModifyValue]
    exact heir

/-! Consuming a read. -/

/-- The value is not live, but would be if its first read were consumed. -/
def State.Dormant (s : State) (v : ValueId) : Prop :=
  ¬ s.Live v ∧ ∃ r x, (s.value v).reads = some r ∧ s.reads.next r = .ok (some x) ∧
    s.reads.Pending x

/-- The sites of the value and its aliases are recorded as theirs, be they live or not. -/
def State.Settled (s : State) (v : ValueId) : Prop := ∀ m ∈ s.ring v, s.Held m

/-- The first read of a value belongs to the event, and it is known which one follows. -/
structure State.Fronts (s : State) (e : Option EventId) (v : ValueId) (head : ReadId)
    (next : Option ReadId) : Prop where
  front : (s.value v).reads = some head
  own : (s.reads.get head).event = e
  follows : s.reads.next head = .ok next

structure Advances (s : State) (v : ValueId) (next : Option ReadId) (t : State) : Prop where
  rest : t = { s with values := t.values, reads := t.reads }
  size : t.values.size = s.values.size
  value : ∀ w, t.value w = { s.value w with reads := if w = v then next else (s.value w).reads }
  evolves : s.reads.Evolves t.reads

section

variable {head : ReadId} {next : Option ReadId} {e : Option EventId}

theorem State.Fronts.known (fronts : s.Fronts e v head next) : s.IsValue v := by
  by_contra outside
  have front := fronts.front
  rw [s.valueOutside outside] at front
  cases front

namespace Advances

theorem modify (known : s.IsValue v) (next : Option ReadId) :
    Advances s v next (s.modifyValue v fun d => { d with reads := next }) := by
  refine ⟨rfl, by simp, fun w => ?_, .refl _⟩
  rw [valueModify]
  by_cases same : w = v
  · simp [same, known]
  · simp [same]

theorem asked (h : Advances s v next t) {reads : ReadTable} (evolves : t.reads.Evolves reads) :
    Advances s v next { t with reads } := by
  refine ⟨?_, h.size, h.value, h.evolves.trans evolves⟩
  have rest := h.rest
  show { t with reads } = _
  rw [rest]

theorem isValue (h : Advances s v next t) (w : ValueId) : t.IsValue w ↔ s.IsValue w := by
  rw [IsValue, IsValue, h.size]

theorem ring (h : Advances s v next t) (w : ValueId) : t.ring w = s.ring w :=
  ringCongr h.size (fun u => by rw [h.value]) w

theorem unmoved (h : Advances s v next t) : Unmoved s t := by
  refine ⟨h.size, fun w => by rw [h.value], ?_, fun i _ => ?_, ?_, ?_, fun id => ?_, fun id => ?_⟩
  all_goals rw [h.rest]
  · rfl
  · exact .refl _
  · rfl

theorem wellFormed (h : Advances s v next t) (formed : s.WellFormed) (fronts : s.Fronts e v head next) :
    t.WellFormed := by
  have front : ∀ w x, (t.value w).reads = some x → s.reads.IsRead x ∧ s.reads.value x = w := by
    intro w x front
    rw [h.value] at front
    by_cases same : w = v
    · simp only [same, if_true] at front
      subst front
      obtain ⟨there, owner⟩ := formed.reads.chains fronts.follows
      exact ⟨there, by rw [same]; exact owner.trans (formed.heads v head fronts.front).2⟩
    · simp only [same, if_false] at front
      exact formed.heads w x front
  refine ⟨⟨fun w there => ?_, fun w u first second same => ?_⟩, fun w i listed => ?_,
    h.evolves.wellFormed formed.reads, fun w x first => ?_, ?_⟩
  · rw [h.isValue] at there ⊢
    rw [h.value]
    exact formed.rings.known w there
  · rw [h.isValue] at first second
    rw [h.value, h.value] at same
    exact formed.rings.injective w u first second same
  · rw [h.value] at listed
    rw [h.rest]
    exact formed.listed w i listed
  · obtain ⟨there, value⟩ := front w x first
    exact ⟨h.evolves.isRead there, (h.evolves.value x there).trans value⟩
  · rw [h.rest]
    exact formed.frame

theorem tracked (advances : Advances s v next t) (h : s.Tracked lent [])
    (awake : s.Dormant v → s.Settled v) (fronts : s.Fronts e v head next) : t.Tracked lent [] := by
  have formed := advances.wellFormed h.formed fronts
  refine advances.unmoved.tracked h formed (fun w there alive dead => ?_) fun r _ _ => by rw [advances.rest]
  obtain ⟨m, member, x, front, pending⟩ := (liveIff formed w).mp alive
  rw [advances.ring] at member
  rw [advances.value] at front
  by_cases same : m = v
  · simp only [same, if_true] at front
    rw [same] at member
    refine awake ⟨fun alive => dead ?_, head, x, fronts.front, by rw [fronts.follows, front], ?_⟩ w ?_
    · exact (liveOfAlias h.formed there member).mp alive
    · exact advances.evolves.ofPending h.formed.reads.ordered pending (h.formed.reads.chains (front ▸ fronts.follows)).1
    · exact memRingSymm h.formed.rings there member
  · simp only [same, if_false] at front
    have before := advances.evolves.ofPending h.formed.reads.ordered pending (h.formed.heads m x front).1
    exact absurd ((liveIff h.formed w).mpr ⟨m, member, x, front, before⟩) dead

end Advances

def State.Awaited (s : State) (v : ValueId) : Prop := (s.isPending (s.value v).reads).1 = true

instance (v : ValueId) : Decidable (s.Awaited v) := inferInstanceAs (Decidable (_ = _))

theorem isPendingIff (formed : s.reads.WellFormed) (front : Option ReadId) :
    (s.isPending front).1 = true ↔ ∃ r, front = some r ∧ s.reads.Pending r := by
  unfold State.isPending
  cases front with
  | none => simp
  | some r => simpa using ReadTable.validIff formed.ordered r

theorem isPendingState (formed : s.reads.WellFormed) (front : Option ReadId) :
    ∃ reads, (s.isPending front).2 = { s with reads } ∧ s.reads.Evolves reads := by
  unfold State.isPending
  cases front with
  | none => exact ⟨s.reads, rfl, .refl _⟩
  | some r => exact ⟨_, rfl, ReadTable.validEvolves formed.ordered r⟩

theorem awaitedIff (formed : s.WellFormed) (v : ValueId) :
    s.Awaited v ↔ ∃ r, (s.value v).reads = some r ∧ s.reads.Pending r := isPendingIff formed.reads _

theorem awaitedEvolves (formed : s.WellFormed) (formed' : t.WellFormed) (evolves : s.reads.Evolves t.reads)
    (same : (t.value w).reads = (s.value w).reads) : t.Awaited w ↔ s.Awaited w := by
  rw [awaitedIff formed, awaitedIff formed', same]
  refine exists_congr fun r => and_congr_right fun front => ?_
  exact evolves.pendingIff formed.reads.ordered (formed.heads w r front).1

inductive GoesOn (v : ValueId) (t : State) (outcome : EStateM.Result Error State PUnit) : Prop
  | read (awaited : t.Awaited v) (same : outcome = .ok ⟨⟩ t)
  | shared (silent : ¬ t.Awaited v) (alive : t.Live v) (same : outcome = bequeath v t)
  | dead (silent : ¬ t.Live v) (same : outcome = .ok ⟨⟩ (t.clearSites v))

theorem consumeReadFronts (ok : consumeRead e v s = .ok () s') : ∃ head next, s.Fronts e v head next := by
  unfold consumeRead at ok
  rw [getBind] at ok
  cases front : (s.value v).reads with
  | none => simp [front] at ok
  | some head =>
    simp only [front] at ok
    by_cases own : (s.reads.get head).event = e
    · cases follows : s.reads.next head with
      | error err => simp [own, follows] at ok
      | ok next => exact ⟨head, next, front, own, follows⟩
    · simp [own, bindOk] at ok

theorem consumeReadGoesOn (formed : s.WellFormed) (fronts : s.Fronts e v head next) :
    ∃ t, Advances s v next t ∧ GoesOn v t (consumeRead e v s) := by
  have moved := Advances.modify fronts.known next
  have formed₀ := moved.wellFormed formed fronts
  obtain ⟨reads, state, evolves⟩ := isPendingState formed₀.reads next
  have asked := moved.asked evolves
  have formed₁ := asked.wellFormed formed fronts
  have here : ((s.modifyValue v fun d => { d with reads := next }).value v).reads = next := by simp [moved.value]
  have awaited := awaitedEvolves (w := v) formed₀ formed₁ evolves rfl
  unfold consumeRead
  simp only [getBind, fronts.front, fronts.own, bne_self_eq_false, Bool.false_eq_true, if_false,
    fronts.follows, modifyBind, modifyGetBind, state]
  cases pending : ((s.modifyValue v fun d => { d with reads := next }).isPending next).1 with
  | true =>
    refine ⟨_, asked, .read (awaited.mpr ?_) rfl⟩
    rw [State.Awaited, here]
    exact pending
  | false =>
    have silent : ¬ State.Awaited { s.modifyValue v fun d => { d with reads := next } with reads } v := by
      rw [awaited, State.Awaited, here, pending]
      simp
    obtain ⟨reads', state', evolves', -⟩ := liveReadSpec formed₁ v
    rw [← isLiveState] at state'
    have again := asked.asked evolves'
    have formed₂ := again.wellFormed formed fronts
    have alive := (keepsAsk _ s.statistics s.resources.available evolves').live formed₁ formed₂ v
    have silent' := (awaitedEvolves (w := v) formed₁ formed₂ evolves' rfl).not.mpr silent
    simp only [Bool.not_false, if_true, live, modifyGetBind, state']
    refine ⟨_, again, ?_⟩
    split
    · rename_i yes
      exact .shared silent' (alive.mpr yes) rfl
    · rename_i no
      exact .dead (alive.not.mpr no) rfl

end

theorem consumeReadTracked {e : Option EventId} (h : s.Tracked lent [])
    (awake : s.Dormant v → s.Settled v) (ok : consumeRead e v s = .ok () s') : s'.Tracked lent [] := by
  obtain ⟨head, next, fronts⟩ := consumeReadFronts ok
  obtain ⟨t, advances, onward⟩ := consumeReadGoesOn h.formed fronts
  have tracked := advances.tracked h awake fronts
  have known := (advances.isValue v).mpr fronts.known
  cases onward with
  | read _ same =>
    cases ok.symm.trans same
    exact tracked
  | shared _ _ same => exact bequeathTracked tracked known (same.symm.trans ok)
  | dead _ same =>
    cases ok.symm.trans same
    exact tracked.clearSites known

end Lowering
