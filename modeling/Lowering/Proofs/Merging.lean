import Lowering.Proofs.Commitment
/-!
All paths into a merge agree with its table.

The event that opens a table shares it with every event that leads to the merge. Whoever comes
first fills it with places that it freezes, and whoever comes later is brought to them.
-/
namespace Lowering

open State Build

section

variable {s s' t : State} {x y : Site} {id : ResourceId} {v w : ValueId} {i : SiteId}
  {lent : List Register} {e f : EventId} {j : JunctionId}

/-! Opening a table. -/

structure Shares (j : JunctionId) (s s' : State) : Prop where
  rest : s' = { s with events := s'.events }
  size : s'.events.size = s.events.size
  event : ∀ e, s'.event e = s.event e ∨
    (s.event e).junction = none ∧ s'.event e = { s.event e with junction := some j }

theorem Shares.refl (s : State) : Shares j s s := ⟨rfl, rfl, fun _ => .inl rfl⟩

theorem Shares.trans (first : Shares j s t) (second : Shares j t s') : Shares j s s' := by
  refine ⟨?_, second.size.trans first.size, fun e => ?_⟩
  · have a := first.rest
    have b := second.rest
    rw [a] at b
    exact b
  · rcases first.event e with same | ⟨none, given⟩
    · rcases second.event e with same' | ⟨none', given'⟩
      · exact .inl (same'.trans same)
      · rw [same] at none' given'
        exact .inr ⟨none', given'⟩
    · rcases second.event e with same' | ⟨none', given'⟩
      · exact .inr ⟨none, same'.trans given⟩
      · rw [given] at none'
        cases none'

theorem Shares.given (h : Shares j s s') (already : (s.event e).junction = some j) :
    (s'.event e).junction = some j := by
  rcases h.event e with same | ⟨none, -⟩
  · rw [same]
    exact already
  · rw [none] at already
    cases already

theorem sharesModify {p : EventId} (none : (s.event p).junction = none) :
    Shares j s (s.modifyEvent p fun d => { d with junction := some j }) := by
  refine ⟨rfl, by simp [modifyEvent], fun e => ?_⟩
  rw [eventModify]
  split
  · rename_i here
    rw [here.1]
    exact .inr ⟨none, rfl⟩
  · exact .inl rfl

def State.shareWith (j : JunctionId) (reached : List EventId × State) (p : EventId) :
    List EventId × State :=
  if (reached.2.event p).junction.isNone then
    (reached.1 ++ reached.2.successorsOf p,
      reached.2.modifyEvent p fun d => { d with junction := some j })
  else reached

theorem shareWithShares (ps : List EventId) : ∀ reached : List EventId × State,
    Shares j reached.2 (ps.foldl (shareWith j) reached).2 ∧
    ∀ e ∈ ps, e.index < reached.2.events.size → (reached.2.event e).junction = none →
      ((ps.foldl (shareWith j) reached).2.event e).junction = some j := by
  induction ps with
  | nil => exact fun reached => ⟨.refl _, by simp⟩
  | cons p rest ih =>
    intro reached
    rw [List.foldl_cons]
    obtain ⟨shares, given⟩ := ih (shareWith j reached p)
    unfold shareWith at shares given ⊢
    cases had : (reached.2.event p).junction with
    | some k =>
      simp only [had, Option.isNone_some, Bool.false_eq_true, if_false] at shares given ⊢
      refine ⟨shares, fun e member inside none => ?_⟩
      rcases List.mem_cons.mp member with rfl | member
      · rw [had] at none
        cases none
      · exact given e member inside none
    | none =>
      simp only [had, Option.isNone_none, if_true] at shares given ⊢
      have first : Shares j reached.2
          (reached.2.modifyEvent p fun d => { d with junction := some j }) := sharesModify had
      refine ⟨first.trans shares, fun e member inside none => ?_⟩
      rcases first.event e with same | ⟨-, changed⟩
      · rcases List.mem_cons.mp member with rfl | member
        · have now := eventModify reached.2 e e fun d => { d with junction := some j }
          rw [if_pos ⟨rfl, inside⟩] at now
          exact shares.given (by rw [now])
        · exact given e member (by rw [first.size]; exact inside) (by rw [same]; exact none)
      · exact shares.given (by rw [changed])

theorem shareBeforeEq (s : State) (j : JunctionId) (e : EventId) :
    s.shareBefore j e = (s.predecessorsOf e).foldl (shareWith j) ([], s) := rfl

theorem shareShares (fuel : Nat) : ∀ (es : List EventId) (s : State),
    Shares j s (share j fuel es s) := by
  induction fuel with
  | zero => exact fun _ s => .refl s
  | succ fuel ih =>
    intro es s
    cases es with
    | nil => exact .refl s
    | cons e rest =>
      have first := (shareWithShares (j := j) (s.predecessorsOf e) ([], s)).1
      rw [← shareBeforeEq] at first
      exact first.trans (ih _ _)

/-- The links that leave an event enter the events that they lead to. -/
def State.Linked (s : State) (e : EventId) : Prop :=
  ∀ l ∈ (s.event e).successors, (s.link l).predecessor = e ∧
    l ∈ (s.event (s.link l).successor).predecessors

instance (s : State) (e : EventId) : Decidable (s.Linked e) := inferInstanceAs (Decidable (∀ _ ∈ _, _))

def State.Merges (s : State) (e : EventId) : Prop :=
  ∃ f ∈ s.successorsOf e, 1 < (s.event f).predecessors.length

instance (s : State) (e : EventId) : Decidable (s.Merges e) := inferInstanceAs (Decidable (∃ _ ∈ _, _))

def State.blankTable (s : State) (e : EventId) : List (Option Site) :=
  List.replicate (s.frames.footprint (s.event e).stackAfter) none

def State.addTable (s : State) (table : List (Option Site)) : State :=
  { s with junctions := s.junctions.push table }

theorem openTableSpec (linked : s.Linked e) (merges : s.Merges e)
    (without : (s.event e).junction = none) :
    Shares ⟨s.junctions.size⟩ (s.addTable (s.blankTable e)) (s.openTable e) ∧
      ((s.openTable e).event e).junction = some ⟨s.junctions.size⟩ := by
  obtain ⟨f, successor, many⟩ := merges
  cases found : (s.successorsOf e).reverse.find? fun f =>
      (s.event f).predecessors.length > 1 with
  | none =>
    have absent := List.find?_eq_none.mp found f (List.mem_reverse.mpr successor)
    simp only [gt_iff_lt, decide_eq_true_eq] at absent
    exact absurd many absent
  | some merge =>
    have member := List.mem_reverse.mp (List.mem_of_find?_eq_some found)
    obtain ⟨l, outgoing, rfl⟩ := List.mem_map.mp member
    obtain ⟨origin, incoming⟩ := linked l outgoing
    have before : e ∈ (s.addTable (s.blankTable e)).predecessorsOf (s.link l).successor :=
      List.mem_map.mpr ⟨l, incoming, origin⟩
    have inside : e.index < s.events.size := by
      by_contra outside
      have empty : s.event e = default := by simp [event, outside]
      rw [empty] at outgoing
      cases outgoing
    have opened : s.openTable e = share ⟨s.junctions.size⟩ (s.links.size + 1)
        [(s.link l).successor] (s.addTable (s.blankTable e)) := by
      simp only [openTable, found]
      rfl
    rw [opened]
    obtain ⟨-, given⟩ := shareWithShares (j := ⟨s.junctions.size⟩)
      ((s.addTable (s.blankTable e)).predecessorsOf (s.link l).successor)
      ([], s.addTable (s.blankTable e))
    refine ⟨shareShares _ _ _, ?_⟩
    exact (shareShares s.links.size _ _).given (given e before inside without)

/-! Where the tables are kept has nothing to do with where the values are. -/

def State.SameValues (s s' : State) : Prop :=
  s' = { s with events := s'.events, junctions := s'.junctions }

theorem SameValues.wellFormed (same : s.SameValues s') (formed : s.WellFormed) : s'.WellFormed := by
  rw [same]
  exact ⟨⟨formed.rings.known, formed.rings.injective⟩, formed.listed, formed.reads, formed.heads,
    formed.frame⟩

theorem SameValues.ring (same : s.SameValues s') (v : ValueId) : s'.ring v = s.ring v := by
  refine ringCongr (by rw [same]) (fun u => ?_) v
  rw [same]
  rfl

theorem SameValues.live (same : s.SameValues s') (formed : s.WellFormed) (v : ValueId) :
    s'.Live v ↔ s.Live v := by
  rw [liveIff (SameValues.wellFormed same formed), liveIff formed, SameValues.ring same, same]
  exact Iff.rfl

theorem SameValues.tracked (same : s.SameValues s') (h : s.Tracked lent []) :
    s'.Tracked lent [] := by
  have formed := SameValues.wellFormed same h.formed
  have unmoved : Unmoved s s' := by
    rw [same]
    exact ⟨rfl, fun _ => rfl, le_rfl, fun _ _ => rfl, rfl, .refl _, fun _ => rfl, fun _ => rfl⟩
  refine unmoved.tracked h formed (fun v _ alive dead => ?_) fun r _ _ => ?_
  · exact absurd ((SameValues.live same h.formed v).mp alive) dead
  · rw [same]

/-! What the table says of the values after an event. -/

variable {slots : List (ValueId × Nat)} {table : List (Option Site)}

/-- Every live value is where the entry of its slot says, and no two entries of such slots name
one location that is not reserved. -/
structure State.AgreesWith (s : State) (slots : List (ValueId × Nat)) (j : JunctionId) : Prop where
  met : ∀ p ∈ slots, s.Live p.1 → ∃ x, s.tableEntry j p.2 = some x ∧ s.Meets p.1 x
  apart : ∀ p ∈ slots, ∀ q ∈ slots, p.2 ≠ q.2 → s.Live p.1 → s.Live q.1 → ∀ x y id,
    s.tableEntry j p.2 = some x → s.tableEntry j q.2 = some y → x.Names s.geometry id →
    y.Names s.geometry id → s.resources.Has id → ¬ s.Free id

theorem agreesWith (same : s.SameValues s') (formed : s.WellFormed)
    (agreed : s.Agreed slots table)
    (filled : ∀ p ∈ slots, s.Live p.1 → (table[p.2]?.join).isSome = true)
    (entries : ∀ p ∈ slots, s'.tableEntry j p.2 = table[p.2]?.join) : s'.AgreesWith slots j := by
  have live := SameValues.live same formed
  refine ⟨fun p member alive => ?_,
    fun p first q second differ alive alive' x y id entry entry' names names' has free => ?_⟩
  · have alive' := (live p.1).mp alive
    obtain ⟨x, entry⟩ := Option.isSome_iff_exists.mp (filled p member alive')
    obtain ⟨m, inRing, i, listed, meets, -⟩ := (agreed.pledged p member alive' x entry).held
    rw [← SameValues.ring same] at inRing
    refine ⟨x, (entries p member).trans entry, m, inRing, i, ?_⟩
    rw [same]
    exact ⟨listed, meets⟩
  · rw [entries p first] at entry
    rw [entries q second] at entry'
    rw [same] at names names' has free
    exact agreed.apart p first q second differ ((live p.1).mp alive) ((live q.1).mp alive') x y id
      entry entry' names names' has free

theorem memValuesAfter {p : ValueId × Nat} (member : p ∈ s.valuesAfter e) :
    ∃ slot ∈ s.slotsAfter e, slot.value = some p.1 ∧ slot.slot = p.2 := by
  obtain ⟨slot, inside, found⟩ := List.mem_filterMap.mp member
  obtain ⟨v, value, rfl⟩ := Option.map_eq_some_iff.mp found
  exact ⟨slot, inside, value, rfl⟩

theorem valuesAfterNodup (once : ((s.slotsAfter e).map (·.slot)).Nodup) :
    ((s.valuesAfter e).map (·.2)).Nodup := by
  refine List.Nodup.sublist ?_ once
  unfold valuesAfter slotsAfter FrameTable.occupied
  generalize s.frames.elements (s.event e).stackAfter (s.event e).finalLocals = elements
  induction elements with
  | nil => exact .slnil
  | cons slot rest ih =>
    cases value : slot.value with
    | none => simpa [value] using ih.cons slot.slot
    | some v => simpa [value] using ih

theorem indexAgain {g : FrameGeometry} {bound : Nat} (frame : (bound + g.footer) * wordSize ≤ modulus 32)
    (some : 0 < bound) (offset : Int) : g.index (g.offset (g.index offset)) = g.index offset := by
  apply g.indexOffset
  have small : unsigned 32 offset < modulus 32 := by
    unfold unsigned
    have positive : (0 : Int) < modulus 32 := by decide
    have low := Int.emod_nonneg offset (ne_of_gt positive)
    have high := Int.emod_lt_of_pos offset positive
    show (offset % (modulus 32 : Int)).toNat < modulus 32
    omega
  unfold FrameGeometry.index
  simp only [wordSize, modulus] at *
  omega

theorem slotOfNames {g : FrameGeometry} {k : Nat} (names : x.Names g (.slot k)) :
    ∃ m acquired, x = .memory m acquired ∧ k = g.index m.offset := by
  cases x with
  | memory m acquired =>
    refine ⟨m, acquired, rfl, ?_⟩
    simp only [Site.Names, Site.mask, SiteMask.slot] at names
    split at names
    · rename_i n slot
      simp only [Site.slot?] at slot
      split at slot
      · cases slot
        simpa using names.symm
      · cases slot
    · simp at names
  | constant p =>
    simp only [Site.Names, Site.mask, SiteMask.slot, SiteMask.mk.injEq] at names
    exact absurd names.2.2 (by simp)
  | address p =>
    simp only [Site.Names, Site.mask, SiteMask.slot, SiteMask.mk.injEq] at names
    exact absurd names.2.2 (by simp)
  | register mask number =>
    cases number <;>
      simp only [Site.Names, Site.mask, SiteMask.slot, SiteMask.mk.injEq] at names <;>
      exact absurd names.2.2 (by simp)

theorem sameOfNames {other : ResourceId} (formed : s.WellFormed) (names : x.Names s.geometry id)
    (meets : (s.site i).satisfies s.geometry (x.mask s.geometry) = true)
    (stands : s.resource? i = some other) (has : s.resources.Has other) : other = id := by
  unfold State.resource? at stands
  cases id with
  | register n =>
    rw [show x.mask s.geometry = _ from names] at meets
    obtain ⟨mask, site⟩ := satisfiesRegister meets
    rw [site] at stands
    exact (Option.some.inj stands).symm
  | slot k =>
    rw [show x.mask s.geometry = _ from names] at meets
    obtain ⟨m, acquired, site, base, offset⟩ := satisfiesSlot meets
    obtain ⟨named, -, -, rfl⟩ := slotOfNames names
    rw [site] at stands
    simp only [Site.resource?, base, beq_self_eq_true, if_true, Option.some.injEq] at stands
    subst stands
    have inside : s.geometry.index m.offset < s.resources.slots.length := has
    rw [offset, indexAgain formed.frame (Nat.zero_lt_of_lt inside)]

theorem pinnedOfNames (formed : s.WellFormed) (names : x.Names s.geometry id)
    (meets : (s.site i).satisfies s.geometry (x.mask s.geometry) = true)
    (frozen : s.resources.Has id → s.Free id → 0 < (s.resources.get id).freezes) :
    s.Pinned i := by
  intro other stands has free
  cases sameOfNames formed names meets stands has
  exact frozen has free

/-! Settling. -/

theorem junctionModify (s : State) (j k : JunctionId) (table : List (Option Site)) :
    ({ s with junctions := s.junctions.modify j.index fun _ => table } : State).junction k =
      if k = j ∧ j.index < s.junctions.size then table else s.junction k := by
  obtain ⟨n⟩ := k
  obtain ⟨m⟩ := j
  unfold junction
  dsimp only
  rw [Array.getD_eq_getD_getElem?, Array.getD_eq_getD_getElem?, Array.getElem?_modify]
  by_cases same : n = m
  · subst same
    by_cases inside : n < s.junctions.size
    · simp [inside]
    · simp [inside]
  · simp [same, Ne.symm same]

/-- The table of an event is what all values after it are at. What was in a table before still
is. -/
structure Unites (s : State) (e : EventId) (s' : State) : Prop where
  shared : ∃ j, (s'.event e).junction = some j ∧ (∀ k, (s.event e).junction = some k → j = k) ∧
    s'.AgreesWith (s.valuesAfter e) j
  kept : ∀ j k x, s.tableEntry j k = some x → s'.tableEntry j k = some x
  live : ∀ p ∈ s.valuesAfter e, s'.Live p.1 ↔ s.Live p.1

theorem fillSpec {c : Commitment} {u : State} (h : s.Tracked lent []) (aligned : s.Aligned)
    (once : ((s.valuesAfter e).map (·.2)).Nodup) (known : ∀ p ∈ s.valuesAfter e, s.IsValue p.1)
    (inside : ∀ p ∈ s.valuesAfter e, p.2 < (s.junction j).length)
    (shared : (s.event e).junction = some j) (agreed : s.Agreed (s.valuesAfter e) (s.junction j))
    (ok : commit e (s.junction j) s = .ok c u) :
    Unites s e { u with junctions := u.junctions.modify j.index fun _ => c.table } := by
  obtain ⟨commits, filled⟩ := commitSpec h aligned once known ok
  have extend := commits.settles.extend
  have formed := commits.settles.tracked.formed
  have same : u.SameValues { u with junctions := u.junctions.modify j.index fun _ => c.table } := rfl
  have live : ∀ p ∈ s.valuesAfter e, u.Live p.1 ↔ s.Live p.1 := fun p member =>
    extend.live h.formed formed (known p member)
  have junctions : u.junctions = s.junctions := by rw [extend.rest]
  have events : u.events = s.events := by rw [extend.rest]
  refine ⟨⟨j, ?_, fun k already => Option.some.inj (shared.symm.trans already), ?_⟩, ?_, ?_⟩
  · rw [← shared]
    simp only [event, events]
  · refine agreesWith same formed (commits.agreed agreed) (fun p member alive => ?_)
      fun p member => ?_
    · exact filled p member ((live p member).mp alive) (inside p member)
    · have there : j.index < u.junctions.size := by
        by_contra outside
        have short := inside p member
        rw [junctions] at outside
        simp [junction, outside] at short
      rw [tableEntry, junctionModify, if_pos ⟨rfl, there⟩]
  · intro k slot x entry
    rw [tableEntry, junctionModify]
    split
    · rename_i here
      rw [here.1] at entry
      exact commits.kept slot x entry
    · rw [extend.junction]
      exact entry
  · intro p member
    exact (SameValues.live same formed p.1).trans (live p member)

/-- Every entry of a table names a location, and no two name the same. -/
structure DistinctEntries (g : FrameGeometry) (table : List (Option Site)) : Prop where
  names : ∀ (k : Nat) (x : Site), table[k]?.join = some x → ∃ id, x.Names g id
  apart : ∀ (k l : Nat) (x y : Site) (id : ResourceId), k ≠ l → table[k]?.join = some x →
    table[l]?.join = some y → x.Names g id → ¬ y.Names g id

def State.tableOf (s : State) (e : EventId) : List (Option Site) :=
  match (s.event e).junction with
  | some j => s.junction j
  | none => s.blankTable e

/-- What an event needs in order to settle the values after it: the slots of its frame are
distinct slots of its table, and the values in them exist. -/
structure State.Framed (s : State) (e : EventId) : Prop where
  known : ∀ p ∈ s.valuesAfter e, s.IsValue p.1
  once : ((s.slotsAfter e).map (·.slot)).Nodup
  inside : ∀ slot ∈ s.slotsAfter e, slot.slot < (s.tableOf e).length

instance (s : State) (e : EventId) : Decidable (s.Framed e) :=
  decidable_of_iff ((∀ p ∈ s.valuesAfter e, s.IsValue p.1) ∧
    ((s.slotsAfter e).map (·.slot)).Nodup ∧ ∀ slot ∈ s.slotsAfter e, slot.slot < (s.tableOf e).length)
    ⟨fun ⟨known, once, inside⟩ => ⟨known, once, inside⟩, fun h => ⟨h.known, h.once, h.inside⟩⟩

theorem Conforms.agreed (h : s.Tracked lent [])
    (conforms : Conforms lent s j (s.slotsAfter e) t)
    (known : ∀ p ∈ s.valuesAfter e, s.IsValue p.1)
    (distinct : DistinctEntries s.geometry (s.junction j)) :
    t.Agreed (s.valuesAfter e) (s.junction j) := by
  have extend := conforms.extend
  have formed := conforms.tracked.formed
  have live : ∀ p ∈ s.valuesAfter e, t.Live p.1 ↔ s.Live p.1 := fun p member =>
    extend.live h.formed formed (known p member)
  refine ⟨fun p member alive x entry => ?_,
    fun p _ q _ differ _ _ x y id entry entry' names names' _ _ => ?_⟩
  · obtain ⟨slot, inside, value, number⟩ := memValuesAfter member
    have alive' := (live p member).mp alive
    have entry' : s.tableEntry j slot.slot = some x := by
      rw [number]
      exact entry
    obtain ⟨id, names⟩ := distinct.names _ x entry
    obtain ⟨m, inRing, i, listed, meets⟩ := conforms.meets slot inside p.1 x value alive' entry'
    have frozen : ∀ id, x.Names t.geometry id → t.resources.Has id → t.Free id →
        0 < (t.resources.get id).freezes := by
      intro id names has free
      rw [extend.geometry] at names
      exact conforms.frozen slot inside p.1 x id value alive' entry' names ((extend.has id).mp has)
        ((extend.free id).mp free)
    rw [← extend.geometry] at names
    exact ⟨⟨id, names⟩, ⟨m, inRing, i, listed, meets,
      pinnedOfNames formed names meets (frozen id names)⟩, frozen⟩
  · rw [extend.geometry] at names names'
    exact absurd names' (distinct.apart _ _ x y id differ entry entry' names)

theorem settleSharedSpec {frozen : List SiteId} (h : s.Tracked lent []) (aligned : s.Aligned)
    (framed : s.Framed e) (shared : (s.event e).junction = some j)
    (distinct : DistinctEntries s.geometry (s.junction j))
    (ok : settleJunction e s = .ok frozen s') : Unites s e s' := by
  have inside : ∀ slot ∈ s.slotsAfter e, slot.slot < (s.junction j).length := by
    have inside := framed.inside
    rwa [tableOf, shared] at inside
  have knownSlots : ∀ slot ∈ s.slotsAfter e, ∀ v, slot.value = some v → s.IsValue v := by
    intro slot member v value
    exact framed.known (v, slot.slot) (List.mem_filterMap.mpr ⟨slot, member, by simp [value]⟩)
  simp only [settleJunction, getBind, shared, bindOk] at ok
  obtain ⟨c, now, conformed, ok⟩ := ok
  obtain ⟨conforms, complete⟩ := conformSpec h aligned knownSlots
    (fun slot _ x entry => distinct.names _ x entry) conformed
  have extend := conforms.extend
  have agreed := conforms.agreed h framed.known distinct
  have after : now.event e = s.event e := by
    rw [extend.rest]
    rfl
  have values : now.valuesAfter e = s.valuesAfter e := by
    rw [valuesAfter, after, extend.rest]
    rfl
  have live : ∀ p ∈ s.valuesAfter e, now.Live p.1 ↔ s.Live p.1 := fun p member =>
    extend.live h.formed conforms.tracked.formed (framed.known p member)
  have bounded : ∀ p ∈ s.valuesAfter e, p.2 < (s.junction j).length := by
    intro p member
    obtain ⟨slot, there, -, number⟩ := memValuesAfter member
    rw [← number]
    exact inside slot there
  simp only [after, shared] at ok
  split at ok
  · rename_i whole
    obtain ⟨rfl, rfl⟩ := pureOk.mp ok
    refine ⟨⟨j, by rw [after, shared], fun k already => Option.some.inj (shared.symm.trans already),
      agreesWith (s := now) rfl conforms.tracked.formed agreed (fun p member alive => ?_)
        fun p _ => extend.tableEntry j p.2⟩, fun k slot x entry => ?_, live⟩
    · obtain ⟨slot, there, value, number⟩ := memValuesAfter member
      have entry := complete whole slot there p.1 value ((live p member).mp alive)
      rwa [number] at entry
    · rw [extend.tableEntry]
      exact entry
  · simp only [bindOk, modifyOk, pureOk] at ok
    obtain ⟨filled, u, committed, ⟨⟩, w, rfl, -, rfl⟩ := ok
    have unites : Unites now e _ := fillSpec (j := j) conforms.tracked conforms.aligned
      (by rw [values]; exact valuesAfterNodup framed.once)
      (fun p member => extend.isValue (framed.known p (values ▸ member)))
      (by rw [values, extend.junction]; exact bounded) (by rw [after, shared])
      (by rw [values, extend.junction]; exact agreed) committed
    obtain ⟨k, shared', only, agrees⟩ := unites.shared
    rw [values] at agrees
    refine ⟨⟨k, shared', fun k' already => only k' (by rw [after]; exact already), agrees⟩,
      fun k' slot x entry => unites.kept k' slot x ?_, fun p member => ?_⟩
    · rw [extend.tableEntry]
      exact entry
    · exact (unites.live p (values.symm ▸ member)).trans (live p member)

theorem settleOpenedSpec {frozen : List SiteId} (h : s.Tracked lent []) (aligned : s.Aligned)
    (framed : s.Framed e) (linked : s.Linked e) (merges : s.Merges e)
    (without : (s.event e).junction = none)
    (ok : settleJunction e s = .ok frozen s') : Unites s e s' := by
  obtain ⟨shares, given⟩ := openTableSpec linked merges without
  simp only [settleJunction, getBind, without, modifyBind, pureBind, given] at ok
  have same : s.SameValues (s.openTable e) := by
    rw [SameValues, shares.rest]
    rfl
  have after : (s.openTable e).event e = { s.event e with junction := some ⟨s.junctions.size⟩ } := by
    rcases shares.event e with unchanged | ⟨-, changed⟩
    · rw [unchanged] at given
      rw [show s.event e = (s.addTable (s.blankTable e)).event e from rfl] at without
      rw [without] at given
      cases given
    · exact changed
  have values : (s.openTable e).valuesAfter e = s.valuesAfter e := by
    rw [valuesAfter, after, same]
    rfl
  have junctions : (s.openTable e).junctions = s.junctions.push (s.blankTable e) := by
    rw [shares.rest]
    rfl
  have blank : (s.openTable e).junction ⟨s.junctions.size⟩ = s.blankTable e := by
    simp [junction, junctions]
  have empty : ∀ k : Nat, ((s.openTable e).junction ⟨s.junctions.size⟩)[k]?.join = none := by
    intro k
    rw [blank, blankTable, List.getElem?_replicate]
    split <;> rfl
  simp only [Bool.false_eq_true, if_false, bindOk, modifyOk, pureOk] at ok
  obtain ⟨filled, u, committed, ⟨⟩, w, rfl, -, rfl⟩ := ok
  have known : ∀ p ∈ (s.openTable e).valuesAfter e, (s.openTable e).IsValue p.1 := by
    intro p member
    rw [values] at member
    rw [same]
    exact framed.known p member
  have inside : ∀ p ∈ (s.openTable e).valuesAfter e,
      p.2 < ((s.openTable e).junction ⟨s.junctions.size⟩).length := by
    intro p member
    rw [values] at member
    obtain ⟨slot, there, -, number⟩ := memValuesAfter member
    have inside := framed.inside slot there
    rw [tableOf, without] at inside
    rw [blank, ← number]
    exact inside
  have agreed : (s.openTable e).Agreed ((s.openTable e).valuesAfter e)
      ((s.openTable e).junction ⟨s.junctions.size⟩) := by
    refine ⟨fun p _ _ x entry => ?_, fun p _ q _ _ _ _ x y id entry => ?_⟩
    · rw [empty] at entry
      cases entry
    · rw [empty] at entry
      cases entry
  have unites := fillSpec (SameValues.tracked same h)
    (by rw [same]; exact fun v i inside => aligned v i inside)
    (by rw [values]; exact valuesAfterNodup framed.once) known inside given agreed committed
  obtain ⟨k, shared', -, agrees⟩ := unites.shared
  rw [values] at agrees
  refine ⟨⟨k, shared', fun k' already => ?_, agrees⟩, fun k' slot x entry => ?_, fun p member => ?_⟩
  · rw [without] at already
    cases already
  · refine unites.kept k' slot x ?_
    have old : k'.index < s.junctions.size := by
      by_contra outside
      simp [tableEntry, junction, outside] at entry
    have unchanged : (s.openTable e).junction k' = s.junction k' := by
      simp [junction, junctions, Array.getElem?_push, Nat.ne_of_lt old]
    rw [tableEntry, unchanged]
    exact entry
  · exact (unites.live p (values.symm ▸ member)).trans (SameValues.live same h.formed p.1)

/- Where there is a table, nothing more is settled for a fork. -/
theorem settleTablesUnites {frozen : List SiteId} (unites : ∀ {held t}, settleJunction e s = .ok held t → Unites s e t)
    (ok : settleTables e s = .ok frozen s') : Unites s e s' := by
  simp only [settleTables, bindOk, pureOk] at ok
  obtain ⟨held, t, settled, atFork, t', forked, -, rfl⟩ := ok
  obtain ⟨j, shared, -⟩ := (unites settled).shared
  simp only [settleFork, getBind, shared, Option.isNone_some, Bool.and_false, Bool.false_eq_true,
    if_false, pureOk] at forked
  rw [← forked.2]
  exact unites settled

theorem pathsAgree {frozen : List SiteId} (coherent : s.Coherent lent) (aligned : s.Aligned)
    (framed : s.Framed e) (linked : s.Linked e) (merges : s.Merges e)
    (distinct : DistinctEntries s.geometry (s.tableOf e))
    (ok : settleTables e s = .ok frozen s') : Unites s e s' := by
  have tracked := trackedIff.mpr coherent
  refine settleTablesUnites (fun settled => ?_) ok
  cases shared : (s.event e).junction with
  | some j =>
    rw [tableOf, shared] at distinct
    exact settleSharedSpec tracked aligned framed shared distinct settled
  | none => exact settleOpenedSpec tracked aligned framed linked merges shared settled

end

/-- Two values in registers before a merge. The first is agreed to be where the second is, and
nothing is agreed for the second. -/
def State.meeting : State :=
  { crossed with
    frames := ⟨#[], #[[some ⟨0⟩, some ⟨1⟩]], 2⟩
    events := #[⟨.dummy, none, ⟨0⟩, 0, none, none, none, [], some ⟨0⟩, [], [], [⟨0⟩], []⟩,
      ⟨.dummy, none, ⟨0⟩, 0, none, none, none, [], none, [], [⟨0⟩, ⟨1⟩], [], []⟩]
    links := #[⟨⟨0⟩, ⟨1⟩, none, []⟩, ⟨⟨2⟩, ⟨1⟩, none, []⟩]
    junctions := #[[some (.ofRegisters (RegisterSet.single X64.rsi)), none]] }

theorem meetingDistinct : DistinctEntries meeting.geometry (meeting.tableOf ⟨0⟩) := by
  have first : ∀ (k : Nat) (x : Site), (meeting.tableOf ⟨0⟩)[k]?.join = some x →
      k = 0 ∧ x = .ofRegisters (RegisterSet.single X64.rsi) := by
    intro k x entry
    match k with
    | 0 => exact ⟨rfl, (Option.some.inj entry).symm⟩
    | 1 => cases entry
    | _ + 2 => cases entry
  refine ⟨fun k x entry => ?_, fun k l x y id differ entry entry' => ?_⟩
  · rw [(first k x entry).2]
    exact ⟨.register X64.rsi, rfl⟩
  · exact absurd ((first k x entry).1.trans (first l y entry').1.symm) differ

theorem meetingAgrees : meeting.Coherent [] ∧ meeting.Framed ⟨0⟩ ∧
    ∃ frozen s', settleTables ⟨0⟩ meeting = .ok frozen s' ∧ Unites meeting ⟨0⟩ s' := by
  have coherent : meeting.Coherent [] := by decide +kernel
  have aligned : meeting.Aligned := by decide +kernel
  have framed : meeting.Framed ⟨0⟩ := by decide +kernel
  obtain ⟨frozen, s', ok⟩ : Succeeds (settleTables ⟨0⟩) meeting := by decide +kernel
  exact ⟨coherent, framed, frozen, s', ok, pathsAgree coherent aligned framed (by decide +kernel)
    (by decide +kernel) meetingDistinct ok⟩

/-- A value whose home is the first frame slot is at a word that starts in the middle of it. -/
def State.straddling : State :=
  let s := (State.empty (X64.describe {}) {} (.recording {})).start 1 0 1 4
  { s with
    values := #[{ kind := .general, next := ⟨0⟩, reads := some ⟨0⟩, sites := [⟨0⟩], home := some 0 }]
    sites := #[.memory { base := X64.rsp, offset := 4 } true]
    reads := ⟨#[⟨⟨0⟩, some ⟨0⟩, .single .any none none⟩]⟩
    frames := ⟨#[], #[[some ⟨0⟩]], 1⟩
    events := #[⟨.dummy, none, ⟨0⟩, 0, none, none, none, [], none, [], [], [⟨0⟩], []⟩,
      ⟨.dummy, none, ⟨0⟩, 0, none, none, none, [], none, [], [⟨0⟩, ⟨1⟩], [], []⟩]
    links := #[⟨⟨0⟩, ⟨1⟩, none, []⟩, ⟨⟨2⟩, ⟨1⟩, none, []⟩]
    resources := s.resources.setOwner (.slot 0) (some ⟨⟨0⟩, ⟨0⟩⟩) }

/- The slot is committed to the word, but the word is not where the entry says. -/
theorem straddlingMisses : straddling.Coherent [] ∧ straddling.Framed ⟨0⟩ ∧
    straddling.Linked ⟨0⟩ ∧ straddling.Merges ⟨0⟩ ∧ straddling.tableOf ⟨0⟩ = [none] ∧
    straddling.valuesAfter ⟨0⟩ = [(⟨0⟩, 0)] ∧
    straddling.Live ⟨0⟩ ∧ Succeeds (settleTables ⟨0⟩) straddling ∧
    (after (settleTables ⟨0⟩) straddling).tableEntry ⟨0⟩ 0 =
      some (.memory { base := X64.rsp, offset := 4 } false) ∧
    ¬ (after (settleTables ⟨0⟩) straddling).Meets ⟨0⟩
      (.memory { base := X64.rsp, offset := 4 } false) := by
  decide +kernel

end Lowering
