import Lowering.Proofs.Descending
import Lowering.Proofs.Describing
/-!
One pass over a table is enough.

A pass brings the values after an event to the entries of a table, one after the other, and moves
whoever is in the way. What it has brought somewhere stays frozen, and no other entry names the same
location, so that nobody takes it away before the pass is over. What is asked after the pass is then
found to hold, and there is no second one.
-/
namespace Lowering

open State Build

/-! The slots of a frame. -/

namespace FrameTable

variable {t : FrameTable}

/-- Every stack node is one above its tail, and no array has more locals than the method. -/
structure Layered (t : FrameTable) : Prop where
  nodes : ∀ n ∈ t.nodes, n.index = t.depth n.next
  locals : ∀ slots ∈ t.arrays, slots.length ≤ t.localCount

instance (t : FrameTable) : Decidable t.Layered :=
  decidable_of_iff ((∀ n ∈ t.nodes, n.index = t.depth n.next) ∧
    ∀ slots ∈ t.arrays, slots.length ≤ t.localCount)
    ⟨fun ⟨nodes, locals⟩ => ⟨nodes, locals⟩, fun h => ⟨h.nodes, h.locals⟩⟩

namespace Layered

theorem index (h : t.Layered) (s : StackId) : (t.node s).index = t.depth (t.node s).next := by
  unfold node
  by_cases inside : s.index < t.nodes.size
  · rw [Array.getD, dif_pos inside]
    exact h.nodes _ (Array.getElem_mem inside)
  · rw [Array.getD, dif_neg inside]
    rfl

theorem short (h : t.Layered) (l : LocalsId) : (t.locals l).length ≤ t.localCount := by
  unfold FrameTable.locals
  by_cases inside : l.index < t.arrays.size
  · rw [Array.getD, dif_pos inside]
    exact h.locals _ (Array.getElem_mem inside)
  · rw [Array.getD, dif_neg inside]
    exact Nat.zero_le _

theorem descends (h : t.Layered) (fuel : Nat) : ∀ stack,
    (∀ n ∈ t.walk fuel stack, n.index < t.depth stack) ∧
    (t.walk fuel stack).Pairwise fun a b => b.index < a.index := by
  induction fuel with
  | zero => exact fun _ => by simp [walk]
  | succ fuel ih =>
    intro stack
    cases stack with
    | none => simp [walk]
    | some s =>
      obtain ⟨below, descends⟩ := ih (t.node s).next
      rw [← h.index s] at below
      refine ⟨fun n member => ?_, List.pairwise_cons.mpr ⟨below, descends⟩⟩
      rcases List.mem_cons.mp member with rfl | member
      · exact Nat.lt_succ_self _
      · exact (below n member).trans (Nat.lt_succ_self _)

theorem once (h : t.Layered) (stack : Option StackId) (l : LocalsId) :
    ((t.elements stack l).map (·.slot)).Nodup := by
  have numbered : (t.locals l).zipIdx.map (·.2) = List.range (t.locals l).length :=
    (List.zipIdx_map_snd 0 _).trans (List.range_eq_range' ..).symm
  rw [elements, List.map_append, List.map_map, List.map_reverse, List.map_map]
  change (_ ++ ((t.locals l).zipIdx.map (·.2)).reverse).Nodup
  rw [numbered]
  refine List.nodup_append.mpr ⟨?_, List.nodup_reverse.mpr List.nodup_range, ?_⟩
  · refine List.pairwise_map.mpr ((h.descends _ stack).2.imp fun lower same => ?_)
    simp only [Function.comp_apply] at same
    omega
  · intro k above k' local' same
    obtain ⟨n, -, rfl⟩ := List.mem_map.mp above
    have inside := List.mem_range.mp (List.mem_reverse.mp local')
    have short := h.short l
    simp only [Function.comp_apply] at same
    omega

/-! How a table comes about. -/

theorem newLocals {slots : List (Option ValueId)} (h : t.Layered) (short : slots.length ≤ t.localCount) :
    (t.newLocals slots).2.Layered := by
  refine ⟨h.nodes, fun other member => ?_⟩
  rcases Array.mem_push.mp member with member | rfl
  · exact h.locals other member
  · exact short

theorem init (h : t.Layered) {count : Nat} (more : t.localCount ≤ count) : (t.init count).2.Layered :=
  newLocals (t := { t with localCount := count })
    ⟨h.nodes, fun slots member => (h.locals slots member).trans more⟩ (by simp)

theorem copyLocals (h : t.Layered) (l : LocalsId) : (t.copyLocals l).2.Layered := h.newLocals (h.short l)

theorem setLocal (h : t.Layered) (l : LocalsId) (k : Nat) (value : Option ValueId) :
    (t.setLocal l k value).Layered := by
  refine ⟨h.nodes, fun slots member => ?_⟩
  obtain ⟨n, inside, rfl⟩ := Array.mem_iff_getElem.mp member
  have inside' : n < t.arrays.size := by simpa [FrameTable.setLocal] using inside
  have before := h.locals _ (Array.getElem_mem inside')
  simp only [FrameTable.setLocal, Array.getElem_modify]
  split
  · rw [List.length_set]
    exact before
  · exact before

theorem push {stack : Option StackId} {l : LocalsId} (h : t.Layered) (ordered : t.Ordered)
    (has : t.Has stack l) (value : Option ValueId) : (t.push value stack).2.Layered := by
  have grows := t.growsPush value stack
  have depth : ∀ next : Option StackId, (∀ m ∈ next, m.index < t.nodes.size) →
      (t.push value stack).2.depth next = t.depth next := by
    intro next inside
    cases next with
    | none => rfl
    | some m => simp only [FrameTable.depth, grows.node m (inside m rfl)]
  refine ⟨fun n member => ?_, h.locals⟩
  rcases Array.mem_push.mp member with member | rfl
  · obtain ⟨k, inside, rfl⟩ := Array.mem_iff_getElem.mp member
    have here : t.node ⟨k⟩ = t.nodes[k] := by simp [node, Array.getD, inside]
    have tail := ordered ⟨k⟩ inside
    rw [here] at tail
    rw [depth _ fun m next => (tail m next).trans inside]
    exact h.nodes _ (Array.getElem_mem inside)
  · exact (depth stack has.stack).symm

end Layered

end FrameTable

section

variable {s s' t : State} {x y : Site} {id : ResourceId} {v w : ValueId} {i k : SiteId}
  {lent : List Register} {j : JunctionId} {e : EventId} {slot : FrameElement} {c c' : Conformed}
  {err : Error}

/-! What was brought to an entry. -/

structure State.Anchored (s : State) (v : ValueId) (x : Site) (i : SiteId) : Prop where
  value : s.IsValue v
  known : s.IsSite i
  pinned : s.Pinned i
  held : ∃ m ∈ s.ring v, i ∈ (s.value m).sites
  meets : (s.site i).satisfies s.geometry (x.mask s.geometry) = true

namespace State.Anchored

theorem later (anchored : s.Anchored v x i) (rings : s.Permutes) (rings' : s'.Permutes)
    (extend : Extends s s')
    (freezes : ∀ id, (s.resources.get id).freezes ≤ (s'.resources.get id).freezes)
    (stays : ∀ m, i ∈ (s.value m).sites → i ∈ (s'.value m).sites) : s'.Anchored v x i := by
  obtain ⟨m, inRing, listed⟩ := anchored.held
  refine ⟨extend.isValue anchored.value, extend.isSite anchored.known, fun id names has free => ?_,
    ⟨m, (extend.memRing rings rings' anchored.value).mpr inRing, stays m listed⟩, ?_⟩
  · rw [extend.resource anchored.known] at names
    exact (anchored.pinned id names ((extend.has id).mp has) ((extend.free id).mp free)).trans_le
      (freezes id)
  · rw [extend.satisfies anchored.known, extend.geometry]
    exact anchored.meets

theorem freeze (anchored : s.Anchored v x i) (formed : s.WellFormed) (k : SiteId) :
    (s.freezeSite k).Anchored v x i :=
  anchored.later formed.rings (wellFormedFreeze formed k).rings (s.extendsFreeze k)
    (tightensFreeze s k).freezes fun m listed => by rwa [freezeSiteValue]

theorem moves {old : Nat} {kept : List SiteId} (anchored : s.Anchored v x i) (formed : s.WellFormed)
    (run : Moves old kept [] s [] s') (inside : i ∈ kept) : s'.Anchored v x i :=
  anchored.later formed.rings (run.wellFormed formed).rings run.keeps.extends
    run.keeps.tightens.freezes fun _ listed => run.keepsListed inside listed

theorem ready (anchored : s.Anchored v x i) (h : s.Tracked lent []) : Ready 0 s [i] [] :=
  ⟨h.formed, h.named, fun k member => by
    rw [List.mem_singleton.mp member]
    exact ⟨anchored.known, .inl anchored.pinned⟩, by simp, Nat.zero_le _⟩

theorem isMet (anchored : s.Anchored v x i) : s.Meets v x := by
  obtain ⟨m, inRing, listed⟩ := anchored.held
  exact ⟨m, inRing, i, listed, anchored.meets⟩

end State.Anchored

theorem anchoredFreeze (value : s.IsValue v) (known : s.IsSite i)
    (held : ∃ m ∈ s.ring v, i ∈ (s.value m).sites)
    (meets : (s.site i).satisfies s.geometry (x.mask s.geometry) = true) :
    (s.freezeSite i).Anchored v x i := by
  have extend := s.extendsFreeze i
  obtain ⟨m, inRing, listed⟩ := held
  refine ⟨extend.isValue value, extend.isSite known, s.pinnedFreeze i, ⟨m, ?_, ?_⟩, ?_⟩
  · rwa [freezeSiteRing]
  · rwa [freezeSiteValue]
  · rw [extend.satisfies known, extend.geometry]
    exact meets

/-! One slot. -/

theorem meetEntryAnchors {reserve : Nat} (h : s.Tracked lent []) (value : s.IsValue v)
    (ok : meetEntry v x reserve s = .ok i s') :
    (∃ lent', s'.Tracked lent' []) ∧ Extends s s' ∧ s'.Anchored v x i ∧
      ∀ {w y k}, s.Anchored w y k → s'.Anchored w y k := by
  obtain ⟨t, run, rfl, known, held, meets⟩ := meetEntryMoves (h.ready (Nat.zero_le _)) value ok
  refine ⟨⟨_, (run.tracked h (by simp)).freeze i⟩, run.keeps.extends.trans (t.extendsFreeze i),
    anchoredFreeze ((run.keeps.isValue v).mpr value) known held meets, fun {w y k} anchored => ?_⟩
  obtain ⟨t', run', same, -⟩ := meetEntryMoves (anchored.ready h) value ok
  rw [same]
  exact (anchored.moves h.formed run' (List.mem_singleton_self k)).freeze (run'.wellFormed h.formed) i

theorem copyResource {g : FrameGeometry} {other : ResourceId} (names : x.Names g id)
    (stands : x.copy.resource? g = some other) : other = id := by
  cases x with
  | register mask number => cases number <;> cases stands
  | constant p => cases stands
  | address p => cases stands
  | memory m acquired =>
    simp only [Site.copy, Site.ofMemory, Site.resource?, Option.ite_none_right_eq_some] at stands
    obtain ⟨-, same⟩ := stands
    cases same
    cases id with
    | register n =>
      simp only [Site.Names, Site.mask, SiteMask.register] at names
      split at names <;> simp at names
    | slot k =>
      obtain ⟨m', acquired', same, rfl⟩ := slotOfNames names
      cases same
      rfl

theorem emptyEntryAnchors (h : s.Tracked lent []) (names : x.Names s.geometry id)
    (ok : emptyEntry x s = .ok i s') :
    (∃ lent', s'.Tracked lent' []) ∧ Extends s s' ∧
      ∀ {w y k id'}, s.Anchored w y k → y.Names s.geometry id' → id' ≠ id → s'.Anchored w y k := by
  obtain ⟨v, s₁, t, prepared, acquired, after, rfl⟩ := emptyEntryActs h ok
  have fresh := prepared.fresh h
  have acquires := acquireAcquires prepared.tracked acquired
  obtain ⟨extend, freezes⟩ := acquires.extends prepared.extend prepared.new
  have keeps := (t.keepsEnlist v i).trans ((t.enlist v i).keepsRemoveSite v i)
  have removed := after.removeSite v i
  refine ⟨⟨_, removed.freeze i⟩, (extend.trans keeps.extends).trans (extendsFreeze _ i),
    fun {w y k id'} anchored named apart => ?_⟩
  have away : k ≠ i := by
    rintro rfl
    exact prepared.new anchored.known
  have anchored₁ : s₁.Anchored w y k := by
    refine anchored.later h.formed.rings prepared.tracked.formed.rings prepared.extend (fun id => ?_)
      fun m listed => ?_
    · rw [prepared.resources]
    · rwa [prepared.sites]
  have unowned := prepared.tracked.unowned fresh (by simp)
  -- whoever is at the place of the entry is not the value at the other one
  have others : ∀ id o, s₁.resource? i = some id → s₁.Free id → s₁.owner? id = some o →
      o.site ∉ [i, k] := by
    intro there o stands free owner inside
    rcases List.mem_cons.mp inside with same | inside
    · exact unowned there o free owner same
    · rw [State.resource?, prepared.site, prepared.extend.geometry] at stands
      cases copyResource names stands
      obtain ⟨-, -, stands'⟩ := prepared.tracked.named _ o free owner
      rw [List.mem_singleton.mp inside] at stands'
      rw [← prepared.extend.geometry] at named
      exact apart (sameOfNames prepared.tracked.formed named anchored₁.meets stands'
        (ResourceTable.hasOfOwner owner)).symm
  have ready := (anchored₁.ready prepared.tracked).reach prepared.known unowned
  have acquires' := acquireSpec evictSpec ready others acquired
  have value' : t.IsValue v := by
    rw [IsValue, acquires.size]
    exact prepared.value
  refine (anchored.later h.formed.rings removed.formed.rings (extend.trans keeps.extends) (fun id => ?_)
    fun m listed => ?_).freeze removed.formed i
  · rw [keeps.resources.freezes, freezes, prepared.resources]
  · have held : k ∈ ((t.enlist v i).value m).sites := by
      refine (t.enlistListed value').mpr (.inr (acquires'.keepsListed (by simp) ?_))
      rwa [prepared.sites]
    exact (t.enlist v i).removeSiteKeepsListed held away

/-- Slots have been dealt with, one after the other. The values in them are at their entries, and
what was at the entry of another slot is still there. -/
structure Anchors (j : JunctionId) (slots : List FrameElement) (s s' : State) : Prop where
  tracked : ∃ lent, s'.Tracked lent []
  extend : Extends s s'
  anchored : ∀ slot ∈ slots, ∀ v x, slot.value = some v → s.Live v →
    s.tableEntry j slot.slot = some x → ∃ i, s'.Anchored v x i
  stays : ∀ n ∉ slots.map (·.slot), ∀ v x i, s.tableEntry j n = some x → s.Anchored v x i →
    s'.Anchored v x i

theorem conformPresentAnchors {n : Nat} {who : Option ValueId} (h : s.Tracked lent [])
    (known : ∀ v, who = some v → s.IsValue v) (distinct : DistinctEntries s.geometry (s.junction j))
    (ok : conformPresent j c n who s = .ok c' s') :
    (∃ lent', s'.Tracked lent' []) ∧ Extends s s' ∧
      (∀ v x, who = some v → s.tableEntry j n = some x → ∃ i, s'.Anchored v x i) ∧
      ∀ m ≠ n, ∀ v x i, s.tableEntry j m = some x → s.Anchored v x i → s'.Anchored v x i := by
  cases who with
  | none =>
    simp only [conformPresent, getBind] at ok
    cases entry : s.tableEntry j n with
    | none =>
      simp only [entry, pureOk] at ok
      obtain ⟨-, rfl⟩ := ok
      exact ⟨⟨lent, h⟩, .refl s, by simp, fun _ _ _ _ _ _ anchored => anchored⟩
    | some x =>
      simp only [entry, bindOk, pureOk] at ok
      obtain ⟨i, t, emptied, -, rfl⟩ := ok
      obtain ⟨id, names⟩ := distinct.names n x entry
      obtain ⟨tracked, extend, stays⟩ := emptyEntryAnchors h names emptied
      refine ⟨tracked, extend, by simp, fun m other v y k there anchored => ?_⟩
      obtain ⟨id', names'⟩ := distinct.names m y there
      refine stays anchored names' ?_
      rintro rfl
      exact distinct.apart m n y x id' other there entry names' names
  | some v =>
    simp only [conformPresent, getBind] at ok
    cases entry : s.tableEntry j n with
    | none =>
      simp only [entry, pureOk] at ok
      obtain ⟨-, rfl⟩ := ok
      exact ⟨⟨lent, h⟩, .refl s, by simp, fun _ _ _ _ _ _ anchored => anchored⟩
    | some x =>
      simp only [entry] at ok
      rw [getBind] at ok
      simp only [bindOk, pureOk] at ok
      obtain ⟨i, t, met, -, rfl⟩ := ok
      obtain ⟨tracked, extend, anchored, stays⟩ := meetEntryAnchors h (known v rfl) met
      refine ⟨tracked, extend, fun w y same there => ?_, fun _ _ _ _ _ _ before => stays before⟩
      cases same
      cases there
      exact ⟨i, anchored⟩

theorem conformSlotAnchors (h : s.Tracked lent []) (known : ∀ v, slot.value = some v → s.IsValue v)
    (distinct : DistinctEntries s.geometry (s.junction j))
    (ok : conformSlot j c slot s = .ok c' s') : Anchors j [slot] s s' := by
  obtain ⟨asked, present⟩ : Moves 0 [] [] s [] _ ∧ _ := presentSpec h.formed slot.value
  have undisturbed : ∀ {v x i}, s.Anchored v x i → (s.present slot.value).2.Anchored v x i := by
    intro v x i anchored
    obtain ⟨run, -⟩ : Moves 0 [i] [] s [] _ ∧ _ := presentSpec h.formed slot.value
    exact anchored.moves h.formed run (List.mem_singleton_self i)
  have extend := asked.keeps.extends
  rw [conformSlotEq] at ok
  rw [← extend.geometry, ← extend.junction] at distinct
  obtain ⟨tracked, extend', anchored, stays⟩ := conformPresentAnchors (asked.tracked h (by simp))
    (fun v here => extend.isValue (known v ((present v).mp here).1)) distinct ok
  refine ⟨tracked, extend.trans extend', fun slot' member v x here alive entry => ?_,
    fun n apart v x i entry before => ?_⟩
  · cases List.mem_singleton.mp member
    rw [← extend.tableEntry] at entry
    exact anchored v x ((present v).mpr ⟨here, alive⟩) entry
  · rw [← extend.tableEntry] at entry
    exact stays n (by simpa using apart) v x i entry (undisturbed before)

/-! All slots. -/

theorem Anchors.nil (tracked : ∃ lent, s.Tracked lent []) : Anchors j [] s s :=
  ⟨tracked, .refl s, by simp, fun _ _ _ _ _ _ anchored => anchored⟩

theorem Anchors.cons {rest : List FrameElement} (formed : s.WellFormed)
    (first : Anchors j [slot] s t) (later : Anchors j rest t s')
    (once : slot.slot ∉ rest.map (·.slot))
    (known : ∀ slot ∈ rest, ∀ v, slot.value = some v → s.IsValue v) :
    Anchors j (slot :: rest) s s' := by
  obtain ⟨lent, tracked⟩ := first.tracked
  refine ⟨later.tracked, first.extend.trans later.extend, fun slot' member v x here alive entry => ?_,
    fun n apart v x i entry before => ?_⟩
  · have entry' := (first.extend.tableEntry j slot'.slot).trans entry
    rcases List.mem_cons.mp member with rfl | member
    · obtain ⟨i, anchored⟩ := first.anchored slot' List.mem_cons_self v x here alive entry
      exact ⟨i, later.stays slot'.slot once v x i entry' anchored⟩
    · have alive' := (first.extend.live formed tracked.formed (known slot' member v here)).mpr alive
      exact later.anchored slot' member v x here alive' entry'
  · simp only [List.map_cons, List.mem_cons, not_or] at apart
    exact later.stays n apart.2 v x i ((first.extend.tableEntry j n).trans entry)
      (first.stays n (by simpa using apart.1) v x i entry before)

theorem passAnchors (slots : List FrameElement) : ∀ {s : State} {c : Conformed},
    (∃ lent, s.Tracked lent []) → (∀ slot ∈ slots, ∀ v, slot.value = some v → s.IsValue v) →
    (slots.map (·.slot)).Nodup → DistinctEntries s.geometry (s.junction j) →
    slots.foldlM (conformSlot j) c s = .ok c' s' → Anchors j slots s s' := by
  induction slots with
  | nil =>
    intro s c tracked _ _ _ ok
    obtain ⟨-, rfl⟩ := pureOk.mp ok
    exact .nil tracked
  | cons slot rest ih =>
    intro s c tracked known once distinct ok
    obtain ⟨lent, h⟩ := tracked
    rw [List.foldlM_cons] at ok
    obtain ⟨d, t, conformed, later⟩ := bindOk.mp ok
    have first := conformSlotAnchors h (known slot List.mem_cons_self) distinct conformed
    have known' : ∀ slot ∈ rest, ∀ v, slot.value = some v → s.IsValue v :=
      fun other member => known other (List.mem_cons_of_mem _ member)
    obtain ⟨absent, once'⟩ := List.nodup_cons.mp once
    rw [← first.extend.geometry, ← first.extend.junction] at distinct
    refine .cons h.formed first (ih first.tracked ?_ once' distinct later) absent known'
    exact fun other member v here => first.extend.isValue (known' other member v here)

/-! What a pass complains about. -/

theorem relocateFails {r : ReadId} {strict : Bool} {reserve : Nat} (ready : Ready 0 s [] [])
    (value : s.IsValue (s.reads.value r)) (failed : relocate r strict reserve s = .error err t) :
    err.OfPlacing :=
  failsAboveBottom (f := (relocateWith · r strict reserve)) (fun bottom => (relocateCongr evictSpec
    (agreeAbove bottom (Nat.lt_succ_self s.loose.card)) ready value).symm)
    (fun fails => failsRelocate fails r strict reserve) failed

theorem placeFails (ready : Ready 0 s [] []) (failed : place v i s = .error err t) : err.OfPlacing :=
  failsAboveBottom (f := (placeWith · v i))
    (fun bottom => placeCongr (acquireAbove bottom ready (Nat.lt_succ_self s.loose.card)))
    (fun fails => failsPlace fails v i) failed

theorem settleFails {r : ReadId} {reserve : Nat} (ready : Ready 0 s [] [])
    (single : s.SingleReads [r]) (failed : settle r true reserve s = .error err t) :
    err.OfPlacing := by
  unfold settle at failed
  rw [modifyGetBind] at failed
  cases chosen : s.chooseSource r { strict := true } with
  | mk found s₁ =>
    simp only [chosen] at failed
    cases found with
    | some c => simp at failed
    | none =>
      obtain ⟨asked, -⟩ : Moves 0 [] [] s [] s₁ ∧ _ := chooseSourceSpec ready.formed single chosen
      obtain ⟨value, own, successor, next, kind⟩ := single r List.mem_cons_self
      refine relocateFails (ready.moves asked) ?_ failed
      rw [asked.keeps.reads.value r (ReadTable.isReadOfPending (.single kind))]
      exact (asked.keeps.isValue _).mpr value

theorem meetEntryFails {reserve : Nat} (ready : Ready 0 s [] []) (value : s.IsValue v)
    (failed : meetEntry v x reserve s = .error err t) : err.OfPlacing := by
  obtain ⟨asked, single⟩ : Moves 0 [] [] s [] _ ∧ _ := probeEntry value (x.mask s.geometry)
  have holds : ∀ i, FailsPlacing (hold i) := fun i => .bind .modify fun _ => .pure
  simp only [meetEntry, probe, getBind, modifyGetBind, bindError] at failed
  rcases failed with settling | ⟨i, u, -, failed⟩
  · exact settleFails (ready.moves asked) single settling
  · exact (holds i).fails failed

theorem emptyEntryFails (h : s.Tracked lent []) (failed : emptyEntry x s = .error err t) :
    err.OfPlacing := by
  have prepared := preparedNew h x
  have holds : ∀ v i, FailsPlacing (do modify (·.removeSite v i); hold i) :=
    fun v i => .bind .modify fun _ => .bind .modify fun _ => .pure
  simp only [emptyEntry, modifyGetBind] at failed
  rcases bindError.mp failed with placing | ⟨⟨⟩, u, -, failed⟩
  · exact placeFails (prepared.tracked.ready (Nat.zero_le _)) placing
  · exact (holds _ _).fails failed

theorem conformSlotFails (h : s.Tracked lent []) (known : ∀ v, slot.value = some v → s.IsValue v)
    (failed : conformSlot j c slot s = .error err t) : err.OfPlacing := by
  obtain ⟨asked, present⟩ : Moves 0 [] [] s [] _ ∧ _ := presentSpec h.formed slot.value
  have tracked := asked.tracked h (by simp)
  have known' : ∀ v, (s.present slot.value).1 = some v → (s.present slot.value).2.IsValue v :=
    fun v here => asked.keeps.extends.isValue (known v ((present v).mp here).1)
  rw [conformSlotEq] at failed
  generalize s.present slot.value = found at *
  obtain ⟨who, u⟩ := found
  cases who with
  | none =>
    simp only [conformPresent, getBind] at failed
    cases entry : u.tableEntry j slot.slot with
    | none => simp [entry] at failed
    | some x =>
      simp only [entry] at failed
      rcases bindError.mp failed with emptying | ⟨i, w, -, failed⟩
      · exact emptyEntryFails tracked emptying
      · simp at failed
  | some v =>
    simp only [conformPresent, getBind] at failed
    cases entry : u.tableEntry j slot.slot with
    | none => simp [entry] at failed
    | some x =>
      simp only [entry] at failed
      rw [getBind] at failed
      rcases bindError.mp failed with meeting | ⟨i, w, -, failed⟩
      · exact meetEntryFails (tracked.ready (Nat.zero_le _)) (known' v rfl) meeting
      · simp at failed

theorem passFails (slots : List FrameElement) : ∀ {s : State} {c : Conformed},
    (∃ lent, s.Tracked lent []) → (∀ slot ∈ slots, ∀ v, slot.value = some v → s.IsValue v) →
    DistinctEntries s.geometry (s.junction j) →
    slots.foldlM (conformSlot j) c s = .error err t → err.OfPlacing := by
  induction slots with
  | nil =>
    intro s c _ _ _ failed
    simp at failed
  | cons slot rest ih =>
    intro s c tracked known distinct failed
    obtain ⟨lent, h⟩ := tracked
    rw [List.foldlM_cons] at failed
    rcases bindError.mp failed with here | ⟨d, u, conformed, failed⟩
    · exact conformSlotFails h (known slot List.mem_cons_self) here
    · have first := conformSlotAnchors h (known slot List.mem_cons_self) distinct conformed
      rw [← first.extend.geometry, ← first.extend.junction] at distinct
      refine ih first.tracked (fun other member v here => ?_) distinct failed
      exact first.extend.isValue (known other (List.mem_cons_of_mem _ member) v here)

/-! What is asked after a pass. -/

theorem isSettledOk (slots : List FrameElement) : ∀ {s : State}, s.WellFormed →
    (∀ slot ∈ slots, ∀ v x, slot.value = some v → s.tableEntry j slot.slot = some x → s.Live v →
      s.Meets v x) →
    ∃ reads, isSettled j slots s = .ok true { s with reads } := by
  induction slots with
  | nil => exact fun _ _ => ⟨_, rfl⟩
  | cons slot rest ih =>
    intro s formed meets
    have skip : ∀ {reads : ReadTable}, s.reads.Evolves reads →
        ∃ reads', isSettled j rest { s with reads } = .ok true { s with reads := reads' } := by
      intro reads evolves
      have keeps := s.keepsReads evolves
      have formed' := keeps.wellFormed formed formed.listed
      refine ih formed' fun other member v x value entry alive => ?_
      obtain ⟨m, inRing, i, listed, meets⟩ := meets other (List.mem_cons_of_mem _ member) v x value entry
        ((keeps.live formed formed' v).mp alive)
      rw [← keeps.ring] at inRing
      exact ⟨m, inRing, i, listed, meets⟩
    unfold isSettled
    cases value : slot.value with
    | none => exact skip (.refl _)
    | some v =>
      simp only [getBind]
      cases entry : s.tableEntry j slot.slot with
      | none => exact skip (.refl _)
      | some x =>
        obtain ⟨reads, state, evolves, -⟩ := liveReadSpec formed v
        have fine : ((s.isLive v).1 && !(({ s with reads }.placements v).any fun o =>
            ({ s with reads }.site o.site).satisfies s.geometry (x.mask s.geometry))) = false := by
          cases alive : (s.isLive v).1 with
          | false => rfl
          | true =>
            obtain ⟨m, inRing, i, listed, meets⟩ :=
              meets slot List.mem_cons_self v x value entry alive
            rw [← (s.keepsReads evolves).ring] at inRing
            simp only [Bool.true_and, Bool.not_eq_false']
            exact List.any_eq_true.mpr ⟨⟨m, i⟩, memPlacements.mpr ⟨inRing, listed⟩, meets⟩
        obtain ⟨reads', settled⟩ := skip evolves
        refine ⟨reads', ?_⟩
        simp only [live, modifyGetBind, isLiveState, state, getBind]
        rw [if_neg (Bool.eq_false_iff.mp fine)]
        exact settled

inductive SettlesFirst (e : EventId) (j : JunctionId) (s : State) : Prop
  | fails {err : Error} {t : State}
      (pass : (s.slotsAfter e).foldlM (conformSlot j) {} s = .error err t) (placing : err.OfPlacing)
      (outcome : conform e j s = .error err t)
  | settles {c : Conformed} {t u : State}
      (pass : (s.slotsAfter e).foldlM (conformSlot j) {} s = .ok c t)
      (anchored : ∀ slot ∈ s.slotsAfter e, ∀ v x, slot.value = some v → s.Live v →
        s.tableEntry j slot.slot = some x → ∃ i, t.Anchored v x i)
      (settled : isSettled j (s.slotsAfter e) t = .ok true u)
      (outcome : conform e j s = .ok c (u.count (·.countJunction 1)))

/- The frames may share locals and stacks in any way, and it does not matter what is frozen or
reserved before. -/
theorem firstPassSettles (coherent : s.Coherent lent) (layered : s.frames.Layered)
    (known : ∀ p ∈ s.valuesAfter e, s.IsValue p.1)
    (distinct : DistinctEntries s.geometry (s.junction j)) :
    SettlesFirst e j s ∧ ∀ bound r t, conform e j s ≠ .error (.fixedPoint bound r) t := by
  have h := trackedIff.mpr coherent
  have known' : ∀ slot ∈ s.slotsAfter e, ∀ v, slot.value = some v → s.IsValue v := by
    intro slot member v value
    exact known (v, slot.slot) (List.mem_filterMap.mpr ⟨slot, member, by simp [value]⟩)
  have first : SettlesFirst e j s := by
    cases pass : (s.slotsAfter e).foldlM (conformSlot j) {} s with
    | error err t =>
      refine .fails pass (passFails _ ⟨lent, h⟩ known' distinct pass) ?_
      rw [conform, getBind]
      exact bindError.mpr (.inl pass)
    | ok c t =>
      have anchors := passAnchors _ ⟨lent, h⟩ known' (layered.once _ _) distinct pass
      obtain ⟨_, tracked⟩ := anchors.tracked
      obtain ⟨reads, settled⟩ := isSettledOk (j := j) (s.slotsAfter e) tracked.formed
        fun slot member v x value entry alive => by
          rw [anchors.extend.tableEntry] at entry
          have alive' := (anchors.extend.live h.formed tracked.formed (known' slot member v value)).mp alive
          obtain ⟨i, anchored⟩ := anchors.anchored slot member v x value alive' entry
          exact anchored.isMet
      refine .settles pass anchors.anchored settled ?_
      rw [conform, getBind, conformWithin]
      refine bindOk.mpr ⟨c, t, pass, bindOk.mpr ⟨true, _, settled, ?_⟩⟩
      rw [if_pos rfl, modifyBind, Nat.add_sub_cancel_left]
      rfl
  refine ⟨first, fun bound r t failed => ?_⟩
  cases first with
  | fails pass placing outcome =>
    rw [outcome] at failed
    cases failed
    exact placing
  | settles pass anchored settled outcome =>
    rw [outcome] at failed
    cases failed

end

/-- Two values that are to change places, and a slot without a value whose place is to be free. -/
def State.swapping : State :=
  { meeting with
    frames := ⟨#[], #[[some ⟨0⟩, some ⟨1⟩, none]], 3⟩
    junctions := #[[X64.rsi, X64.rdi, X64.rax].map fun r => some (.ofRegisters (RegisterSet.single r))] }

theorem namesRegister {g : FrameGeometry} {id : ResourceId} {r : Register} (small : r < 64)
    (names : (Site.ofRegisters (RegisterSet.single r)).Names g id) : id = .register r := by
  cases id with
  | register n =>
    simp only [Site.Names, Site.mask, Site.ofRegisters, SiteMask.register, SiteMask.mk.injEq] at names
    have member : RegisterSet.has (RegisterSet.single r) r = true := by
      simp [RegisterSet.has, RegisterSet.single, small]
    rw [names.2.1] at member
    rw [RegisterSet.hasSingle member]
  | slot k =>
    simp only [Site.Names, Site.mask, Site.ofRegisters, SiteMask.slot, SiteMask.mk.injEq] at names
    exact absurd names.1 (by decide)

theorem distinctRegisters {g : FrameGeometry} {rs : List Register} (small : ∀ r ∈ rs, r < 64)
    (once : rs.Nodup) :
    DistinctEntries g (rs.map fun r => some (.ofRegisters (RegisterSet.single r))) := by
  have entry : ∀ {k : Nat} {x : Site},
      (rs.map fun r => some (Site.ofRegisters (RegisterSet.single r)))[k]?.join = some x →
      ∃ r, rs[k]? = some r ∧ r < 64 ∧ x = .ofRegisters (RegisterSet.single r) := by
    intro k x found
    rw [List.getElem?_map] at found
    cases here : rs[k]? with
    | none => simp [here] at found
    | some r =>
      simp only [here, Option.map_some, Option.join_some, Option.some.injEq] at found
      exact ⟨r, rfl, small r (List.mem_of_getElem? here), found.symm⟩
  refine ⟨fun k x found => ?_, fun k l x y id apart found found' names names' => ?_⟩
  · obtain ⟨r, -, -, rfl⟩ := entry found
    exact ⟨.register r, rfl⟩
  · obtain ⟨r, here, small, rfl⟩ := entry found
    obtain ⟨r', there, small', rfl⟩ := entry found'
    have same : r = r' := ResourceId.register.inj
      ((namesRegister small names).symm.trans (namesRegister small' names'))
    obtain ⟨inside, -⟩ := List.getElem?_eq_some_iff.mp here
    exact apart ((List.getElem?_inj inside once).mp (here.trans (same ▸ there.symm)))

theorem swappingSettles : swapping.Coherent [] ∧ swapping.frames.Layered ∧
    Succeeds (conform ⟨0⟩ ⟨0⟩) swapping ∧ SettlesFirst ⟨0⟩ ⟨0⟩ swapping := by
  have coherent : swapping.Coherent [] := by decide +kernel
  have layered : swapping.frames.Layered := by decide +kernel
  have distinct : DistinctEntries swapping.geometry (swapping.junction ⟨0⟩) :=
    distinctRegisters (by decide) (by decide)
  exact ⟨coherent, layered, by decide +kernel,
    (firstPassSettles coherent layered (by decide +kernel) distinct).1⟩

end Lowering
