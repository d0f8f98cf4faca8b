import Lowering.Proofs.Isolation
import Lowering.Proofs.Stirring
/-!
Rings over a whole run.

Values begin alone. They join rings, leave them, are consumed, and are put back to where they were when a fork was
recorded. Whatever the order, each value keeps exactly one predecessor, and that is what keeps the rings apart and
brings every walk back to where it began.
-/
namespace Lowering

open State Build

variable {s s' t : State} {v w : ValueId}

namespace State

/-- Each value is in one ring. The walk around it begins with the value, meets no value twice, and is over when the
next step would be back at the value. -/
structure Ringed (s : State) : Prop where
  permutation : Set.BijOn (fun v => (s.value v).next) {v | s.IsValue v} {v | s.IsValue v}
  first : ∀ v, (s.ring v).head? = some v
  closed : ∀ v, s.IsValue v → List.IsChain (fun a b => (s.value a).next = b) (s.ring v ++ [v])
  once : ∀ v, s.IsValue v → (s.ring v).Nodup
  known : ∀ v, s.IsValue v → ∀ w ∈ s.ring v, s.IsValue w
  symmetric : ∀ v w, s.IsValue v → s.IsValue w → (w ∈ s.ring v ↔ v ∈ s.ring w)
  disjoint : ∀ v w, s.IsValue v → s.IsValue w → (s.ring v).Perm (s.ring w) ∨ (s.ring v).Disjoint (s.ring w)

theorem ringCloses (rings : s.Permutes) (known : s.IsValue v) :
    List.IsChain (fun a b => (s.value a).next = b) (s.ring v ++ [v]) := by
  have round : s.ring v ++ [v] =
      (List.range (Function.minimalPeriod s.follow v + 1)).map (s.follow^[·] v) := by
    rw [ringEq rings known, List.range_succ, List.map_append, List.map_singleton, Function.iterate_minimalPeriod]
  rw [round, List.isChain_map, List.isChain_range_succ]
  intro n _
  rw [Nat.succ_eq_add_one, Function.iterate_succ_apply', followKnown (isValueIterate rings known n)]

theorem ringPerm (rings : s.Permutes) (known : s.IsValue v) (met : w ∈ s.ring v) : (s.ring v).Perm (s.ring w) := by
  have there := isValueOfRing rings known met
  have back := memRingSymm rings known met
  refine (List.perm_ext_iff_of_nodup (nodupRing rings known) (nodupRing rings there)).mpr fun u => ?_
  exact ⟨memRingTrans rings there back, memRingTrans rings known met⟩

theorem Permutes.ringed (rings : s.Permutes) : s.Ringed where
  permutation :=
    ⟨rings.known, fun v first w second same => rings.injective v w first second same, fun v known =>
      ⟨s.previous v, isValuePrevious rings known,
        (followKnown (isValuePrevious rings known)).symm.trans (followPrevious rings known)⟩⟩
  first _ := rfl
  closed _ := ringCloses rings
  once _ := nodupRing rings
  known _ known _ := isValueOfRing rings known
  symmetric _ _ first second := ⟨memRingSymm rings first, memRingSymm rings second⟩
  disjoint v w first second := by
    by_cases met : ∃ u ∈ s.ring v, u ∈ s.ring w
    · obtain ⟨u, one, other⟩ := met
      exact .inl ((ringPerm rings first one).trans (ringPerm rings second other).symm)
    · exact .inr fun u one other => met ⟨u, one, other⟩

structure Regroups (v : ValueId) (s s' : State) : Prop where
  size : s'.values.size = s.values.size
  rings : s.IsValue v → s.Permutes → s'.Permutes

theorem Regroups.isValue (h : Regroups v s s') : s'.IsValue w ↔ s.IsValue w := by rw [IsValue, IsValue, h.size]

theorem Regroups.trans (first : Regroups v s t) (second : Regroups v t s') : Regroups v s s' := by
  refine ⟨second.size.trans first.size, fun known rings => ?_⟩
  exact second.rings (first.isValue.mpr known) (first.rings known rings)

instance : Std.Refl (Regroups v) := ⟨fun _ => ⟨rfl, fun _ rings => rings⟩⟩

instance : Trans (Regroups v) (Regroups v) (Regroups v) := ⟨Regroups.trans⟩

theorem Stirs.regroups (h : s.Stirs s') : Regroups v s s' := ⟨h.size, fun _ => permutesCongr h.size h.next⟩

theorem regroupsLeave (s : State) (v : ValueId) : Regroups v s (s.leaveRing v).2 :=
  ⟨(s.leaveRingRelinks v).size, fun known rings => permutesLeave rings known⟩

theorem regroupsIsolate (s : State) (v : ValueId) : Regroups v s (s.isolate v) := by
  unfold isolate
  split
  · exact Std.Refl.refl s
  · dsimp only
    exact .trans (.trans (regroupsLeave s v) (stirsSweep _).regroups) (stirsSweep v).regroups

end State

/-! Consuming a read changes rings only in that the value leaves its own. -/

theorem Build.Within.regroups {α : Type} {act : Build α} (stirs : act.Stirring) : act.Within (Regroups v) :=
  stirs.mono (·.regroups)

theorem bequeathRegroups (v : ValueId) : (bequeath v).Within (Regroups v) := by
  refine .bind (.modifyGet fun s => regroupsLeave s v) fun heir => .regroups (.bind .get fun s => ?_)
  refine .bind (.modify fun _ => stirsModifyValue _ fun _ => rfl) fun _ => .forM fun i => ?_
  refine .bind (.modify fun _ => stirsRelease i) fun _ => .bind (stirringAcquire heir i) fun _ => ?_
  exact .modify fun _ => stirsModifyValue _ fun _ => rfl

theorem consumeReadRegroups (e : Option EventId) (v : ValueId) : (consumeRead e v).Within (Regroups v) := by
  -- the value leaves when it has no further reads and its aliases have
  have rest : ∀ next : Option ReadId, (do
      modify (·.modifyValue v fun d => { d with reads := next })
      if !(← modifyGet (·.isPending next)) then
        if ← live v then bequeath v else modify (·.clearSites v) : Build Unit).Within (Regroups v) := by
    intro next
    refine .bind (.regroups (.modify fun _ => stirsModifyValue _ fun _ => rfl)) fun _ => ?_
    refine .bind (.regroups (.modifyGet fun _ => stirsPending next)) fun pending => .ite ?_ .pure
    refine .bind (.regroups (stirringLive v)) fun alive => ?_
    exact .ite (bequeathRegroups v) (.regroups (.modify fun _ => stirsClear v))
  unfold consumeRead
  refine .bind .get fun s => ?_
  split
  · exact .throw
  · refine .ite (.bind .throw fun _ => ?_) ?_
    all_goals
      split
      · exact .throw
      · exact rest _

/-! Rings that are put back. -/

structure Capture where
  state : State
  values : List ValueId

namespace Capture

variable {c : Capture}

def snapshots (c : Capture) : List Snapshot := c.values.flatMap c.state.snapshotsOf

structure Before (c : Capture) (s : State) : Prop where
  rings : c.state.Permutes
  known : ∀ v ∈ c.values, c.state.IsValue v
  size : c.state.values.size ≤ s.values.size

theorem Before.mono (before : c.Before s) (size : s.values.size ≤ s'.values.size) : c.Before s' :=
  ⟨before.rings, before.known, Nat.le_trans before.size size⟩

theorem restoreStirs (e : EventId) (snapshots : List Snapshot) (s : State) :
    (s.restoreRings snapshots).Stirs (after (restoreSnapshots e snapshots) s) := by
  have placed : (snapshots.reverse.forM restoreSites).Stirring := .forM stirringRestoreSites
  rw [restoreSnapshots, afterModify]
  exact (stirsVacateFrame e).trans (placed.keeps _)

theorem Before.restored (before : c.Before s) (rings : s.Permutes) (e : EventId) :
    (after (restoreSnapshots e c.snapshots) s).Permutes ∧
      ∀ n ∈ c.snapshots, (after (restoreSnapshots e c.snapshots) s).ring n.value = c.state.ring n.value := by
  have relinks := restoreRingsRelinks s c.snapshots
  obtain ⟨rings', next⟩ := restoreRingsPermutes rings (snapshotsWhole before.rings before.known before.size)
  have stirs := restoreStirs e c.snapshots s
  refine ⟨permutesCongr stirs.size stirs.next rings', fun n taken => ?_⟩
  obtain ⟨u, inside, m, inRing, rfl⟩ := memSnapshots.mp taken
  have size : c.state.values.size ≤ (s.restoreRings c.snapshots).values.size := relinks.size ▸ before.size
  -- the steps from the values that were recorded lead to no others
  have aliases := fun w captured => next (c.state.snapshot w) (capturedSnapshot.mp captured)
  rw [ringCongr stirs.size stirs.next]
  exact ringPutBack before.rings before.known rings' size aliases ⟨u, inside, inRing⟩

end Capture

/-! Runs. -/

structure History where
  state : State
  captures : List Capture

namespace History

/-- All that is ever done to rings. What is done to anything else comes in between. -/
inductive Step : History → History → Prop
  | create (h : History) (kind : ValueKind) : Step h { h with state := (h.state.newValue kind).2 }
  | join (h : History) (v copy : ValueId) (known : h.state.IsValue v) (there : h.state.IsValue copy)
      (alone : (h.state.value copy).next = copy) : Step h { h with state := h.state.joinRing v copy }
  | leave (h : History) (v : ValueId) (known : h.state.IsValue v) : Step h { h with state := (h.state.leaveRing v).2 }
  | isolate (h : History) (v : ValueId) (known : h.state.IsValue v) : Step h { h with state := h.state.isolate v }
  | consume (h : History) (e : Option EventId) (v : ValueId) (known : h.state.IsValue v) :
      Step h { h with state := after (consumeRead e v) h.state }
  | capture (h : History) (vs : List ValueId) (known : ∀ v ∈ vs, h.state.IsValue v) :
      Step h { h with captures := ⟨h.state, vs⟩ :: h.captures }
  | restore (h : History) (e : EventId) (c : Capture) (taken : c ∈ h.captures) :
      Step h { h with state := after (restoreSnapshots e c.snapshots) h.state }
  | elsewhere (h : History) (s : State) (size : s.values.size = h.state.values.size)
      (next : ∀ v, (s.value v).next = (h.state.value v).next) : Step h { h with state := s }

structure Kept (h : History) : Prop where
  rings : h.state.Permutes
  before : ∀ c ∈ h.captures, c.Before h.state

variable {h h' : History}

theorem Kept.grow (kept : h.Kept) (rings : s.Permutes) (size : h.state.values.size ≤ s.values.size) :
    Kept { h with state := s } :=
  ⟨rings, fun c taken => (kept.before c taken).mono size⟩

theorem Kept.regroup (kept : h.Kept) (regroups : Regroups v h.state s) (known : h.state.IsValue v) :
    Kept { h with state := s } :=
  kept.grow (regroups.rings known kept.rings) regroups.size.ge

theorem Kept.step (kept : h.Kept) (step : Step h h') : h'.Kept := by
  have rings := kept.rings
  cases step with
  | create kind => exact kept.grow (permutesNewValue rings kind) (by simp [newValue])
  | join v copy known there alone =>
    have fixed := (followKnown there).trans alone
    exact kept.grow (permutesJoin rings known there fixed) (joinRingRelinks ..).size.ge
  | leave v known => exact kept.regroup (regroupsLeave ..) known
  | isolate v known => exact kept.regroup (regroupsIsolate ..) known
  | consume e v known => exact kept.regroup ((consumeReadRegroups e v).keeps _) known
  | capture vs known =>
    refine ⟨rings, fun c taken => ?_⟩
    rcases List.mem_cons.mp taken with rfl | taken
    · exact ⟨rings, known, Nat.le_refl _⟩
    · exact kept.before c taken
  | restore e c taken =>
    have size := (Capture.restoreStirs e c.snapshots h.state).size.trans (restoreRingsRelinks ..).size
    exact kept.grow ((kept.before c taken).restored rings e).1 size.ge
  | elsewhere s size next => exact kept.grow (permutesCongr size next rings) size.ge

theorem Kept.run (kept : h.Kept) (steps : Relation.ReflTransGen Step h h') : h'.Kept := by
  induction steps with
  | refl => exact kept
  | tail _ step ih => exact ih.step step

end History

/- A method begins without values. -/
theorem ringsStayDisjoint {h : History} (bare : s.values = #[])
    (steps : Relation.ReflTransGen History.Step ⟨s, []⟩ h) :
    h.state.Ringed ∧ ∀ c ∈ h.captures, ∀ e, ∀ n ∈ c.snapshots,
      (after (restoreSnapshots e c.snapshots) h.state).ring n.value = c.state.ring n.value := by
  have none : ∀ v, ¬ s.IsValue v := by simp [IsValue, bare]
  have start : History.Kept ⟨s, []⟩ :=
    ⟨⟨fun v known => absurd known (none v), fun v _ known => absurd known (none v)⟩, by simp⟩
  have kept := start.run steps
  exact ⟨kept.rings.ringed, fun c taken e => ((kept.before c taken).restored kept.rings e).2⟩

def State.coupled : State :=
  let s := State.empty (X64.describe {}) {} (.recording {})
  let s := (((s.newValue .general).2.newValue .general).2.newValue .general).2
  s.joinRing ⟨0⟩ ⟨1⟩

def State.regrouped : State := (coupled.leaveRing ⟨1⟩).2.joinRing ⟨2⟩ ⟨1⟩

/- The pair was recorded in between, and comes back. -/
theorem regroupedRingsStayDisjoint : regrouped.Ringed ∧ regrouped.ring ⟨0⟩ = [⟨0⟩] ∧
    (after (restoreSnapshots ⟨0⟩ (coupled.snapshotsOf ⟨0⟩)) regrouped).ring ⟨0⟩ = [⟨0⟩, ⟨1⟩] := by
  have steps : Relation.ReflTransGen History.Step ⟨State.empty (X64.describe {}) {} (.recording {}), []⟩
      ⟨regrouped, [⟨coupled, [⟨0⟩]⟩]⟩ := by
    refine .head (.create _ .general) (.head (.create _ .general) (.head (.create _ .general) ?_))
    refine .head (.join _ ⟨0⟩ ⟨1⟩ (by decide) (by decide) (by decide)) ?_
    refine .head (.capture _ [⟨0⟩] (by decide)) ?_
    refine .head (.leave _ ⟨1⟩ (by decide)) (.single ?_)
    exact .join _ ⟨2⟩ ⟨1⟩ (by decide) (by decide +kernel) (by decide +kernel)
  obtain ⟨ringed, back⟩ := ringsStayDisjoint rfl steps
  refine ⟨ringed, by decide, ?_⟩
  have same := back ⟨coupled, [⟨0⟩]⟩ (List.mem_singleton_self _) ⟨0⟩ (coupled.snapshot ⟨0⟩)
    (memSnapshots.mpr ⟨⟨0⟩, List.mem_singleton_self _, ⟨0⟩, selfMemRing _ _, rfl⟩)
  rw [Capture.snapshots, List.flatMap_singleton] at same
  exact same.trans (by decide)

end Lowering
