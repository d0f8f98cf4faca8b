import Lowering.Proofs.Inheritance
/-!
The tables agree after every operation of the allocator if they agreed before.

What brings a value back to life is the exception: its sites have to be recorded as its own, since
nothing is said about the sites of values that are not live.
-/
namespace Lowering

open State Build

variable {s s' t : State} {id : ResourceId} {v w : ValueId} {i : SiteId}
  {lent : List Register} {due : List Owner}

/-! Moving values out of the way. -/

theorem evictTracked {thief : Option ValueId} (h : s.Tracked lent [])
    (ok : evict id thief s = .ok () s') : s'.Tracked lent [] := by
  by_cases free : s.Free id
  · cases evictSpec (h.ready (Nat.zero_le _)) ⟨free, by simp⟩ ok with
    | vacant => exact h
    | owned owner run => exact (run.tracked h (by simp)).removeSite _ _
  · cases (evictVacant (h.vacant id free)).symm.trans ok
    exact h

theorem relocateTracked {r : ReadId} {strict : Bool} {reserve : Nat} (h : s.Tracked lent [])
    (value : s.IsValue (s.reads.value r)) (ok : relocate r strict reserve s = .ok i s') :
    s'.Tracked lent [] :=
  (relocateSpec evictSpec (h.ready (Nat.zero_le _)) value (by simp) ok).moves.tracked h (by simp)

/-! Lending registers. -/

theorem acquireTemporaryTracked {mask : RegisterSet} {r : Register} (h : s.Tracked lent [])
    (ok : acquireTemporary mask s = .ok r s') : s'.Tracked (r :: lent) [] := by
  obtain ⟨-, available, u, lends, rfl⟩ := acquireTemporarySpec h.formed ok
  have run : Moves 0 [] [] s [] u :=
    lendsMoves h.formed h.named (by simp [Secured]) (by simp) available lends
  exact (run.tracked h (by simp)).refer [r]

theorem State.Tracked.perm {lent' : List Register} (h : s.Tracked lent due)
    (perm : lent.Perm lent') : s.Tracked lent' due :=
  { h with counted := fun r has free => by rw [h.counted r has free, perm.count_eq] }

theorem releaseTemporaryTracked {r : Register} (h : s.Tracked lent []) (inside : r ∈ lent) :
    (s.releaseTemporary r).Tracked (lent.erase r) [] := by
  have first : s.Tracked ([r] ++ lent.erase r) [] := h.perm (List.perm_cons_erase inside)
  exact first.unrefer

/-! Aliases. -/

structure State.Fresh (s : State) (v : ValueId) : Prop where
  known : s.IsValue v
  alone : (s.value v).next = v
  bare : (s.value v).sites = []

theorem State.Tracked.settled (h : s.Tracked lent due) (known : s.IsValue v) (alive : s.Live v) :
    s.Settled v := by
  intro m member i listed id names has free
  exact h.held m i id ((liveOfAlias h.formed known member).mpr alive) listed names has free

/-! Entering an event. -/

def State.FrameKnown (s : State) (e : EventId) : Prop :=
  ∀ v ∈ s.frames.values (s.event e).stackBefore (s.event e).localsBefore, s.IsValue v

theorem vacateFrameTracked {e : EventId} (h : s.Tracked lent []) (known : s.FrameKnown e) :
    (s.vacateFrame e).Tracked lent [] ∧ Keeps s (s.vacateFrame e) := by
  obtain ⟨cleared, first⟩ := clearAllTracked _ h known
  obtain ⟨vacated, second⟩ := vacateResourcesTracked _ cleared
  exact ⟨vacated, first.trans second⟩

theorem adoptTableTracked {e : EventId} {j : JunctionId} (h : s.Tracked lent [])
    (known : s.FrameKnown e) (ok : adoptTable e j s = .ok () s') : s'.Tracked lent [] := by
  obtain ⟨vacated, keeps⟩ := vacateFrameTracked h known
  simp only [adoptTable, modifyBind, getBind] at ok
  have frames : (s.vacateFrame e).frames = s.frames := by rw [keeps.rest]
  have event : (s.vacateFrame e).event e = s.event e := by
    unfold State.event
    rw [keeps.rest]
  rw [frames, event] at ok
  have size : ∀ v ∈ s.frames.values (s.event e).stackBefore (s.event e).localsBefore,
      v.index < (s.vacateFrame e).values.size := fun v member => by
    rw [keeps.size]
    exact known v member
  -- the number of values stays, so that those of the frame exist in every round
  refine (forMKeeps (P := fun t => t.Tracked lent [] ∧
    t.values.size = (s.vacateFrame e).values.size) _ ?_ ⟨vacated, rfl⟩ ok).1
  rintro ⟨v, slot⟩ member t t' ⟨tracked, same⟩ step
  dsimp only at step
  rw [getBind] at step
  cases entry : t.tableEntry j slot with
  | none =>
    simp only [entry, pureOk] at step
    rw [← step.2]
    exact ⟨tracked, same⟩
  | some x =>
    simp only [entry, live, modifyGetBind] at step
    have asked := tracked.isLive v
    have values := isLiveValues t tracked.formed v
    split at step
    · have there : (t.isLive v).2.IsValue v := by
        rw [IsValue, values, same]
        exact size v (List.mem_map.mpr ⟨_, member, rfl⟩)
      obtain ⟨placed, size'⟩ := placeAtTracked asked there step
      exact ⟨placed, by rw [size', values, same]⟩
    · obtain ⟨-, rfl⟩ := pureOk.mp step
      exact ⟨asked, by rw [values, same]⟩

theorem restoreSitesTracked {n : Snapshot} (h : s.Tracked lent []) (known : s.IsValue n.value)
    (ok : restoreSites n s = .ok () s') :
    s'.Tracked lent [] ∧ s'.values.size = s.values.size := by
  have asked := h.isLive n.value
  have values := isLiveValues s h.formed n.value
  simp only [restoreSites, live, modifyGetBind, getBind] at ok
  split at ok
  · refine forMKeeps (P := fun t => t.Tracked lent [] ∧ t.values.size = s.values.size) _
      (fun x _ t t' before step => ?_) ⟨asked, by rw [values]⟩ ok
    obtain ⟨tracked, same⟩ := before
    have there : t.IsValue n.value := by
      rw [IsValue, same]
      exact known
    obtain ⟨placed, size⟩ := placeAtTracked tracked there step
    exact ⟨placed, size.trans same⟩
  · obtain ⟨-, rfl⟩ := pureOk.mp ok
    exact ⟨asked, by rw [values]⟩

theorem restoreSnapshotsTracked {e : EventId} {snapshots : List Snapshot} (h : s.Tracked lent [])
    (whole : Whole s snapshots)
    (held : ∀ n ∈ snapshots, ¬ s.Live n.value → (s.restoreRings snapshots).Live n.value →
      s.Held n.value)
    (known : s.FrameKnown e) (ok : restoreSnapshots e snapshots s = .ok () s') :
    s'.Tracked lent [] := by
  have relinks : Relinks s (s.restoreRings snapshots) :=
    (scatterRelinks snapshots s).trans (gatherRelinks snapshots _)
  have known' : (s.restoreRings snapshots).FrameKnown e := by
    have rest : (s.restoreRings snapshots).frames = s.frames ∧
        (s.restoreRings snapshots).event e = s.event e := by
      rw [relinks.rest]
      exact ⟨rfl, rfl⟩
    intro v member
    rw [rest.1, rest.2] at member
    exact (relinks.isValue v).mpr (known v member)
  obtain ⟨vacated, keeps⟩ := vacateFrameTracked (h.restoreRings whole held) known'
  simp only [restoreSnapshots, modifyBind] at ok
  refine (forMKeeps (P := fun t => t.Tracked lent [] ∧ t.values.size = s.values.size) _
    (fun n member t t' before step => ?_) ⟨vacated, keeps.size.trans relinks.size⟩ ok).1
  obtain ⟨tracked, same⟩ := before
  have there : t.IsValue n.value := by
    rw [IsValue, same]
    exact whole.known n (List.mem_reverse.mp member)
  obtain ⟨restored, size⟩ := restoreSitesTracked tracked there step
  exact ⟨restored, size.trans same⟩

/-! All operations. -/

theorem operationsKeepCoherence (coherent : s.Coherent lent) :
    (∀ v i s', s.IsValue v → s.IsSite i → (∀ w, i ∈ (s.value w).sites → w = v) →
      place v i s = .ok () s' → s'.Coherent lent) ∧
    (∀ v i, (s.removeSite v i).Coherent lent) ∧
    (∀ v, s.IsValue v → (s.clearSites v).Coherent lent) ∧
    (∀ id thief s', evict id thief s = .ok () s' → s'.Coherent lent) ∧
    (∀ r strict reserve i s', s.IsValue (s.reads.value r) →
      relocate r strict reserve s = .ok i s' → s'.Coherent lent) ∧
    (∀ e v s', (s.Dormant v → s.Settled v) → consumeRead e v s = .ok () s' → s'.Coherent lent) ∧
    (∀ v copy, s.IsValue v → s.Fresh copy → (s.Live copy → s.Settled v) →
      (s.joinRing v copy).Coherent lent) ∧
    (∀ v, s.IsValue v → (s.isolate v).Coherent lent) ∧
    (∀ v popIndex, s.IsValue v → (s.cleanValue v popIndex).Coherent lent) ∧
    (∀ e j s', s.FrameKnown e → adoptTable e j s = .ok () s' → s'.Coherent lent) ∧
    (∀ e snapshots s', s.FrameKnown e → Whole s snapshots →
      (∀ n ∈ snapshots, ¬ s.Live n.value → (s.restoreRings snapshots).Live n.value →
        s.Held n.value) →
      restoreSnapshots e snapshots s = .ok () s' → s'.Coherent lent) ∧
    (∀ mask r s', acquireTemporary mask s = .ok r s' → s'.Coherent (r :: lent)) ∧
    ∀ r ∈ lent, (s.releaseTemporary r).Coherent (lent.erase r) := by
  have h := trackedIff.mpr coherent
  simp only [← trackedIff]
  refine ⟨?_, ?_, ?_, ?_, ?_, ?_, ?_, ?_, ?_, ?_, ?_, ?_, ?_⟩
  · exact fun v i s' value known own ok => (placeTracked h value known own ok).1
  · exact fun v i => h.removeSite v i
  · exact fun v known => h.clearSites known
  · exact fun id thief s' ok => evictTracked h ok
  · exact fun r strict reserve i s' value ok => relocateTracked h value ok
  · exact fun e v s' awake ok => consumeReadTracked h awake ok
  · exact fun v copy known fresh held =>
      h.joinRing known fresh.known fresh.alone fresh.bare held
  · exact fun v known => isolateTracked h known
  · exact fun v popIndex known => h.cleanValue known popIndex
  · exact fun e j s' known ok => adoptTableTracked h known ok
  · exact fun e snapshots s' known whole held ok => restoreSnapshotsTracked h whole held known ok
  · exact fun mask r s' ok => acquireTemporaryTracked h ok
  · exact fun r inside => releaseTemporaryTracked h inside

/-- Two values in registers, a register site that nobody has and a value that is nowhere. -/
def State.attended : State :=
  ((crossed.newSite (.ofRegister X64.rcx)).2.newValue .general).2

def State.attendedSnapshots : List Snapshot := [⟨⟨0⟩, ⟨0⟩, [.ofRegister X64.rdi]⟩]

theorem attendedStaysCoherent : attended.Coherent [] ∧
    (after (place ⟨0⟩ ⟨2⟩) attended).Coherent [] ∧
    (attended.removeSite ⟨0⟩ ⟨0⟩).Coherent [] ∧
    (attended.clearSites ⟨0⟩).Coherent [] ∧
    (after (evict (.register X64.rdi) none) attended).Coherent [] ∧
    (after (relocate ⟨0⟩ true 0) attended).Coherent [] ∧
    (after (consumeRead (some ⟨0⟩) ⟨0⟩) attended).Coherent [] ∧
    (attended.joinRing ⟨0⟩ ⟨2⟩).Coherent [] ∧
    (attended.isolate ⟨0⟩).Coherent [] ∧
    (attended.cleanValue ⟨0⟩ 0).Coherent [] ∧
    (after (adoptTable ⟨0⟩ ⟨0⟩) attended).Coherent [] ∧
    (after (restoreSnapshots ⟨0⟩ attendedSnapshots) attended).Coherent [] ∧
    ∃ r s', acquireTemporary RegisterSet.all attended = .ok r s' ∧ s'.Coherent [r] ∧
      (s'.releaseTemporary r).Coherent [] := by
  have coherent : attended.Coherent [] := by decide +kernel
  have known : attended.IsValue ⟨0⟩ := by decide +kernel
  have alive : attended.Live ⟨0⟩ := by decide +kernel
  have frame : attended.FrameKnown ⟨0⟩ :=
    show ∀ v ∈ attended.frames.values (attended.event ⟨0⟩).stackBefore
      (attended.event ⟨0⟩).localsBefore, attended.IsValue v by decide +kernel
  have fresh : attended.Fresh ⟨2⟩ := ⟨by decide +kernel, by decide +kernel, by decide +kernel⟩
  have dead : ¬ attended.Live ⟨2⟩ := by decide +kernel
  have unlisted : ∀ k < attended.values.size, ⟨2⟩ ∉ (attended.value ⟨k⟩).sites := by decide +kernel
  have whole : Whole attended attendedSnapshots :=
    ⟨by decide +kernel, by decide +kernel, by decide +kernel⟩
  have held : ∀ n ∈ attendedSnapshots, ¬ attended.Live n.value →
      (attended.restoreRings attendedSnapshots).Live n.value → attended.Held n.value := by
    intro n member dead
    rw [List.mem_singleton.mp member] at dead
    exact absurd alive dead
  obtain ⟨placed, removed, cleared, evicted, relocated, consumed, joined, isolated, cleaned, adopted,
    restored, lent, -⟩ := operationsKeepCoherence coherent
  obtain ⟨⟨⟩, s₁, ok₁⟩ : Succeeds (place ⟨0⟩ ⟨2⟩) attended := by decide +kernel
  obtain ⟨⟨⟩, s₂, ok₂⟩ : Succeeds (evict (.register X64.rdi) none) attended := by decide +kernel
  obtain ⟨i, s₃, ok₃⟩ : Succeeds (relocate ⟨0⟩ true 0) attended := by decide +kernel
  obtain ⟨⟨⟩, s₄, ok₄⟩ : Succeeds (consumeRead (some ⟨0⟩) ⟨0⟩) attended := by decide +kernel
  obtain ⟨⟨⟩, s₅, ok₅⟩ : Succeeds (adoptTable ⟨0⟩ ⟨0⟩) attended := by decide +kernel
  obtain ⟨⟨⟩, s₆, ok₆⟩ : Succeeds (restoreSnapshots ⟨0⟩ attendedSnapshots) attended := by
    decide +kernel
  obtain ⟨r, s₇, ok₇⟩ : Succeeds (acquireTemporary RegisterSet.all) attended := by
    decide +kernel
  have loan := lent _ r s₇ ok₇
  have returned := (operationsKeepCoherence loan).2.2.2.2.2.2.2.2.2.2.2.2 r List.mem_cons_self
  rw [List.erase_cons_head] at returned
  rw [afterOk ok₁, afterOk ok₂, afterOk ok₃, afterOk ok₄, afterOk ok₅, afterOk ok₆]
  refine ⟨coherent, ?_, removed _ _, cleared _ known, evicted _ _ s₂ ok₂,
    relocated ⟨0⟩ _ _ i s₃ known ok₃, ?_, ?_, isolated _ known, cleaned _ _ known,
    adopted _ _ s₅ frame ok₅, restored _ _ s₆ frame whole held ok₆, r, s₇, ok₇, loan, returned⟩
  · refine placed _ _ s₁ known (by decide +kernel) (fun w listed => ?_) ok₁
    exact absurd listed (unlisted w.index (attended.isValueOfSites listed))
  · exact consumed _ _ s₄ (fun dormant => absurd alive dormant.1) ok₄
  · exact joined _ _ known fresh fun alive => absurd alive dead

def sharing : Build Unit := do
  discard (modifyGet (·.newValueAt .general (.ofRegister X64.rdi)))
  discard (modifyGet (·.newValue .general))
  linkRead none ⟨1⟩ (← probe ⟨1⟩ .any)
  place ⟨1⟩ ⟨0⟩

/-- A value that is recorded nowhere has a read behind a stub that has become invalid. Another one
that is nowhere is read. -/
def resting : Build Unit := do
  discard (modifyGet (·.newValueAt .general (.ofRegister X64.rdi)))
  discard (modifyGet (·.newValue .general))
  let stub ← modifyGet fun s => ((s.reads.stub ⟨0⟩).1, { s with reads := (s.reads.stub ⟨0⟩).2 })
  linkRead none ⟨0⟩ stub
  linkRead none ⟨0⟩ (← probe ⟨0⟩ .any)
  linkRead none ⟨1⟩ (← probe ⟨1⟩ .any)
  modify fun s => { s with reads := s.reads.invalidateStub stub }

def State.unstarted : State := (State.empty (X64.describe {}) {} (.recording {})).start 1 0 0 4

def State.shared : State := after sharing unstarted

def State.rested : State := after resting unstarted

def State.restedSnapshots : List Snapshot := [⟨⟨0⟩, ⟨1⟩, []⟩, ⟨⟨1⟩, ⟨0⟩, []⟩]

/- Clearing the sites of the one takes the register from the other; and who comes to life is not
recorded. -/
theorem sharedIsForgotten :
    (shared.WellFormed ∧ shared.Owned ∧ shared.Taken ∧ shared.Counted [] ∧
      ¬ (shared.clearSites ⟨0⟩).Owned) ∧
    rested.Coherent [] ∧
    (Succeeds (consumeRead none ⟨0⟩) rested ∧ ¬ (after (consumeRead none ⟨0⟩) rested).Owned) ∧
    ¬ (rested.joinRing ⟨0⟩ ⟨1⟩).Owned ∧
    Succeeds (restoreSnapshots ⟨0⟩ restedSnapshots) rested ∧
    ¬ (after (restoreSnapshots ⟨0⟩ restedSnapshots) rested).Owned := by
  decide +kernel

end Lowering
