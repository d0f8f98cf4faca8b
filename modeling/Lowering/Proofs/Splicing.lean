import Lowering.Proofs.Ownership
import Lowering.Snapshot
/-!
Values that enter and leave rings.

A value that leaves its ring is stepped over by its predecessor. A value that joins is put between
the original and its predecessor. The rings of a snapshot are put together from values that have
left all others. In each case the steps of the new rings are told by those of the old.
-/
namespace Lowering.State

open Function

variable {s s' t : State} {v w copy : ValueId} {lent : List Register} {due : List Owner}

structure Relinks (s s' : State) : Prop where
  rest : s' = { s with values := s'.values }
  size : s'.values.size = s.values.size
  value : ∀ w, s'.value w = { s.value w with next := (s'.value w).next }

namespace Relinks

theorem refl (s : State) : Relinks s s := ⟨rfl, rfl, fun _ => rfl⟩

theorem trans (first : Relinks s t) (second : Relinks t s') : Relinks s s' := by
  refine ⟨?_, second.size.trans first.size, fun w => ?_⟩
  · have a := first.rest
    have b := second.rest
    rw [a] at b
    exact b
  · rw [second.value w, first.value w]

theorem modify (s : State) (v next : ValueId) :
    Relinks s (s.modifyValue v fun d => { d with next }) := by
  refine ⟨rfl, by simp, fun w => ?_⟩
  rw [valueModify]
  split
  · rename_i here
    rw [here.1]
  · rfl

theorem isValue (h : Relinks s s') (w : ValueId) : s'.IsValue w ↔ s.IsValue w := by
  rw [IsValue, IsValue, h.size]

theorem sites (h : Relinks s s') (w : ValueId) : (s'.value w).sites = (s.value w).sites := by
  rw [h.value w]

theorem head (h : Relinks s s') (w : ValueId) : (s'.value w).reads = (s.value w).reads := by
  rw [h.value w]

theorem unmoved (h : Relinks s s') : Unmoved s s' := by
  refine ⟨h.size, h.sites, ?_, ?_, ?_, ?_, ?_, ?_⟩
  · rw [h.rest]
  · intro i _
    rw [h.rest]
    rfl
  · rw [h.rest]
  · rw [h.rest]
    exact .refl _
  · rw [h.rest]
    exact fun _ => rfl
  · rw [h.rest]
    exact fun _ => rfl

theorem wellFormed (h : Relinks s s') (formed : s.WellFormed) (rings : s'.Permutes) :
    s'.WellFormed := by
  refine ⟨rings, fun v i listed => ?_, ?_, fun v r chain => ?_, ?_⟩
  · rw [h.sites] at listed
    rw [h.rest]
    exact formed.listed v i listed
  · rw [h.rest]
    exact formed.reads
  · rw [h.head] at chain
    rw [h.rest]
    exact formed.heads v r chain
  · rw [h.rest]
    exact formed.frame

theorem tracked (h : Relinks s s') (before : s.Tracked lent due) (rings : s'.Permutes)
    (held : ∀ v, s.IsValue v → s'.Live v → ¬ s.Live v → s.Held v) : s'.Tracked lent due := by
  refine h.unmoved.tracked before (h.wellFormed before.formed rings) held fun r _ _ => ?_
  rw [h.rest]

theorem live (h : Relinks s s') (formed : s.WellFormed) (rings : s'.Permutes)
    (met : ∀ m ∈ s'.ring v, m ∈ s.ring v) (alive : s'.Live v) : s.Live v := by
  rw [liveIff (h.wellFormed formed rings)] at alive
  obtain ⟨m, member, r, chain, pending⟩ := alive
  rw [h.head] at chain
  refine (liveIff formed v).mpr ⟨m, met m member, r, chain, ?_⟩
  have reads : s'.reads = s.reads := by rw [h.rest]
  rwa [reads] at pending

end Relinks

theorem permutesOfFollow (inside : ∀ v, s.IsValue v → s.IsValue (s.follow v))
    (injective : Injective s.follow) : s.Permutes := by
  refine ⟨fun v known => ?_, fun v w first second same => injective ?_⟩
  · have there := inside v known
    rwa [followKnown known] at there
  · rw [followKnown first, followKnown second, same]

theorem isValueFollow (permutes : s.Permutes) (known : s.IsValue v) : s.IsValue (s.follow v) := by
  rw [followKnown known]
  exact permutes.known v known

/-! The predecessor of a value. -/

theorem beforeFromSpec (fuel : Nat) :
    ∀ n, n < minimalPeriod s.follow v → minimalPeriod s.follow v ≤ n + 1 + fuel →
      (∀ m, n ≤ m → m < minimalPeriod s.follow v →
        (t.value (s.follow^[m] v)).next = s.follow^[m + 1] v) →
      t.beforeFrom v fuel (s.follow^[n] v) = s.follow^[minimalPeriod s.follow v - 1] v := by
  induction fuel with
  | zero =>
    intro n less enough _
    rw [beforeFrom, show n = minimalPeriod s.follow v - 1 by omega]
  | succ fuel ih =>
    intro n less enough same
    rw [beforeFrom, same n le_rfl less]
    by_cases last : n + 1 = minimalPeriod s.follow v
    · have back : s.follow^[n + 1] v = v := by
        rw [last]
        exact iterate_minimalPeriod
      rw [back, if_pos (by simp)]
      rw [← last]
      rfl
    · have away : s.follow^[n + 1] v ≠ v := by
        intro back
        have period : IsPeriodicPt s.follow (n + 1) v := back
        have least := period.minimalPeriod_le (Nat.succ_pos n)
        omega
      rw [if_neg (by simpa using away)]
      exact ih (n + 1) (by omega) (by omega) fun m above => same m (by omega)

noncomputable def previous (s : State) (v : ValueId) : ValueId :=
  s.follow^[minimalPeriod s.follow v - 1] v

theorem followPrevious (permutes : s.Permutes) (known : s.IsValue v) :
    s.follow (s.previous v) = v := by
  have pos := periodPos permutes known
  have step : s.follow (s.previous v) = s.follow^[minimalPeriod s.follow v - 1 + 1] v :=
    (iterate_succ_apply' s.follow _ v).symm
  rw [step, Nat.sub_add_cancel pos]
  exact iterate_minimalPeriod

theorem isValuePrevious (permutes : s.Permutes) (known : s.IsValue v) :
    s.IsValue (s.previous v) :=
  isValueIterate permutes known _

theorem followModify (s : State) (v next : ValueId) (w : ValueId) :
    (s.modifyValue v fun d => { d with next }).follow w =
      if w = v ∧ s.IsValue v then next else s.follow w := by
  have known : (s.modifyValue v fun d => { d with next }).IsValue w ↔ s.IsValue w := by
    simp [IsValue]
  unfold follow
  rw [valueModify]
  by_cases same : w = v
  · subst same
    by_cases there : s.IsValue w <;> simp [known, there]
  · simp [same, known]

/-! Leaving a ring. -/

theorem leaveRingRelinks (s : State) (v : ValueId) : Relinks s (s.leaveRing v).2 := by
  unfold leaveRing
  dsimp only
  split
  · exact .refl s
  · exact (Relinks.modify s v v).trans (.modify _ _ _)

theorem followLeave (permutes : s.Permutes) (known : s.IsValue v) (w : ValueId) :
    (s.leaveRing v).2.follow w =
      if w = v then v else if s.follow w = v then s.follow v else s.follow w := by
  unfold leaveRing
  dsimp only
  rw [← followKnown known]
  by_cases alone : s.follow v = v
  · simp only [alone, beq_self_eq_true, if_true]
    by_cases same : w = v
    · rw [if_pos same, same, alone]
    · rw [if_neg same, if_neg]
      exact fun back => same (followInjective permutes (back.trans alone.symm))
  · have short : minimalPeriod s.follow v ≠ 1 := fun one =>
      alone (minimalPeriod_eq_one_iff_isFixedPt.mp one)
    have pos := periodPos permutes known
    have found : (s.modifyValue v fun d => { d with next := v }).beforeFrom v
        (s.modifyValue v fun d => { d with next := v }).values.size (s.follow v) =
          s.previous v := by
      refine beforeFromSpec _ 1 (by omega) ?_ fun m above below => ?_
      · have bound := periodLe permutes known
        simp only [sizeModifyValue]
        omega
      · have there := isValueIterate permutes known m
        rw [valueModify, if_neg, ← followKnown there]
        · exact (iterate_succ_apply' s.follow m v).symm
        · rintro ⟨back, -⟩
          have period : IsPeriodicPt s.follow m v := back
          have least := period.minimalPeriod_le (by omega)
          omega
    rw [if_neg (by simpa using alone), found, followModify, followModify]
    have before := followPrevious permutes known
    have there := isValuePrevious permutes known
    have there' : (s.modifyValue v fun d => { d with next := v }).IsValue (s.previous v) := by
      simpa [IsValue] using there
    by_cases same : w = v
    · have apart : v ≠ s.previous v := by
        intro self
        rw [← self] at before
        exact alone before
      simp [same, known, apart]
    · by_cases last : w = s.previous v
      · rw [if_pos ⟨last, there'⟩, if_neg same, last, before, if_pos rfl]
      · have other : s.follow w ≠ v := fun back =>
          last (followInjective permutes (back.trans before.symm))
        simp [same, last, other]

theorem permutesLeave (permutes : s.Permutes) (known : s.IsValue v) :
    (s.leaveRing v).2.Permutes := by
  have step := followLeave permutes known
  refine permutesOfFollow (fun w there => ?_) fun w w' same => ?_
  · rw [(s.leaveRingRelinks v).isValue] at there ⊢
    rw [step]
    split
    · exact known
    · split
      · exact isValueFollow permutes known
      · exact isValueFollow permutes there
  · rw [step, step] at same
    have injective := followInjective permutes
    by_cases first : w = v
    · by_cases second : w' = v
      · rw [first, second]
      · rw [if_pos first, if_neg second] at same
        split at same
        · rename_i back
          exact absurd (injective (back.trans same)) second
        · rename_i away
          exact absurd same.symm away
    · by_cases second : w' = v
      · rw [if_neg first, if_pos second] at same
        split at same
        · rename_i back
          exact absurd (injective (back.trans same.symm)) first
        · rename_i away
          exact absurd same away
      · rw [if_neg first, if_neg second] at same
        split at same
        · rename_i back
          split at same
          · rename_i back'
            exact injective (back.trans back'.symm)
          · exact absurd (injective same).symm second
        · split at same
          · exact absurd (injective same) first
          · exact injective same

theorem metLeave (permutes : s.Permutes) (known : s.IsValue v) (there : s.IsValue w) :
    ∀ m ∈ (s.leaveRing v).2.ring w, m ∈ s.ring w := by
  intro m member
  have there' := ((s.leaveRingRelinks v).isValue w).mpr there
  rw [memRing (permutesLeave permutes known) there'] at member
  rw [memRing permutes there]
  obtain ⟨n, rfl⟩ := member
  induction n with
  | zero => exact .refl w
  | succ n ih =>
    obtain ⟨k, same⟩ := ih
    rw [iterate_succ_apply', followLeave permutes known, ← same]
    split
    · rename_i here
      exact ⟨k, here⟩
    · split
      · rename_i back
        refine ⟨k + 2, ?_⟩
        rw [iterate_succ_apply', iterate_succ_apply', back]
      · exact ⟨k + 1, iterate_succ_apply' _ _ _⟩

theorem Tracked.leaveRing (h : s.Tracked lent due) (known : s.IsValue v) :
    (s.leaveRing v).2.Tracked lent due := by
  have rings := h.formed.rings
  have permutes := permutesLeave rings known
  have relinks := s.leaveRingRelinks v
  refine relinks.tracked h permutes fun w there alive dead => ?_
  exact absurd (relinks.live h.formed permutes (metLeave rings known there) alive) dead

/-! Joining a ring. -/

theorem joinRingRelinks (s : State) (v copy : ValueId) : Relinks s (s.joinRing v copy) :=
  (Relinks.modify s copy v).trans (.modify _ _ _)

theorem followJoin (permutes : s.Permutes) (known : s.IsValue v) (there : s.IsValue copy)
    (alone : s.follow copy = copy) (w : ValueId) :
    (s.joinRing v copy).follow w =
      if w = copy then v else if s.follow w = v then copy else s.follow w := by
  have injective := followInjective permutes
  have pos := periodPos permutes known
  unfold joinRing
  dsimp only
  by_cases same : v = copy
  · subst same
    have found : ∀ fuel, (s.modifyValue v fun d => { d with next := v }).beforeFrom v fuel v = v := by
      intro fuel
      cases fuel with
      | zero => rfl
      | succ fuel => simp [beforeFrom, valueModify, known]
    rw [found, followModify, followModify]
    by_cases here : w = v
    · simp [here, known]
    · have away : s.follow w ≠ v := fun back => here (injective (back.trans alone.symm))
      simp [here, away]
  · have apart : ∀ m, s.follow^[m] v ≠ copy := by
      intro m met
      have back := Aliases.symm permutes known ⟨m, met⟩
      obtain ⟨n, back⟩ := back
      rw [iterate_fixed alone] at back
      exact same back.symm
    have found : (s.modifyValue copy fun d => { d with next := v }).beforeFrom v
        (s.modifyValue copy fun d => { d with next := v }).values.size v = s.previous v := by
      refine beforeFromSpec _ 0 pos ?_ fun m _ below => ?_
      · have bound := periodLe permutes known
        simp only [sizeModifyValue]
        omega
      · have met := isValueIterate permutes known m
        rw [valueModify, if_neg fun here => apart m here.1, ← followKnown met]
        exact (iterate_succ_apply' s.follow m v).symm
    have before := followPrevious permutes known
    have there' : (s.modifyValue copy fun d => { d with next := v }).IsValue (s.previous v) := by
      simpa [IsValue] using isValuePrevious permutes known
    rw [found, followModify, followModify]
    have other : s.previous v ≠ copy := apart _
    by_cases here : w = copy
    · simp [here, there, Ne.symm other]
    · by_cases last : w = s.previous v
      · rw [if_pos ⟨last, there'⟩, if_neg here, last, before, if_pos rfl]
      · have away : s.follow w ≠ v := fun back => last (injective (back.trans before.symm))
        simp [here, last, away]

theorem permutesJoin (permutes : s.Permutes) (known : s.IsValue v) (there : s.IsValue copy)
    (alone : s.follow copy = copy) : (s.joinRing v copy).Permutes := by
  have step := followJoin permutes known there alone
  have injective := followInjective permutes
  refine permutesOfFollow (fun w inside => ?_) fun w w' same => ?_
  · rw [(s.joinRingRelinks v copy).isValue] at inside ⊢
    rw [step]
    split
    · exact known
    · split
      · exact there
      · exact isValueFollow permutes inside
  · rw [step, step] at same
    by_cases first : w = copy
    · by_cases second : w' = copy
      · rw [first, second]
      · rw [if_pos first, if_neg second] at same
        split at same
        · rename_i back
          exact absurd (injective (back.trans (same.trans alone.symm))) second
        · rename_i away
          exact absurd same.symm away
    · by_cases second : w' = copy
      · rw [if_neg first, if_pos second] at same
        split at same
        · rename_i back
          exact absurd (injective (back.trans (same.symm.trans alone.symm))) first
        · rename_i away
          exact absurd same away
      · rw [if_neg first, if_neg second] at same
        split at same
        · rename_i back
          split at same
          · rename_i back'
            exact injective (back.trans back'.symm)
          · exact absurd (injective (same.symm.trans alone.symm)) second
        · split at same
          · exact absurd (injective (same.trans alone.symm)) first
          · exact injective same

theorem metJoin (permutes : s.Permutes) (known : s.IsValue v) (there : s.IsValue copy)
    (alone : s.follow copy = copy) (inside : s.IsValue w) (other : w ≠ copy) :
    ∀ m ∈ (s.joinRing v copy).ring w, m ∈ s.ring w ∨ (m = copy ∧ v ∈ s.ring w) := by
  intro m member
  have inside' := ((s.joinRingRelinks v copy).isValue w).mpr inside
  rw [memRing (permutesJoin permutes known there alone) inside'] at member
  simp only [memRing permutes inside]
  obtain ⟨n, rfl⟩ := member
  induction n with
  | zero => exact .inl (.refl w)
  | succ n ih =>
    rw [iterate_succ_apply', followJoin permutes known there alone]
    rcases ih with ⟨k, same⟩ | ⟨here, met⟩
    · rw [← same]
      split
      · rename_i here
        obtain ⟨back, same⟩ := Aliases.symm permutes inside ⟨k, here⟩
        rw [iterate_fixed alone] at same
        exact absurd same.symm other
      · split
        · rename_i back
          exact .inr ⟨rfl, k + 1, (iterate_succ_apply' _ _ _).trans back⟩
        · exact .inl ⟨k + 1, iterate_succ_apply' _ _ _⟩
    · rw [if_pos here]
      exact .inl met

theorem Tracked.joinRing (h : s.Tracked lent due) (known : s.IsValue v) (there : s.IsValue copy)
    (alone : (s.value copy).next = copy) (bare : (s.value copy).sites = [])
    (held : s.Live copy → ∀ m ∈ s.ring v, s.Held m) : (s.joinRing v copy).Tracked lent due := by
  have rings := h.formed.rings
  have fixed : s.follow copy = copy := (followKnown there).trans alone
  have permutes := permutesJoin rings known there fixed
  have relinks := s.joinRingRelinks v copy
  refine relinks.tracked h permutes fun w inside alive dead => ?_
  by_cases other : w = copy
  · intro i listed
    rw [other, bare] at listed
    cases listed
  rw [liveIff (relinks.wellFormed h.formed permutes)] at alive
  obtain ⟨m, member, r, chain, pending⟩ := alive
  rw [relinks.head] at chain
  have reads : (s.joinRing v copy).reads = s.reads := by rw [relinks.rest]
  rw [reads] at pending
  rcases metJoin rings known there fixed inside other m member with met | ⟨rfl, met⟩
  · exact absurd ((liveIff h.formed w).mpr ⟨m, met, r, chain, pending⟩) dead
  · have alive := (liveIff h.formed m).mpr ⟨m, selfMemRing s m, r, chain, pending⟩
    exact held alive w (memRingSymm rings inside met)

/-! The rings of a snapshot. -/

structure Whole (s : State) (snapshots : List Snapshot) : Prop where
  known : ∀ n ∈ snapshots, s.IsValue n.value
  closed : ∀ n ∈ snapshots, ∃ m ∈ snapshots, m.value = n.next
  single : ∀ n ∈ snapshots, ∀ m ∈ snapshots, n.value = m.value ↔ n.next = m.next

variable {snapshots : List Snapshot}

def scatter (s : State) (snapshots : List Snapshot) : State :=
  snapshots.foldl (fun s n => (s.leaveRing n.value).2) s

def gather (s : State) (snapshots : List Snapshot) : State :=
  snapshots.foldl (fun s n => s.modifyValue n.value fun d => { d with next := n.next }) s

theorem restoreRingsEq (s : State) (snapshots : List Snapshot) :
    s.restoreRings snapshots = (s.scatter snapshots).gather snapshots := rfl

theorem scatterRelinks (snapshots : List Snapshot) :
    ∀ s : State, Relinks s (s.scatter snapshots) := by
  induction snapshots with
  | nil => exact Relinks.refl
  | cons n rest ih => exact fun s => (s.leaveRingRelinks n.value).trans (ih _)

theorem gatherRelinks (snapshots : List Snapshot) :
    ∀ s : State, Relinks s (s.gather snapshots) := by
  induction snapshots with
  | nil => exact Relinks.refl
  | cons n rest ih => exact fun s => (Relinks.modify s n.value n.next).trans (ih _)

theorem scatterAlone (snapshots : List Snapshot) : ∀ {s : State}, s.Permutes →
    (∀ n ∈ snapshots, s.IsValue n.value) →
    ∀ w, s.follow w = w ∨ (∃ n ∈ snapshots, n.value = w) → (s.scatter snapshots).follow w = w := by
  induction snapshots with
  | nil => exact fun _ _ w alone => alone.resolve_right (by simp)
  | cons n rest ih =>
    intro s permutes known w alone
    have first := known n List.mem_cons_self
    have step := followLeave permutes first w
    refine ih (permutesLeave permutes first) (fun m member => ?_) w ?_
    · exact ((s.leaveRingRelinks _).isValue _).mpr (known m (List.mem_cons_of_mem _ member))
    · by_cases here : w = n.value
      · rw [if_pos here] at step
        exact .inl (step.trans here.symm)
      · rcases alone with alone | ⟨m, member, same⟩
        · rw [if_neg here, alone, if_neg here] at step
          exact .inl step
        · rcases List.mem_cons.mp member with rfl | member
          · exact absurd same.symm here
          · exact .inr ⟨m, member, same⟩

theorem Tracked.scatter (snapshots : List Snapshot) : ∀ {s : State}, s.Tracked lent due →
    (∀ n ∈ snapshots, s.IsValue n.value) → (s.scatter snapshots).Tracked lent due := by
  induction snapshots with
  | nil => exact fun h _ => h
  | cons n rest ih =>
    intro s h known
    refine ih (h.leaveRing (known n List.mem_cons_self)) fun m member => ?_
    exact ((s.leaveRingRelinks _).isValue _).mpr (known m (List.mem_cons_of_mem _ member))

theorem followGather (snapshots : List Snapshot) : ∀ {s : State},
    (∀ n ∈ snapshots, s.IsValue n.value) → ∀ w,
    (∃ n ∈ snapshots, n.value = w ∧ (s.gather snapshots).follow w = n.next) ∨
      (∀ n ∈ snapshots, n.value ≠ w) ∧ (s.gather snapshots).follow w = s.follow w := by
  induction snapshots with
  | nil => exact fun _ _ => .inr ⟨by simp, rfl⟩
  | cons n rest ih =>
    intro s known w
    have step := s.followModify n.value n.next w
    have known' : ∀ m ∈ rest,
        (s.modifyValue n.value fun d => { d with next := n.next }).IsValue m.value :=
      fun m member => ((Relinks.modify s _ _).isValue _).mpr
        (known m (List.mem_cons_of_mem _ member))
    rcases ih known' w with ⟨m, member, same, follow⟩ | ⟨others, follow⟩
    · exact .inl ⟨m, List.mem_cons_of_mem _ member, same, follow⟩
    · by_cases here : w = n.value
      · rw [if_pos ⟨here, known n List.mem_cons_self⟩] at step
        exact .inl ⟨n, List.mem_cons_self, here.symm, follow.trans step⟩
      · rw [if_neg fun both => here both.1] at step
        refine .inr ⟨fun m member => ?_, follow.trans step⟩
        rcases List.mem_cons.mp member with rfl | member
        · exact Ne.symm here
        · exact others m member

section

variable (permutes : s.Permutes) (whole : Whole s snapshots)
  (alone : ∀ n ∈ snapshots, s.follow n.value = n.value)
include permutes whole alone

theorem permutesGather : (s.gather snapshots).Permutes := by
  have injective := followInjective permutes
  have step := followGather snapshots whole.known
  -- no step of another value leads to a value of the snapshots
  have apart : ∀ n ∈ snapshots, ∀ w, (∀ m ∈ snapshots, m.value ≠ w) → s.follow w ≠ n.next := by
    intro n member w outside same
    obtain ⟨m, inside, next⟩ := whole.closed n member
    refine outside m inside (injective ?_)
    rw [alone m inside, same, next]
  refine permutesOfFollow (fun w there => ?_) fun w w' same => ?_
  · rw [(gatherRelinks snapshots s).isValue] at there ⊢
    rcases step w with ⟨n, member, -, follow⟩ | ⟨-, follow⟩
    · obtain ⟨m, inside, next⟩ := whole.closed n member
      rw [follow, ← next]
      exact whole.known m inside
    · rw [follow]
      exact isValueFollow permutes there
  · rcases step w with ⟨n, member, value, follow⟩ | ⟨outside, follow⟩
    · rcases step w' with ⟨m, member', value', follow'⟩ | ⟨outside', follow'⟩
      · rw [follow, follow'] at same
        rw [← value, ← value']
        exact (whole.single n member m member').mpr same
      · rw [follow, follow'] at same
        exact absurd same.symm (apart n member w' outside')
    · rcases step w' with ⟨m, member', value', follow'⟩ | ⟨outside', follow'⟩
      · rw [follow, follow'] at same
        exact absurd same (apart m member' w outside)
      · rw [follow, follow'] at same
        exact injective same

theorem metGather (there : s.IsValue w) (outside : ∀ n ∈ snapshots, n.value ≠ w) :
    ∀ m ∈ (s.gather snapshots).ring w, m ∈ s.ring w := by
  intro m member
  have there' := ((gatherRelinks snapshots s).isValue w).mpr there
  rw [memRing (permutesGather permutes whole alone) there'] at member
  rw [memRing permutes there]
  obtain ⟨k, rfl⟩ := member
  suffices same : (s.gather snapshots).follow^[k] w = s.follow^[k] w ∧
      ∀ n ∈ snapshots, n.value ≠ s.follow^[k] w from ⟨k, same.1.symm⟩
  induction k with
  | zero => exact ⟨rfl, outside⟩
  | succ k ih =>
    obtain ⟨same, out⟩ := ih
    rw [iterate_succ_apply', iterate_succ_apply', same]
    constructor
    · rcases followGather snapshots whole.known (s.follow^[k] w) with ⟨n, inside, here, -⟩ | ⟨-, follow⟩
      · exact absurd here (out n inside)
      · exact follow
    · intro n inside back
      refine out n inside (followInjective permutes ?_)
      rw [alone n inside, back]

end

theorem Tracked.restoreRings (h : s.Tracked lent due) (whole : Whole s snapshots)
    (held : ∀ n ∈ snapshots, ¬ s.Live n.value → (s.restoreRings snapshots).Live n.value →
      s.Held n.value) :
    (s.restoreRings snapshots).Tracked lent due := by
  have scattered := scatterRelinks snapshots s
  have relinks := gatherRelinks snapshots (s.scatter snapshots)
  have before := h.scatter snapshots whole.known
  have rings := before.formed.rings
  have whole' : Whole (s.scatter snapshots) snapshots :=
    ⟨fun n member => (scattered.isValue _).mpr (whole.known n member), whole.closed, whole.single⟩
  have alone := fun n member =>
    scatterAlone snapshots h.formed.rings whole.known n.value (.inr ⟨n, member, rfl⟩)
  have permutes := permutesGather rings whole' alone
  rw [restoreRingsEq] at held ⊢
  refine relinks.tracked before permutes fun w there alive dead => ?_
  by_cases inside : ∃ n ∈ snapshots, n.value = w
  · obtain ⟨n, member, rfl⟩ := inside
    have recorded : s.Held n.value := by
      by_cases lived : s.Live n.value
      · exact fun i listed id => h.held n.value i id lived listed
      · exact held n member lived alive
    intro i listed id names has free
    have unmoved := scattered.unmoved
    rw [scattered.sites] at listed
    rw [unmoved.resource (h.formed.listed _ i listed)] at names
    rw [unmoved.shape.has] at has
    rw [unmoved.free] at free
    rw [unmoved.owner]
    exact recorded i listed id names has free
  · have outside : ∀ n ∈ snapshots, n.value ≠ w := fun n member same => inside ⟨n, member, same⟩
    have met := metGather rings whole' alone there outside
    exact absurd (relinks.live before.formed permutes met alive) dead

end Lowering.State
