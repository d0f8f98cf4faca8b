import Lowering.Aliases
import Lowering.Proofs.Tables
import Lowering.Proofs.Pending
import Mathlib.Dynamics.PeriodicPts.Defs
import Mathlib.Data.Finset.Card
/-!
Rings of aliases as orbits.

As long as every value has exactly one predecessor, the ring of a value is its orbit under the
step to the next alias, walked once around. Being an alias is then an equivalence.
-/
namespace Lowering.State

open Function

variable {s s' : State} {v w : ValueId}

def follow (s : State) (v : ValueId) : ValueId := if s.IsValue v then (s.value v).next else v

structure Permutes (s : State) : Prop where
  known : ∀ v, s.IsValue v → s.IsValue (s.value v).next
  injective : ∀ v w, s.IsValue v → s.IsValue w → (s.value v).next = (s.value w).next → v = w

theorem permutesCongr (size : s'.values.size = s.values.size)
    (next : ∀ u, (s'.value u).next = (s.value u).next) (p : s.Permutes) : s'.Permutes := by
  constructor
  · intro v known
    rw [IsValue, size] at known
    rw [IsValue, next, size]
    exact p.known v known
  · intro v w hv hw same
    rw [IsValue, size] at hv hw
    rw [next, next] at same
    exact p.injective v w hv hw same

def Aliases (s : State) (v w : ValueId) : Prop := ∃ n, s.follow^[n] v = w

theorem followKnown (known : s.IsValue v) : s.follow v = (s.value v).next := if_pos known

theorem followInjective (p : s.Permutes) : Injective s.follow := by
  intro v w same
  unfold follow at same
  split at same
  · rename_i hv
    split at same
    · rename_i hw
      exact p.injective v w hv hw same
    · rename_i hw
      exact absurd (same ▸ p.known v hv) hw
  · rename_i hv
    split at same
    · rename_i hw
      exact absurd (same ▸ p.known w hw) hv
    · exact same

theorem isValueIterate (p : s.Permutes) (known : s.IsValue v) (n : Nat) :
    s.IsValue (s.follow^[n] v) := by
  induction n with
  | zero => exact known
  | succ n ih =>
    rw [iterate_succ_apply', followKnown ih]
    exact p.known _ ih

theorem returns (p : s.Permutes) (known : s.IsValue v) :
    ∃ n, 0 < n ∧ n ≤ s.values.size ∧ IsPeriodicPt s.follow n v := by
  have maps : ∀ n ∈ Finset.range (s.values.size + 1),
      (s.follow^[n] v).index ∈ Finset.range s.values.size := fun n _ =>
    Finset.mem_range.mpr (isValueIterate p known n)
  obtain ⟨a, inA, b, inB, apart, same⟩ :=
    Finset.exists_ne_map_eq_of_card_lt_of_maps_to (by simp) maps
  have same' : s.follow^[a] v = s.follow^[b] v := by
    cases ha : s.follow^[a] v
    cases hb : s.follow^[b] v
    simp_all
  simp only [Finset.mem_range] at inA inB
  rcases Nat.lt_or_gt_of_ne apart with less | less
  · refine ⟨b - a, by omega, by omega, ?_⟩
    have cancel := (followInjective p).iterate a
    apply cancel
    rw [← iterate_add_apply, Nat.add_sub_cancel' less.le, same']
  · refine ⟨a - b, by omega, by omega, ?_⟩
    have cancel := (followInjective p).iterate b
    apply cancel
    rw [← iterate_add_apply, Nat.add_sub_cancel' less.le, same']

theorem periodPos (p : s.Permutes) (known : s.IsValue v) : 0 < minimalPeriod s.follow v := by
  obtain ⟨n, pos, -, periodic⟩ := returns p known
  exact periodic.minimalPeriod_pos pos

theorem periodLe (p : s.Permutes) (known : s.IsValue v) :
    minimalPeriod s.follow v ≤ s.values.size := by
  obtain ⟨n, pos, bound, periodic⟩ := returns p known
  exact (periodic.minimalPeriod_le pos).trans bound

theorem ringFromIterate (p : s.Permutes) (known : s.IsValue v) (fuel : Nat) :
    ∀ n, 0 < n → n ≤ minimalPeriod s.follow v → minimalPeriod s.follow v ≤ n + fuel →
      s.ringFrom v fuel (s.follow^[n] v) =
        (List.range' n (minimalPeriod s.follow v - n)).map (s.follow^[·] v) := by
  induction fuel with
  | zero =>
    intro n _ le ge
    have : minimalPeriod s.follow v - n = 0 := by omega
    simp [ringFrom, this]
  | succ fuel ih =>
    intro n pos le ge
    rcases Nat.lt_or_ge n (minimalPeriod s.follow v) with less | full
    · have apart : s.follow^[n] v ≠ v :=
        not_isPeriodicPt_of_pos_of_lt_minimalPeriod (Nat.pos_iff_ne_zero.mp pos) less
      have rest := ih (n + 1) (by omega) (by omega) (by omega)
      have here : (s.value (s.follow^[n] v)).next = s.follow^[n + 1] v := by
        rw [iterate_succ_apply', followKnown (isValueIterate p known n)]
      obtain ⟨k, eq⟩ : ∃ k, minimalPeriod s.follow v - n = k + 1 :=
        ⟨minimalPeriod s.follow v - n - 1, by omega⟩
      have eq' : minimalPeriod s.follow v - (n + 1) = k := by omega
      rw [eq'] at rest
      rw [eq, List.range'_succ, List.map_cons, ringFrom, if_neg (by simpa using apart), here, rest]
    · have round : n = minimalPeriod s.follow v := by omega
      have back : s.follow^[n] v = v := by rw [round]; exact iterate_minimalPeriod
      simp [ringFrom, round, iterate_minimalPeriod]

theorem ringEq (p : s.Permutes) (known : s.IsValue v) :
    s.ring v = (List.range (minimalPeriod s.follow v)).map (s.follow^[·] v) := by
  have pos := periodPos p known
  have walk := ringFromIterate p known s.values.size 1 Nat.one_pos pos
    (by have := periodLe p known; omega)
  obtain ⟨k, eq⟩ : ∃ k, minimalPeriod s.follow v = k + 1 :=
    ⟨minimalPeriod s.follow v - 1, by omega⟩
  simp only [iterate_one, followKnown known] at walk
  rw [ring, walk, eq]
  simp [List.range_eq_range', List.range'_succ]

theorem memRing (p : s.Permutes) (known : s.IsValue v) : w ∈ s.ring v ↔ s.Aliases v w := by
  rw [ringEq p known, List.mem_map]
  constructor
  · rintro ⟨n, -, same⟩
    exact ⟨n, same⟩
  · rintro ⟨n, rfl⟩
    refine ⟨n % minimalPeriod s.follow v, ?_, iterate_mod_minimalPeriod_eq⟩
    exact List.mem_range.mpr (Nat.mod_lt _ (periodPos p known))

theorem nodupRing (p : s.Permutes) (known : s.IsValue v) : (s.ring v).Nodup := by
  rw [ringEq p known]
  refine List.Nodup.map_on ?_ List.nodup_range
  intro a inA b inB same
  exact iterate_injOn_Iio_minimalPeriod (List.mem_range.mp inA) (List.mem_range.mp inB) same

namespace Aliases

theorem refl (v : ValueId) : s.Aliases v v := ⟨0, rfl⟩

theorem trans {u : ValueId} (first : s.Aliases v w) (second : s.Aliases w u) : s.Aliases v u := by
  obtain ⟨a, rfl⟩ := first
  obtain ⟨b, rfl⟩ := second
  exact ⟨b + a, iterate_add_apply _ _ _ _⟩

theorem isValue (p : s.Permutes) (known : s.IsValue v) (h : s.Aliases v w) : s.IsValue w := by
  obtain ⟨n, rfl⟩ := h
  exact isValueIterate p known n

theorem symm (p : s.Permutes) (known : s.IsValue v) (h : s.Aliases v w) : s.Aliases w v := by
  obtain ⟨n, rfl⟩ := h
  have pos := periodPos p known
  refine ⟨minimalPeriod s.follow v - n % minimalPeriod s.follow v, ?_⟩
  have less := Nat.mod_lt n pos
  rw [← iterate_mod_minimalPeriod_eq (n := n), ← iterate_add_apply, Nat.sub_add_cancel less.le]
  exact iterate_minimalPeriod

end Aliases

theorem selfMemRing (s : State) (v : ValueId) : v ∈ s.ring v := List.mem_cons_self

theorem memRingSymm (p : s.Permutes) (known : s.IsValue v) (h : w ∈ s.ring v) : v ∈ s.ring w := by
  have met := (memRing p known).mp h
  exact (memRing p (met.isValue p known)).mpr (met.symm p known)

theorem memRingTrans (p : s.Permutes) {u : ValueId} (known : s.IsValue v) (first : w ∈ s.ring v)
    (second : u ∈ s.ring w) : u ∈ s.ring v := by
  have met := (memRing p known).mp first
  exact (memRing p known).mpr (met.trans ((memRing p (met.isValue p known)).mp second))

theorem isValueOfRing (p : s.Permutes) (known : s.IsValue v) (h : w ∈ s.ring v) : s.IsValue w :=
  ((memRing p known).mp h).isValue p known

theorem areAliasesIff (v w : ValueId) : s.areAliases v w = true ↔ w ∈ s.ring v := by
  simp only [areAliases, Bool.or_eq_true, beq_iff_eq, List.contains_iff_mem, ring, List.mem_cons]
  constructor
  · rintro (rfl | h)
    · exact .inl rfl
    · exact h
  · exact .inr

theorem ringCongr (size : s'.values.size = s.values.size)
    (next : ∀ u, (s'.value u).next = (s.value u).next) (v : ValueId) : s'.ring v = s.ring v := by
  have walk : ∀ fuel p, s'.ringFrom v fuel p = s.ringFrom v fuel p := by
    intro fuel
    induction fuel with
    | zero => intro p; rfl
    | succ fuel ih => intro p; simp [ringFrom, next, ih]
  simp [ring, walk, size, next]

theorem ringAlone (alone : (s.value v).next = v) : s.ring v = [v] := by
  unfold ring
  rw [alone]
  cases s.values.size <;> simp [ringFrom]

end Lowering.State
