import Lowering.Proofs.Selecting
import Mathlib.Tactic.IntervalCases
/-!
The table of a log without subroutines, read at a return offset.

Such a table lists the return offsets in ascending order and beside each the slots of one map that lie
below the arguments of the call. Maps of any width stand one behind the other, across the words they are
packed in, and each is read as it was reported. At an offset that no trace returns to there is no map.
-/
namespace Lowering

theorem sortedIndexListed {xs : List Int32} {x : Int32} {i : Nat} (found : sortedIndex? xs x = some i) :
    xs[i]? = some x := by
  simp only [sortedIndex?] at found
  split at found
  · rename_i here
    cases found
    exact here
  · cases found

namespace RootLog

variable {l : RootLog} {offset : PromiseId → Except Error Int32} {placed : List PlacedTrace}
  {promises : PromiseTable} {base : Int} {α β : Type}

theorem filterMapMSucceeds {f : α → Except Error (Option β)} {xs : List α}
    (each : ∀ x ∈ xs, ∃ y, f x = .ok y) : ∃ ys, xs.filterMapM f = .ok ys := by
  induction xs with
  | nil => exact ⟨[], rfl⟩
  | cons x rest ih =>
    obtain ⟨y, here⟩ := each x List.mem_cons_self
    obtain ⟨ys, after⟩ := ih fun x member => each x (List.mem_cons_of_mem _ member)
    rw [List.filterMapM_cons, here]
    cases y with
    | none => exact ⟨ys, after⟩
    | some y => exact ⟨y :: ys, by simp only [bind, Except.bind, after]; rfl⟩

def Resolves (l : RootLog) (offset : PromiseId → Except Error Int32) : Prop :=
  ∀ t ∈ l.traces, ∀ p argument, t.address = some (p, argument) → ∃ o, offset p = .ok o

theorem placedSucceeds (resolves : l.Resolves offset) : ∃ placed, l.placedTraces offset = .ok placed := by
  have each : ∀ t ∈ l.traces.toList, ∃ y, place offset t = .ok y := by
    intro t member
    cases address : t.address with
    | none => exact ⟨none, by simp only [place, address]⟩
    | some a =>
      obtain ⟨o, resolved⟩ := resolves t (Array.mem_toList_iff.mp member) a.1 a.2 address
      exact ⟨some ⟨o, a.2, t⟩, by simp only [place, address, resolved]; rfl⟩
  obtain ⟨raw, found⟩ := filterMapMSucceeds each
  exact ⟨raw.mergeSort fun a b => a.offset ≤ b.offset, by
    show (l.traces.toList.filterMapM (place offset) >>= _) = _
    rw [found]; rfl⟩

theorem placedOwn (ok : l.placedTraces offset = .ok placed) {u : PlacedTrace} (member : u ∈ placed) :
    u.trace ∈ l.traces ∧ ∃ p, u.trace.address = some (p, u.argument) ∧ offset p = .ok u.offset := by
  obtain ⟨raw, found, rfl⟩ := placedFrom ok
  obtain ⟨t, inside, from'⟩ := someFilterMapM found u (List.mem_mergeSort.mp member)
  obtain ⟨p, address, resolved, rfl⟩ := placeOk from'
  exact ⟨Array.mem_toList_iff.mp inside, p, address, resolved⟩

def flat (l : RootLog) (placed : List PlacedTrace) : FlatTable :=
  { mapSize := UInt32.ofNat l.mapSize
    offsets := placed.map (·.offset)
    bits := packBits (placed.flatMap fun t => reportedBits t.trace.map l.mapSize t.argument) }

theorem tableFlat (pathless : ∀ t ∈ l.traces, t.paths = [])
    (ok : l.placedTraces (codeOffset promises base) = .ok placed) :
    l.table promises base = .ok (.flat (l.flat placed)) := by
  have all : placed.all (·.trace.paths.isEmpty) = true := by
    rw [List.all_eq_true]
    intro u member
    rw [pathless u.trace (placedOwn ok member).1]
    rfl
  show (l.placedTraces (codeOffset promises base) >>= _) = _
  rw [ok]
  show (if _ then _ else _) = _
  rw [all]
  rfl

theorem flatRoots (narrow : l.mapSize < 2 ^ 32) (ascending : (placed.map (·.offset)).Pairwise (· < ·))
    {u : PlacedTrace} (member : u ∈ placed) (stack : Nat → Option Int32) :
    (FrameMapTable.flat (l.flat placed)).roots u.offset stack =
      some (reportedBits u.trace.map l.mapSize u.argument) := by
  obtain ⟨i, here⟩ := List.mem_iff_getElem?.mp member
  have position : sortedIndex? (placed.map (·.offset)) u.offset = some i :=
    sortedIndexFinds ascending (by rw [List.getElem?_map, here]; rfl)
  have size : (UInt32.ofNat l.mapSize).toNat = l.mapSize := UInt32.toNat_ofNat_of_lt' narrow
  let maps := placed.map fun t => reportedBits t.trace.map l.mapSize t.argument
  have equal : ∀ m ∈ maps, m.length = l.mapSize := fun m inside => by
    obtain ⟨t, -, rfl⟩ := List.mem_map.mp inside
    exact reportedLength ..
  have listed : maps[i]? = some (reportedBits u.trace.map l.mapSize u.argument) := by
    rw [List.getElem?_map, here]
    rfl
  have block := unpackBlock equal listed
  simp only [FrameMapTable.roots, flat, position, size, List.flatMap_def]
  exact congrArg some block

theorem flatRootless {o : Int32} (absent : ∀ u ∈ placed, u.offset ≠ o) (stack : Nat → Option Int32) :
    (FrameMapTable.flat (l.flat placed)).roots o stack = none := by
  have missing : sortedIndex? (placed.map (·.offset)) o = none := by
    cases found : sortedIndex? (placed.map (·.offset)) o with
    | none => rfl
    | some i =>
      obtain ⟨u, member, same⟩ := List.mem_map.mp (List.mem_of_getElem? (sortedIndexListed found))
      exact absurd same (absent u member)
  simp only [FrameMapTable.roots, flat, missing]
  rfl

/- A flat table gives the map of each trace at its offset, and nothing elsewhere. -/
theorem flatTablesReport (pathless : ∀ t ∈ l.traces, t.paths = [])
    (resolves : l.Resolves (codeOffset promises base))
    (distinct : l.DistinctTraces (codeOffset promises base))
    (fits : l.traces.size * l.mapSize < 2 ^ 32) :
    ∃ table : FlatTable, l.table promises base = .ok (.flat table) ∧
      table.offsets.Pairwise (· < ·) ∧
      (∀ t ∈ l.traces, ∀ p argument o stack, t.address = some (p, argument) →
        codeOffset promises base p = .ok o → (FrameMapTable.flat table).roots o stack =
          some ((List.range l.mapSize).map fun j => decide (j < argument) && t.map.has j)) ∧
      ∀ o stack, (∀ t ∈ l.traces, ∀ p argument, t.address = some (p, argument) →
        codeOffset promises base p ≠ .ok o) → (FrameMapTable.flat table).roots o stack = none := by
  obtain ⟨placed, ok⟩ := placedSucceeds resolves
  have ascending := placedAscends distinct ok
  refine ⟨l.flat placed, tableFlat pathless ok, ascending, ?_, ?_⟩
  · intro t member p argument o stack address resolved
    obtain ⟨i, inside, rfl⟩ := traceListed (Array.mem_toList_iff.mpr member)
    have narrow : l.mapSize < 2 ^ 32 :=
      (Nat.le_mul_of_pos_left _ (Nat.zero_lt_of_lt inside)).trans_lt fits
    exact flatRoots narrow ascending (placedMember ok inside address resolved) stack
  · intro o stack absent
    refine flatRootless (fun u member same => ?_) stack
    obtain ⟨inside, p, address, resolved⟩ := placedOwn ok member
    exact absent u.trace inside p u.argument address (same ▸ resolved)

/-- Two traces whose maps are no whole words, the later one laid out first. -/
def crossing : RootLog :=
  let late := (((RootLog.new 2 20).reach 0).add (.mark 0)).add (.mark 19) |>.trace 0
  let early := ((late.2.reach 1).add (.clear 0)).add (.mark 2) |>.trace 1
  ((early.2.attach late.1 ⟨0⟩ 20).attach early.1 ⟨1⟩ 19 |>.solve {}).2

def crossingAddresses : PromiseTable := ⟨[4160, 4112].map fun v => ⟨.resolved v, some v, []⟩⟩

theorem crossingTraces : crossing.mapSize = 20 ∧ crossing.traces.size = 2 ∧
    crossing.traces.toList.all (·.paths.isEmpty) = true ∧
    [0, 1].map (fun k => (crossing.traceAt ⟨k⟩).address) = [some (⟨0⟩, 20), some (⟨1⟩, 19)] ∧
    [0, 1].map (fun k => codeOffset crossingAddresses 4096 ⟨k⟩) = [.ok 64, .ok 16] := by
  decide

/- The map at the higher offset starts in one word and ends in the next one. -/
theorem crossingReports : ∃ table : FlatTable, crossing.table crossingAddresses 4096 = .ok (.flat table) ∧
    table.offsets.Pairwise (· < ·) ∧
    (FrameMapTable.flat table).roots 16 (fun _ => none) =
      some ((List.range 20).map fun j => j == 2) ∧
    (FrameMapTable.flat table).roots 64 (fun _ => none) =
      some ((List.range 20).map fun j => j == 0 || j == 19) ∧
    (FrameMapTable.flat table).roots 32 (fun _ => none) = none := by
  obtain ⟨size, count, pathless, addresses, offsets⟩ := crossingTraces
  simp only [List.map_cons, List.map_nil, List.cons.injEq, and_true] at addresses offsets
  have known : ∀ {k : TraceId}, k.index < crossing.traces.size → k = ⟨0⟩ ∨ k = ⟨1⟩ := by
    rintro ⟨k⟩ inside
    rw [count] at inside
    dsimp only at inside
    interval_cases k
    · exact .inl rfl
    · exact .inr rfl
  have offset : ∀ t ∈ crossing.traces, ∀ p argument, t.address = some (p, argument) →
      codeOffset crossingAddresses 4096 p = .ok 64 ∨ codeOffset crossingAddresses 4096 p = .ok 16 := by
    intro t member p argument address
    obtain ⟨i, inside, rfl⟩ := traceListed (Array.mem_toList_iff.mpr member)
    obtain rfl | rfl := known inside
    · cases address.symm.trans addresses.1
      exact .inl offsets.1
    · cases address.symm.trans addresses.2
      exact .inr offsets.2
  have listed : ∀ k < 2, crossing.traceAt ⟨k⟩ ∈ crossing.traces := fun k small => by
    rw [traceAt, Array.getD_eq_getD_getElem?, Array.getElem?_eq_getElem (count ▸ small)]
    exact Array.getElem_mem _
  have bare : ∀ t ∈ crossing.traces, t.paths = [] := fun t member =>
    List.isEmpty_iff.mp (List.all_eq_true.mp pathless t (Array.mem_toList_iff.mpr member))
  have resolves : crossing.Resolves (codeOffset crossingAddresses 4096) := fun t member p argument address =>
    (offset t member p argument address).elim (fun here => ⟨64, here⟩) fun here => ⟨16, here⟩
  have distinct : crossing.DistinctTraces (codeOffset crossingAddresses 4096) := by
    intro t u p q g h o inside inside' first second resolved resolved'
    obtain rfl | rfl := known inside <;> obtain rfl | rfl := known inside'
    · rfl
    · cases first.symm.trans addresses.1
      cases second.symm.trans addresses.2
      cases resolved.symm.trans offsets.1
      cases resolved'.symm.trans offsets.2
    · cases first.symm.trans addresses.2
      cases second.symm.trans addresses.1
      cases resolved.symm.trans offsets.2
      cases resolved'.symm.trans offsets.1
    · rfl
  obtain ⟨table, built, ascending, reports, silent⟩ := flatTablesReport bare resolves distinct (by
    rw [count, size]
    decide)
  refine ⟨table, built, ascending, ?_, ?_, ?_⟩
  · rw [reports _ (listed 1 (by decide)) _ _ 16 (fun _ => none) addresses.2 offsets.2, size]
    decide
  · rw [reports _ (listed 0 (by decide)) _ _ 64 (fun _ => none) addresses.1 offsets.1, size]
    decide
  · refine silent 32 (fun _ => none) fun t member p argument address same => ?_
    rcases offset t member p argument address with here | here
    · cases here.symm.trans same
    · cases here.symm.trans same

end RootLog

end Lowering
