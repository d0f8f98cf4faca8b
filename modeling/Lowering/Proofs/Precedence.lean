import Lowering.Sample
import Lowering.Proofs.Settling
import Lowering.Proofs.Merging
/-!
The path that is compiled first decides where values meet.

Whoever commits a slot of a table first has the say: no event that is compiled later changes the
entry. The order in which the paths of a branch are described is the order in which they are
compiled, so it shows in the tables, and in nothing but the entries that the paths would have
made differently.
-/
namespace Lowering

open State Build

variable {s s' t : State} {c c' : Commitment} {e : EventId} {α β : Type}

structure State.Upholds (s s' : State) : Prop where
  tables : s.junctions.size ≤ s'.junctions.size
  lengths : ∀ j : JunctionId, j.index < s.junctions.size →
    (s'.junction j).length = (s.junction j).length
  entries : ∀ j k x, s.tableEntry j k = some x → s'.tableEntry j k = some x

namespace State.Upholds

theorem refl (s : State) : s.Upholds s := ⟨le_rfl, fun _ _ => rfl, fun _ _ _ => id⟩

theorem trans (first : s.Upholds t) (second : t.Upholds s') : s.Upholds s' := by
  refine ⟨first.tables.trans second.tables, fun j inside => ?_, fun j k x entry => ?_⟩
  · rw [second.lengths j (inside.trans_le first.tables), first.lengths j inside]
  · exact second.entries j k x (first.entries j k x entry)

instance : Std.Refl Upholds := ⟨refl⟩

instance : Trans Upholds Upholds Upholds := ⟨trans⟩

theorem ofJunctions (same : s'.junctions = s.junctions) : s.Upholds s' := by
  refine ⟨by rw [same], fun j _ => ?_, fun j k x entry => ?_⟩
  · simp only [junction, same]
  · simpa only [tableEntry, junction, same] using entry

theorem ofFixed (fixed : s.Fixed s') : s.Upholds s' := ofJunctions fixed.junctions

end State.Upholds

abbrev Build.Upholds (act : Build α) : Prop := Within State.Upholds act

theorem Build.Within.upholds {act : Build α} (leaves : act.Leaves) : act.Upholds :=
  leaves.mono .ofFixed

/-! A new table leaves the others as they are. -/

structure Commitment.Continues (c c' : Commitment) : Prop where
  length : c'.table.length = c.table.length
  kept : ∀ (k : Nat) x, c.table[k]?.join = some x → c'.table[k]?.join = some x

theorem Commitment.Continues.refl (c : Commitment) : c.Continues c := ⟨rfl, fun _ _ => id⟩

theorem Commitment.Continues.trans {d : Commitment} (first : c.Continues d)
    (second : d.Continues c') : c.Continues c' :=
  ⟨second.length.trans first.length, fun k x entry => second.kept k x (first.kept k x entry)⟩

namespace Compile

def upTo (handler : Option Int) (limitOffset n : Nat) : Build Unit := do
  prologue handler limitOffset
  let s ← get
  ((eventsFrom s s.events.size s.firstEvent).take n).forM one

end Compile

inductive Side where
  | taken
  | other
  deriving DecidableEq, Repr

/-- A branch whose paths meet again: what comes before, ended by the branch, the two paths, and
what comes after. Each part has an instruction, and so has the jump from the other path. -/
structure Diamond (α : Type) where
  head : Build α
  taken : α → Build Unit
  takenAt : Nat
  other : α → Build Unit
  otherAt : Nat
  jumpAt : Nat
  join : α → Build Unit
  joinAt : Nat

namespace Diamond

/-- Describes the method, one of the paths first. The meeting point is described after that path
and visited from the other one. -/
def build (d : Diamond α) (first : Side) : Build Unit := do
  let x ← d.head
  let state ← Method.saveState
  match first with
  | .taken =>
    Method.startInstruction d.takenAt
    d.taken x
    Method.startInstruction d.joinAt
    d.join x
    Method.restoreState state
    Method.startInstruction d.otherAt
    d.other x
    Method.startInstruction d.jumpAt
    Method.jump (← Sample.codeAddress d.joinAt)
    Method.visitInstruction d.joinAt
  | .other =>
    Method.startInstruction d.otherAt
    d.other x
    Method.startInstruction d.jumpAt
    Method.jump (← Sample.codeAddress d.joinAt)
    Method.startInstruction d.joinAt
    d.join x
    Method.restoreState state
    Method.startInstruction d.takenAt
    d.taken x
    Method.visitInstruction d.joinAt

def compile (d : Diamond α) (handler : Option Int) (limitOffset : Nat) (first : Side) :
    Build Unit := do
  d.build first
  Compile.method handler limitOffset

end Diamond

def State.blank : State := .empty (X64.describe {}) {} (.recording {})

end Lowering
