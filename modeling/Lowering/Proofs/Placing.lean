import Lowering.X64.Layout
import Lowering.Proofs.Decoding
import Lowering.Proofs.Outcome
/-!
Where instructions end up.

Every pass over the code gives each slot a form that its instruction has, and the address behind the slot before it.
So however many passes there are, a slot takes as many bytes as its size says, and the slots lie end to end.
-/
namespace Lowering.X64

open Results

variable {s : Slot} {slots : List Slot} {labels : LabelMap} {n : Nat}

/-! Offsets. -/

def offset (slots : List Slot) (n : Nat) : Nat := ((slots.take n).map Slot.size).sum

theorem offsetSucc (here : slots[n]? = some s) : offset slots (n + 1) = offset slots n + s.size := by
  simp [offset, List.take_add_one, here]

theorem offsetSet {m : Nat} (before : m ≤ n) : offset (slots.set n s) m = offset slots m := by
  rw [offset, offset, List.take_set_of_le before]

theorem offsetPieces {pieces : List (List UInt8)} (sizes : slots.map Slot.size = pieces.map List.length) (n : Nat) :
    offset slots n = ((pieces.take n).flatten).length := by
  rw [offset, List.map_take, sizes, ← List.map_take, List.length_flatten]

/-! Forms. -/

def Slot.Fits (s : Slot) : Prop :=
  match s.instruction with
  | .jumpIf _ _ | .jump _ => s.size = shortSize ∨ s.size = nearSize s.instruction
  | .call _ | .lea _ _ => s.size = nearSize s.instruction
  | i => ∀ {bytes}, i.encode = .ok bytes → bytes.length = s.size

theorem fitsBytes {target : Nat} {bytes : List UInt8} (fits : s.Fits) (ok : s.bytes target = .ok bytes) :
    bytes.length = s.size := by
  obtain ⟨i, size, address, settled⟩ := s
  cases i with
  | jumpIf c l | jump l =>
    cases ok
    rcases fits with short | near
    · cases short
      simp [shortSize, littleEndianLength]
    · cases near
      simp [shortSize, littleEndianLength]
  | call l | lea r l =>
    cases fits
    cases ok
    simp [littleEndianLength]
  | _ => exact fits ok

def Slot.Ready (s : Slot) : Prop := s.instruction.label? = none ∨ s.settled = true → s.Fits

theorem startsReady {i : Instruction} {bytes : List UInt8} (ok : i.encode = .ok bytes) (address : Nat) :
    Slot.Ready ⟨i, startingSize i bytes, address, false⟩ := by
  intro final
  cases i with
  | jumpIf c l | jump l | call l | lea r l => rcases final with labelled | settled <;> contradiction
  | _ =>
    intro bytes' ok'
    cases ok.symm.trans ok'
    rfl

theorem chooseInstruction (s : Slot) (address gained target : Nat) :
    (choose s address gained target).instruction = s.instruction := by
  unfold choose
  grind

theorem chooseAddress (s : Slot) (address gained target : Nat) :
    (choose s address gained target).address = address := by
  unfold choose
  grind

theorem chooseFits (ready : s.Ready) (address gained target : Nat) : (choose s address gained target).Fits := by
  obtain ⟨i, size, old, settled⟩ := s
  cases i with
  | jumpIf c l | jump l =>
    simp only [choose]
    split
    · rename_i final
      exact ready (.inr final)
    · split
      · split
        · exact .inl rfl
        · exact .inr rfl
      · split
        · exact .inl rfl
        · exact .inr rfl
  | call l | lea r l => exact rfl
  | _ => exact ready (.inl rfl)

/-! Passes. -/

/-- The slots are those of the code, and those before an index have their forms and lie end to end. -/
structure Placed (code : List Instruction) (slots : List Slot) (n : Nat) : Prop where
  instructions : slots.map Slot.instruction = code
  ready : ∀ s ∈ slots, s.Ready
  fits : ∀ {i s}, i < n → slots[i]? = some s → s.Fits
  address : ∀ {i s}, i < n → slots[i]? = some s → s.address = offset slots i

variable {code : List Instruction} {p : Pass}

theorem Placed.start (instructions : slots.map Slot.instruction = code) (ready : ∀ s ∈ slots, s.Ready) :
    Placed code slots 0 :=
  ⟨instructions, ready, fun before => absurd before (Nat.not_lt_zero _), fun before => absurd before (Nat.not_lt_zero _)⟩

theorem Placed.set {t : Slot} (placed : Placed code slots n) (here : slots[n]? = some s)
    (same : t.instruction = s.instruction) (fits : t.Fits) (address : t.address = offset slots n) :
    Placed code (slots.set n t) (n + 1) := by
  have inside := (List.getElem?_eq_some_iff.mp here).1
  have each {i : Nat} {u : Slot} (before : i < n + 1) (at_ : (slots.set n t)[i]? = some u) :
      i = n ∧ u = t ∨ i < n ∧ slots[i]? = some u := by
    rw [List.getElem?_set] at at_
    split at at_
    · rename_i last
      exact .inl ⟨last.symm, (Option.some.inj at_).symm⟩
    · exact .inr ⟨by omega, at_⟩
  refine ⟨?_, fun u member => ?_, fun before at_ => ?_, fun {i u} before at_ => ?_⟩
  · rw [List.map_set, same, ← placed.instructions]
    refine List.ext_getElem? fun i => ?_
    rw [List.getElem?_set]
    split
    · rename_i last
      rw [← last, List.getElem?_map, here, if_pos (by rwa [List.length_map])]
      rfl
    · rfl
  · rcases List.mem_or_eq_of_mem_set member with old | rfl
    · exact placed.ready u old
    · exact fun _ => fits
  · rcases each before at_ with ⟨-, rfl⟩ | ⟨earlier, old⟩
    · exact fits
    · exact placed.fits earlier old
  · rw [offsetSet (Nat.le_of_lt_succ before)]
    rcases each before at_ with ⟨rfl, rfl⟩ | ⟨earlier, old⟩
    · exact address
    · exact placed.address earlier old

def Pass.made (labels : LabelMap) (p : Pass) (n : Nat) (s : Slot) : Slot :=
  let moved := { p with slots := p.slots.modify n fun s => { s with address := p.position } }
  choose s p.position p.gained (moved.targetAddress labels s.instruction)

theorem stepSlots (labels : LabelMap) (here : p.slots.toList[n]? = some s) :
    (p.step labels n).slots.toList = p.slots.toList.set n (p.made labels n s) ∧
      (p.step labels n).position = p.position + (p.made labels n s).size := by
  have old : p.slots.getD n default = s := by
    rw [Array.getD_eq_getD_getElem?, ← Array.getElem?_toList, here, Option.getD_some]
  unfold Pass.step
  rw [old]
  refine ⟨?_, rfl⟩
  refine List.ext_getElem? fun i => ?_
  simp only [Array.toList_modify, List.getElem?_modify, List.getElem?_set]
  split
  · rename_i same
    cases same
    rw [here]
    have inside := (List.getElem?_eq_some_iff.mp here).1
    rw [if_pos inside]
    rfl
  · cases p.slots.toList[i]? <;> rfl

theorem stepPlaces (labels : LabelMap) (inside : n < code.length) (placed : Placed code p.slots.toList n)
    (position : p.position = offset p.slots.toList n) :
    Placed code (p.step labels n).slots.toList (n + 1) ∧
      (p.step labels n).position = offset (p.step labels n).slots.toList (n + 1) := by
  rw [← placed.instructions, List.length_map] at inside
  obtain ⟨s, here⟩ : ∃ s, p.slots.toList[n]? = some s := ⟨_, List.getElem?_eq_getElem inside⟩
  obtain ⟨slots, moved⟩ := stepSlots labels here
  have ready := placed.ready s (List.mem_of_getElem? here)
  have last : (p.slots.toList.set n (p.made labels n s))[n]? = some (p.made labels n s) := by
    rw [List.getElem?_set_self inside]
  rw [slots, moved]
  refine ⟨placed.set here (chooseInstruction ..) (chooseFits ready ..) ?_, ?_⟩
  · exact (chooseAddress ..).trans position
  · rw [offsetSucc last, offsetSet (Nat.le_refl n), position]

theorem passPlaces (labels : LabelMap) {slots : Array Slot} (start : Placed code slots.toList 0) :
    Placed code (onePass labels slots).1.toList code.length := by
  have reached (n : Nat) (inside : n ≤ code.length) :
      let p := (List.range n).foldl (Pass.step labels) { slots }
      Placed code p.slots.toList n ∧ p.position = offset p.slots.toList n := by
    induction n with
    | zero => exact ⟨start, rfl⟩
    | succ n ih =>
      obtain ⟨placed, position⟩ := ih (Nat.le_of_succ_le inside)
      rw [List.range_succ, List.foldl_append]
      exact stepPlaces labels inside placed position
  have length : slots.size = code.length := by
    rw [← start.instructions, List.length_map, Array.length_toList]
  unfold onePass
  rw [length]
  exact (reached code.length (Nat.le_refl _)).1

def Laid (code : List Instruction) (slots : List Slot) : Prop := Placed code slots code.length

theorem Laid.formed (laid : Laid code slots) (member : s ∈ slots) : s.Fits := by
  obtain ⟨i, here⟩ := List.mem_iff_getElem?.mp member
  refine laid.fits ?_ here
  rw [← laid.instructions, List.length_map]
  exact (List.getElem?_eq_some_iff.mp here).1

theorem relaxKeepsLaid (labels : LabelMap) (n : Nat) {slots : Array Slot} (laid : Laid code slots.toList) :
    Laid code (relax labels n slots).toList := by
  induction n generalizing slots with
  | zero => exact laid
  | succ n ih =>
    have once := passPlaces labels (.start laid.instructions laid.ready)
    unfold relax
    dsimp only
    split
    · exact ih once
    · exact once

theorem relaxLays (labels : LabelMap) (n : Nat) {slots : Array Slot} (start : Placed code slots.toList 0) :
    Laid code (relax labels (n + 1) slots).toList := by
  have once := passPlaces labels start
  unfold relax
  dsimp only
  split
  · exact relaxKeepsLaid labels n once
  · exact once

/-- A slot that no pass came to: the instruction is encoded, and has as many bytes as it may come to need. -/
def Starts (i : Instruction) (s : Slot) : Prop :=
  ∃ bytes address, i.encode = .ok bytes ∧ s = ⟨i, startingSize i bytes, address, false⟩

theorem startsPlaced {rows : List Slot} (starts : List.Forall₂ Starts code rows) : Placed code rows 0 := by
  have each : rows.map Slot.instruction = code ∧ ∀ s ∈ rows, s.Ready := by
    induction starts with
    | nil => exact ⟨rfl, List.forall_mem_nil _⟩
    | @cons i _ _ _ first _ ih =>
      obtain ⟨bytes, address, ok, rfl⟩ := first
      exact ⟨congrArg (List.cons i) ih.1, List.forall_mem_cons.mpr ⟨startsReady ok address, ih.2⟩⟩
  exact .start each.1 each.2

theorem assignStarts {rows : List Slot} (starts : List.Forall₂ Starts code rows) :
    List.Forall₂ Starts code (assignAddresses rows) := by
  have assigned (acc : List Slot) (n : Nat) : ∃ later, List.Forall₂ Starts code later ∧
      (rows.foldl (fun (acc : List Slot × Nat) s =>
        ({ s with address := acc.2 } :: acc.1, acc.2 + s.size)) (acc, n)).1.reverse = acc.reverse ++ later := by
    induction starts generalizing acc n with
    | nil => exact ⟨[], .nil, (List.append_nil _).symm⟩
    | @cons i s code rows first _ ih =>
      obtain ⟨later, kept, done⟩ := ih ({ s with address := n } :: acc) (n + s.size)
      obtain ⟨bytes, address, ok, rfl⟩ := first
      refine ⟨_, .cons ⟨bytes, n, ok, rfl⟩ kept, ?_⟩
      rw [List.foldl_cons, done, List.reverse_cons, List.append_assoc, List.singleton_append]
  obtain ⟨later, kept, done⟩ := assigned [] 0
  have same : assignAddresses rows = later := done
  exact same ▸ kept

theorem layoutLays (ok : layout labels code = .ok slots) : Laid code slots := by
  obtain ⟨rows, encoded, done⟩ := bindOk ok
  cases done
  have starts : List.Forall₂ Starts code rows := (mapMOk encoded).imp fun i s ok => by
    obtain ⟨bytes, here, same⟩ := bindOk ok
    cases same
    exact ⟨bytes, 0, here, rfl⟩
  exact relaxLays labels 4 (startsPlaced (assignStarts starts))

/-! Bytes. -/

theorem laidAddress {targets : Slot → Nat} {pieces : List (List UInt8)} (laid : Laid code slots)
    (ok : slots.mapM (fun s => s.bytes (targets s)) = .ok pieces) {i : Nat} (inside : i < code.length) :
    (slots.toArray.getD i default).address = ((pieces.take i).flatten).length := by
  have within : i < slots.length := by
    rwa [← laid.instructions, List.length_map] at inside
  have there := List.getElem?_eq_getElem within
  have sizes : slots.map Slot.size = pieces.map List.length := by
    have each : List.Forall₂ (fun s piece => s ∈ slots ∧ s.bytes (targets s) = .ok piece) slots pieces :=
      (List.forall₂_and_left ..).mpr ⟨fun s member => member, mapMOk ok⟩
    rw [← List.forall₂_eq_eq_eq, List.forall₂_map_left_iff, List.forall₂_map_right_iff]
    exact each.imp fun s piece ⟨member, ok⟩ => (fitsBytes (laid.formed member) ok).symm
  rw [← offsetPieces sizes, ← laid.address inside there, Array.getD_eq_getD_getElem?, List.getElem?_toArray, there,
    Option.getD_some]

end Lowering.X64
