import Lowering.X64.Encoding
/-!
Laying instructions out.

Jumps to labels have a short and a near form. The layout starts from sizes no form exceeds and
goes over the code a few times. In each pass every instruction takes its place after the one
before it, and a jump whose target is close takes the short form for good. Targets further down
still stand where the last pass left them, so the bytes gained before them in this pass count in
favour of the jump.
-/
namespace Lowering.X64

structure Slot where
  instruction : Instruction
  size : Nat
  address : Nat := 0
  settled : Bool := false
  deriving Repr

instance : Inhabited Slot := ⟨⟨default, 0, 0, false⟩⟩

def startingSize : Instruction → List UInt8 → Nat
  | .jumpIf _ _, _ => 8
  | .jump _, _ => 6
  | .call _, _ => 6
  | .lea _ _, _ => 8
  | _, bytes => bytes.length

def shortSize : Nat := 2

def nearSize : Instruction → Nat
  | .jumpIf _ _ => 6
  | .jump _ => 5
  | .call _ => 5
  | _ => 7

def hopeless (distance : Int) : Bool := distance < 15 * -128 || distance > 15 * 127

abbrev LabelMap := Array (Option Nat)

def LabelMap.position (m : LabelMap) (l : Label) : Nat := (m.getD l none).getD 0

/-- The form of the slot at `address`, when `gained` bytes have been saved before it in this
pass and its target stands at `target`. -/
def choose (s : Slot) (address gained target : Nat) : Slot :=
  let s := { s with address }
  match s.instruction with
  | .call _ | .lea _ _ => { s with size := nearSize s.instruction }
  | .jump _ | .jumpIf _ _ =>
    if s.settled then s
    else
      let ahead : Int := target - (address + shortSize : Nat)
      let distance := if ahead ≥ 0 then ahead - gained else ahead
      if fitsSigned 8 distance then { s with size := shortSize, settled := true }
      else { s with size := nearSize s.instruction, settled := hopeless distance }
  | _ => s

structure Pass where
  slots : Array Slot
  position : Nat := 0
  gained : Nat := 0

namespace Pass

def targetAddress (p : Pass) (labels : LabelMap) (i : Instruction) : Nat :=
  match i.label? with
  | some l => (p.slots.getD (labels.position l) default).address
  | none => 0

def step (labels : LabelMap) (p : Pass) (i : Nat) : Pass :=
  let old := p.slots.getD i default
  let p := { p with slots := p.slots.modify i fun s => { s with address := p.position } }
  let new := choose old p.position p.gained (p.targetAddress labels old.instruction)
  { slots := p.slots.modify i fun _ => new
    position := p.position + new.size
    gained := p.gained + (old.size - new.size) }

end Pass

def onePass (labels : LabelMap) (slots : Array Slot) : Array Slot × Bool :=
  let p := (List.range slots.size).foldl (Pass.step labels) { slots }
  (p.slots, p.gained > 0)

def relax (labels : LabelMap) : Nat → Array Slot → Array Slot
  | 0, slots => slots
  | n + 1, slots =>
    let (slots, shrank) := onePass labels slots
    if shrank then relax labels n slots else slots

def maxPasses : Nat := 5

def assignAddresses (slots : List Slot) : List Slot :=
  (slots.foldl (fun (acc : List Slot × Nat) s =>
    ({ s with address := acc.2 } :: acc.1, acc.2 + s.size)) ([], 0)).1.reverse

def layout (labels : LabelMap) (code : List Instruction) : Except Error (List Slot) := do
  let slots ← code.mapM fun i => do
    let bytes ← i.encode
    .ok ({ instruction := i, size := startingSize i bytes } : Slot)
  .ok (relax labels maxPasses (assignAddresses slots).toArray).toList

/-- Bytes of a slot whose target, if it has one, is at address `target`. -/
def Slot.bytes (s : Slot) (target : Nat) : Except Error (List UInt8) :=
  let distance : Int := target - (s.address + s.size : Nat)
  let near := littleEndian 4 distance
  match s.instruction with
  | .jumpIf c _ =>
    .ok (if s.size == shortSize then byteOf (0x70 + c.number) :: littleEndian 1 distance
      else 0x0F :: byteOf (0x80 + c.number) :: near)
  | .jump _ =>
    .ok (if s.size == shortSize then 0xEB :: littleEndian 1 distance else 0xE9 :: near)
  | .call _ => .ok (0xE8 :: near)
  | .lea r _ => .ok (rexByte true r 0 0 :: 0x8D :: modRM 0 r 5 :: near)
  | i => i.encode

end Lowering.X64
