import Lowering.FrameMap.Log
import Lowering.Promise
/-!
Frame-map tables: the solved maps in the form a stack walker reads.

Without subroutines a table is flat: sorted return offsets, one bitmap each. Otherwise each
entry names the record of its innermost subroutine. The walker finds the position of the return
address that the record's slot holds among the record's return addresses, does the same for the
enclosing subroutines, and the positions together number the bitmap.
-/
namespace Lowering

structure FlatTable where
  mapSize : UInt32
  offsets : List Int32
  bits : List UInt32
  deriving DecidableEq, Repr

structure TableEntry where
  offset : Int32
  base : UInt32
  path : Option UInt32
  deriving DecidableEq, Repr

structure PathRecord where
  stackIndex : UInt32
  returnAddresses : List Int32
  next : Option UInt32
  deriving DecidableEq, Repr

structure PathTable where
  mapSize : UInt32
  entries : List TableEntry
  bits : List UInt32
  records : List PathRecord
  deriving DecidableEq, Repr

inductive FrameMapTable where
  | flat (t : FlatTable)
  | paths (t : PathTable)
  deriving DecidableEq, Repr

def bitsToNat : List Bool → Nat
  | [] => 0
  | b :: rest => b.toNat + 2 * bitsToNat rest

def packBits (bits : List Bool) : List UInt32 :=
  (List.range ((bits.length + 31) / 32)).map fun i =>
    UInt32.ofNat (bitsToNat ((bits.drop (32 * i)).take 32))

def packedBit (words : List UInt32) (i : Nat) : Bool :=
  match words[i / 32]? with
  | some w => w.toNat.testBit (i % 32)
  | none => false

def unpackBits (words : List UInt32) (start count : Nat) : List Bool :=
  (List.range count).map fun j => packedBit words (start + j)

/-- Position of `x` in a sorted list, by halving. Of several equal elements it finds the one the
halving ends at. -/
def searchFrom (xs : Array Int32) (x : Int32) : Nat → Nat → Nat → Nat
  | 0, base, _ => base
  | fuel + 1, base, size =>
    if size ≤ 1 then base
    else
      let half := size / 2
      let mid := base + half
      let base := if xs.getD mid 0 > x then base else mid
      searchFrom xs x fuel base (size - half)

def sortedIndex? (xs : List Int32) (x : Int32) : Option Nat :=
  let i := searchFrom xs.toArray x xs.length 0 xs.length
  if xs[i]? = some x then some i else none

namespace PathTable

/-- Number of the bitmap that the return addresses on the stack select, from `record` outwards. -/
def mapIndex? (t : PathTable) (stack : Nat → Option Int32) : Nat → UInt32 → Option Nat
  | 0, _ => none
  | fuel + 1, record => do
    let r ← t.records[record.toNat]?
    let address ← stack r.stackIndex.toNat
    let position ← r.returnAddresses.findIdx? (· == address)
    let outer ← match r.next with
      | some next => mapIndex? t stack fuel next
      | none => some 0
    some (position + r.returnAddresses.length * outer)

end PathTable

namespace FrameMapTable

def mapSize : FrameMapTable → Nat
  | .flat t => t.mapSize.toNat
  | .paths t => t.mapSize.toNat

def size : FrameMapTable → Nat
  | .flat t => t.offsets.length
  | .paths t => t.entries.length

/-- The roots at a return offset. `stack` gives the return offset that a frame slot holds; it is
asked inside subroutines only. -/
def roots (t : FrameMapTable) (offset : Int32) (stack : Nat → Option Int32) :
    Option (List Bool) :=
  match t with
  | .flat t => do
    let i ← sortedIndex? t.offsets offset
    some (unpackBits t.bits (i * t.mapSize.toNat) t.mapSize.toNat)
  | .paths t => do
    let i ← sortedIndex? (t.entries.map (·.offset)) offset
    let entry ← t.entries[i]?
    let index ← match entry.path with
      | some record => t.mapIndex? stack (t.records.length + 1) record
      | none => some 0
    some (unpackBits t.bits (entry.base.toNat + index * t.mapSize.toNat) t.mapSize.toNat)

def word (n : Nat) : List UInt8 := littleEndian 4 n

def offsetWord (x : Int32) : List UInt8 := littleEndian 4 x.toInt

def reference : Option UInt32 → List UInt8
  | none => word 0
  | some r => word (r.toNat + 1)

def encodeEntry (e : TableEntry) : List UInt8 :=
  offsetWord e.offset ++ word e.base.toNat ++ reference e.path

def encodeRecord (r : PathRecord) : List UInt8 :=
  word r.stackIndex.toNat ++ word r.returnAddresses.length ++ reference r.next
    ++ r.returnAddresses.flatMap offsetWord

def encode : FrameMapTable → List UInt8
  | .flat t =>
    word 0 ++ word t.mapSize.toNat ++ word t.offsets.length
      ++ t.offsets.flatMap offsetWord ++ t.bits.flatMap (word ·.toNat)
  | .paths t =>
    word 1 ++ word t.mapSize.toNat ++ word t.entries.length
      ++ t.entries.flatMap encodeEntry
      ++ word t.bits.length ++ t.bits.flatMap (word ·.toNat)
      ++ t.records.flatMap encodeRecord

end FrameMapTable

end Lowering
