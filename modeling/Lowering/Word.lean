/-!
Fixed-width integers.

Machine words are kept as mathematical integers; a width enters only where a value is narrowed,
tested for range or written out as bytes.
-/
namespace Lowering

def wordSize : Nat := 8

def modulus (bits : Nat) : Nat := Nat.pow 2 bits

def signed (bits : Nat) (x : Int) : Int :=
  x.bmod (modulus bits)

def unsigned (bits : Nat) (x : Int) : Nat :=
  (x.emod (modulus bits)).toNat

def fitsSigned (bits : Nat) (x : Int) : Bool :=
  signed bits x == x

def fitsUnsigned (bits : Nat) (x : Int) : Bool :=
  unsigned bits x == x

def littleEndian : Nat → Int → List UInt8
  | 0, _ => []
  | n + 1, x => UInt8.ofNat (unsigned 8 x) :: littleEndian n (x / 256)

def ofLittleEndian : List UInt8 → Nat
  | [] => 0
  | b :: rest => b.toNat + 256 * ofLittleEndian rest

def roundUp (n unit : Nat) : Nat :=
  (n + unit - 1) / unit * unit

end Lowering
