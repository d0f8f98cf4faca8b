import Lowering.Word
/-!
Numbers as text in base two and sixteen.
-/
namespace Lowering.Text

def padZeros (width : Nat) (s : String) : String :=
  String.ofList (List.replicate (width - s.length) '0') ++ s

def padBlanks (width : Nat) (s : String) : String :=
  String.ofList (List.replicate (width - s.length) ' ') ++ s

def hexDigits (n : Nat) : String :=
  String.ofList (Nat.toDigits 16 n)

def upperHexDigits (n : Nat) : String :=
  String.ofList ((Nat.toDigits 16 n).map Char.toUpper)

def hex (n : Nat) : String :=
  "0x" ++ hexDigits n

def hexPadded (digits n : Nat) : String :=
  "0x" ++ padZeros digits (hexDigits n)

def hexWord (x : Int) : String :=
  hex (unsigned 64 x)

def binaryPadded (digits n : Nat) : String :=
  "0b" ++ padZeros digits (String.ofList (Nat.toDigits 2 n))

def hexBytes (bytes : List UInt8) : String :=
  String.join (bytes.map fun b => padZeros 2 (hexDigits b.toNat))

def bits (bs : List Bool) : String := String.ofList (bs.map fun b => if b then '1' else '0')

end Lowering.Text
