import Lowering.Word
/-!
Root maps: which frame slots hold object references.

A map has room for whole words of 64 slots; slots beyond its room are ignored.
-/
namespace Lowering

structure RootMap where
  slots : List Bool
  deriving DecidableEq, Repr

namespace RootMap

def empty (size : Nat) : RootMap := ⟨List.replicate (roundUp size 64) false⟩

def full (size : Nat) : RootMap := ⟨List.replicate (roundUp size 64) true⟩

instance : Inhabited RootMap := ⟨empty 0⟩

def has (m : RootMap) (slot : Nat) : Bool := m.slots.getD slot false

def mark (m : RootMap) (slot : Nat) : RootMap := ⟨m.slots.set slot true⟩

def clear (m : RootMap) (slot : Nat) : RootMap := ⟨m.slots.set slot false⟩

def inter (a b : RootMap) : RootMap := ⟨List.zipWith and a.slots b.slots⟩

end RootMap

end Lowering
