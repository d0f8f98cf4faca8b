import Lowering.Mask
/-!
Resources: the registers and frame slots themselves.

A resource belongs to at most one value, through one of its sites. It can also be referenced
without being owned (the base register of a memory word) and frozen, which forbids taking it
away. The table counts the general registers that are neither.
-/
namespace Lowering

inductive ResourceId where
  | register (r : Register)
  | slot (index : Nat)
  deriving DecidableEq, Repr, Inhabited

structure Owner where
  value : ValueId
  site : SiteId
  deriving DecidableEq, Repr

structure Resource where
  owner : Option Owner := none
  freezes : Nat := 0
  references : Nat := 0
  reserved : Bool := false
  deriving DecidableEq, Repr, Inhabited

namespace Resource

def isUnavailable (r : Resource) : Bool :=
  r.reserved || r.freezes > 0 || r.references > 0

def isReleased (r : Resource) : Bool :=
  r.reserved || (r.freezes == 0 && r.references == 0)

end Resource

structure ResourceTable where
  registers : List Resource
  slots : List Resource
  general : RegisterSet
  available : Nat
  deriving Repr

namespace ResourceTable

/-- The numbers of the first `count` registers. A count is a byte, like the number of a register. -/
def registerNumbers (count : Nat) : List Register := List.range (count % 256)

def ofRegisters (count : Nat) (general : RegisterSet) (reserved : Register → Bool) :
    ResourceTable where
  registers := (registerNumbers count).map fun r => { reserved := reserved r }
  slots := []
  general
  available := (registerNumbers count).countP fun r => !reserved r && RegisterSet.has general r

def setFrame (t : ResourceTable) (count : Nat) (reserved : List Nat) : ResourceTable :=
  { t with slots := (List.range count).map fun i => { reserved := reserved.contains i } }

def get (t : ResourceTable) : ResourceId → Resource
  | .register r => t.registers.getD r default
  | .slot i => t.slots.getD i default

def modify (t : ResourceTable) (id : ResourceId) (f : Resource → Resource) : ResourceTable :=
  match id with
  | .register r => { t with registers := t.registers.modify r f }
  | .slot i => { t with slots := t.slots.modify i f }

def isGeneral (t : ResourceTable) : ResourceId → Bool
  | .register r => RegisterSet.has t.general r
  | .slot _ => false

def setOwner (t : ResourceTable) (id : ResourceId) (owner : Option Owner) : ResourceTable :=
  t.modify id fun r => { r with owner }

def refer (t : ResourceTable) (id : ResourceId) : ResourceTable :=
  let r := t.get id
  if r.reserved then t
  else
    let t' := t.modify id fun r => { r with references := r.references + 1 }
    if r.references = 0 && t.isGeneral id then { t' with available := t'.available - 1 } else t'

def unrefer (t : ResourceTable) (id : ResourceId) : ResourceTable :=
  let r := t.get id
  if r.reserved then t
  else
    let t' := t.modify id fun r => { r with references := r.references - 1 }
    if r.references - 1 = 0 && t.isGeneral id then { t' with available := t'.available + 1 }
    else t'

def freeze (t : ResourceTable) (id : ResourceId) : ResourceTable :=
  let r := t.get id
  if r.reserved then t
  else
    let t' := t.modify id fun r => { r with freezes := r.freezes + 1 }
    if r.freezes = 0 && t.isGeneral id then { t' with available := t'.available - 1 } else t'

def thaw (t : ResourceTable) (id : ResourceId) : ResourceTable :=
  let r := t.get id
  if r.reserved then t
  else
    let t' := t.modify id fun r => { r with freezes := r.freezes - 1 }
    if r.freezes - 1 = 0 && t.isGeneral id then { t' with available := t'.available + 1 } else t'

def owned (t : ResourceTable) : List (ResourceId × Owner) :=
  t.registers.zipIdx.filterMap (fun (r, i) => r.owner.map (.register i, ·))
    ++ t.slots.zipIdx.filterMap (fun (r, i) => r.owner.map (.slot i, ·))

def isReleased (t : ResourceTable) : Bool :=
  t.registers.all (·.isReleased) && t.slots.all (·.isReleased)

end ResourceTable

end Lowering
