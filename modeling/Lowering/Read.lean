import Lowering.Error
/-!
Reads: pending demands on values.

Every use of a value is a read with the mask the use accepts. The reads of one value form a
chain. At a fork the chain splits: a fork read holds the first read of each path that follows.
Where control enters an instruction compiled earlier, a stub read stands for the reads on the
far side until they are known, or is declared invalid. Asking a fork whether it is still valid
drops the paths that are not.
-/
namespace Lowering

inductive ReadKind where
  | single (mask : SiteMask) (successor : Option ValueId) (next : Option ReadId)
  /-- A fork: the reads still thought valid, the first read of every path, and how many paths
  have been taken. -/
  | fork (reads : List ReadId) (paths : List (Option ReadId)) (taken : Nat)
  | stub (next target : Option ReadId) (valid : Bool)
  deriving DecidableEq, Repr

structure Read where
  value : ValueId
  event : Option EventId
  kind : ReadKind
  deriving DecidableEq, Repr

instance : Inhabited Read := ⟨⟨⟨0⟩, none, .stub none none false⟩⟩

structure ReadTable where
  reads : Array Read := #[]
  deriving Repr

namespace ReadTable

def size (t : ReadTable) : Nat := t.reads.size

def get (t : ReadTable) (r : ReadId) : Read := t.reads.getD r.index default

def kind (t : ReadTable) (r : ReadId) : ReadKind := (t.get r).kind

def value (t : ReadTable) (r : ReadId) : ValueId := (t.get r).value

def setKind (t : ReadTable) (r : ReadId) (kind : ReadKind) : ReadTable :=
  ⟨t.reads.modify r.index fun d => { d with kind }⟩

def setEvent (t : ReadTable) (r : ReadId) (e : EventId) : ReadTable :=
  ⟨t.reads.modify r.index fun d => { d with event := some e }⟩

def push (t : ReadTable) (v : ValueId) (kind : ReadKind) : ReadId × ReadTable :=
  (⟨t.size⟩, ⟨t.reads.push ⟨v, none, kind⟩⟩)

def single (t : ReadTable) (v : ValueId) (mask : SiteMask) (successor : Option ValueId) :
    ReadId × ReadTable :=
  t.push v (.single mask successor none)

def fork (t : ReadTable) (v : ValueId) : ReadId × ReadTable :=
  t.push v (.fork [] [] 0)

def stub (t : ReadTable) (v : ValueId) : ReadId × ReadTable :=
  t.push v (.stub none none true)

def keep (test : ReadTable → ReadId → Bool × ReadTable) :
    List ReadId → ReadTable → List ReadId × ReadTable
  | [], t => ([], t)
  | r :: rest, t =>
    let (ok, t) := test t r
    let (kept, t) := keep test rest t
    (if ok then r :: kept else kept, t)

def prune (t : ReadTable) (r : ReadId) (reads : List ReadId) : ReadTable :=
  match t.kind r with
  | .fork _ paths taken => t.setKind r (.fork reads paths taken)
  | _ => t

/-- Whether `r` still stands for a future use. A fork is valid if one of its reads is; the forks
in `entered` are being asked already and count as invalid. -/
def validWithin : Nat → List ReadId → ReadTable → ReadId → Bool × ReadTable
  | 0, _, t, _ => (false, t)
  | fuel + 1, entered, t, r =>
    match t.kind r with
    | .single _ _ _ => (true, t)
    | .stub _ _ valid => (valid, t)
    | .fork reads _ _ =>
      if r ∈ entered then (false, t)
      else
        let (kept, t) := keep (validWithin fuel (r :: entered)) reads t
        (!kept.isEmpty, t.prune r kept)

def valid (t : ReadTable) (r : ReadId) : Bool × ReadTable :=
  validWithin (t.size + 1) [] t r

structure Narrowed where
  valid : Bool
  mask : SiteMask
  table : ReadTable

def narrowEach (narrow : ReadTable → ReadId → SiteMask → Narrowed) :
    List ReadId → ReadTable → SiteMask → List ReadId × SiteMask × ReadTable
  | [], t, mask => ([], mask, t)
  | r :: rest, t, mask =>
    let n := narrow t r mask
    let (kept, mask, t) := narrowEach narrow rest n.table n.mask
    (if n.valid then r :: kept else kept, mask, t)

def dropTarget (t : ReadTable) (r : ReadId) : ReadTable :=
  match t.kind r with
  | .stub next _ valid => t.setKind r (.stub next none valid)
  | _ => t

/-- Narrows `mask` by what `r` accepts. A fork narrows by all its paths, but only at depth zero;
a stub narrows by its target and forgets a target that has become invalid. -/
def narrowWithin : Nat → List ReadId → Nat → ReadTable → ReadId → SiteMask → Narrowed
  | 0, _, _, t, _, mask => ⟨false, mask, t⟩
  | fuel + 1, entered, depth, t, r, mask =>
    match t.kind r with
    | .single own _ _ => ⟨true, mask.inter own, t⟩
    | .fork reads _ _ =>
      if depth > 0 then ⟨!reads.isEmpty, mask, t⟩
      else if r ∈ entered then ⟨false, mask, t⟩
      else
        let (kept, mask, t) :=
          narrowEach (narrowWithin fuel (r :: entered) (depth + 1)) reads t mask
        ⟨!kept.isEmpty, mask, t.prune r kept⟩
    | .stub _ target valid =>
      if r ∈ entered then ⟨valid, mask, t⟩
      else
        match target with
        | none => ⟨valid, mask, t⟩
        | some target =>
          let n := narrowWithin fuel (r :: entered) depth t target mask
          ⟨valid, n.mask, if n.valid then n.table else n.table.dropTarget r⟩

def narrow (t : ReadTable) (r : ReadId) (mask : SiteMask) (depth : Nat) : Narrowed :=
  narrowWithin (t.size + 1) [] depth t r mask

def successor? (t : ReadTable) (r : ReadId) : Option ValueId :=
  match t.kind r with
  | .single _ successor _ => successor
  | _ => none

/-- The next read of the chain. After a fork there is none until a path is chosen. -/
def next (t : ReadTable) (r : ReadId) : Except Error (Option ReadId) :=
  match t.kind r with
  | .single _ _ next => .ok next
  | .stub next _ _ => .ok next
  | .fork _ _ _ => .error (.invariant (.forkNotChosen r))

def setLast (xs : List (Option ReadId)) (r : ReadId) : List (Option ReadId) :=
  xs.dropLast ++ (if xs.isEmpty then [] else [some r])

def append (t : ReadTable) (r next : ReadId) : Option Error × ReadTable :=
  match t.kind r with
  | .single mask successor none => (none, t.setKind r (.single mask successor (some next)))
  | .stub none target valid => (none, t.setKind r (.stub (some next) target valid))
  | .single _ _ (some _) => (some (.invariant (.readFollowed r)), t)
  | .stub (some _) _ _ => (some (.invariant (.readFollowed r)), t)
  | .fork reads paths taken =>
    let t := t.setKind r (.fork (reads ++ [next]) (setLast paths next) taken)
    (if paths.isEmpty then some (.invariant (.forkWithoutPath r)) else none, t)

def openPath (t : ReadTable) (r : ReadId) : ReadTable :=
  match t.kind r with
  | .fork reads paths taken => t.setKind r (.fork reads (paths ++ [none]) taken)
  | _ => t

/-- Takes the next path of a fork, in the order they were opened, and answers its first read. -/
def takePath (t : ReadTable) (r : ReadId) : Option ReadId × ReadTable :=
  match t.kind r with
  | .fork reads paths taken =>
    (paths[taken]?.join, t.setKind r (.fork reads paths (taken + 1)))
  | _ => (none, t)

def stubTarget? (t : ReadTable) (r : ReadId) : Option ReadId :=
  match t.kind r with
  | .stub _ target _ => target
  | _ => none

def aimStub (t : ReadTable) (r target : ReadId) : ReadTable :=
  match t.kind r with
  | .stub next _ valid => t.setKind r (.stub next (some target) valid)
  | _ => t

def invalidateStub (t : ReadTable) (r : ReadId) : ReadTable :=
  match t.kind r with
  | .stub next target _ => t.setKind r (.stub next target false)
  | _ => t

end ReadTable

end Lowering
