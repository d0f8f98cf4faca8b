import Lowering.Error
/-!
Promises: integers that become known once the code has been laid out.

A promise is a known number, the address of an instruction, the address bound for the promise
itself, or the address of a constant-pool word. Whoever waits for a promise is a listener,
known by its number, and is told the value once: at once if the value is there already,
otherwise when the table is resolved.
-/
namespace Lowering

inductive PromiseKind where
  | resolved (value : Int)
  | machineIp (ip : Nat)
  | code
  | pool (slot : Nat)
  deriving DecidableEq, Repr

structure Promise where
  kind : PromiseKind
  value : Option Int
  waiting : List Nat
  deriving DecidableEq, Repr

structure Notice where
  listener : Nat
  value : Int
  deriving DecidableEq, Repr

abbrev TargetMap := List (CodeTarget × Nat)

namespace TargetMap

def find? (m : TargetMap) (t : CodeTarget) : Option Nat :=
  m.lookup t

def insert : TargetMap → CodeTarget → Nat → TargetMap
  | [], t, offset => [(t, offset)]
  | (t', o) :: rest, t, offset =>
    if t' = t then (t, offset) :: rest else (t', o) :: insert rest t offset

end TargetMap

structure CodeLayout where
  base : Int
  codeSize : Nat
  targets : TargetMap
  deriving Repr

namespace CodeLayout

def poolOffset (l : CodeLayout) : Nat := roundUp l.codeSize wordSize

def offset (l : CodeLayout) (t : CodeTarget) : Except Error Int :=
  match l.targets.find? t with
  | some o => .ok o
  | none => .error (.unresolved (.neverBound t))

def value (l : CodeLayout) (p : PromiseId) (kind : PromiseKind) : Except Error Int :=
  match kind with
  | .resolved v => .ok (l.base + v)
  | .machineIp ip => (l.offset (.ip ip)).map (l.base + ·)
  | .code => (l.offset (.promise p)).map (l.base + ·)
  | .pool slot => .ok (l.base + (l.poolOffset + slot * wordSize : Nat))

end CodeLayout

structure PromiseTable where
  promises : List Promise := []
  deriving Repr

namespace PromiseTable

def size (t : PromiseTable) : Nat := t.promises.length

def create (t : PromiseTable) (kind : PromiseKind) : PromiseId × PromiseTable :=
  let value := match kind with
    | .resolved v => some v
    | _ => none
  (⟨t.size⟩, ⟨t.promises ++ [⟨kind, value, []⟩]⟩)

def kind (t : PromiseTable) (p : PromiseId) : PromiseKind :=
  match t.promises[p.index]? with
  | some q => q.kind
  | none => .code

def value? (t : PromiseTable) (p : PromiseId) : Option Int :=
  t.promises[p.index]?.bind (·.value)

def listen (t : PromiseTable) (p : PromiseId) (listener : Nat) : List Notice × PromiseTable :=
  match t.value? p with
  | some v => ([⟨listener, v⟩], t)
  | none =>
    ([], ⟨t.promises.modify p.index fun q => { q with waiting := q.waiting ++ [listener] }⟩)

/-- What resolving a table leaves behind: the promises, the calls made on the way and the error
that ended it early. -/
structure Resolution where
  promises : List Promise
  notices : List Notice
  error : Option Error
  deriving Repr

/-- Resolves `promises`, the first of which has the number `i`, and stops at the first one whose
target was never bound. -/
def resolveFrom (l : CodeLayout) : Nat → List Promise → Resolution
  | _, [] => ⟨[], [], none⟩
  | i, p :: rest =>
    match p.value with
    | some _ =>
      let r := resolveFrom l (i + 1) rest
      { r with promises := p :: r.promises }
    | none =>
      match l.value ⟨i⟩ p.kind with
      | .error e => ⟨p :: rest, [], some e⟩
      | .ok v =>
        let r := resolveFrom l (i + 1) rest
        { r with
          promises := { p with value := some v, waiting := [] } :: r.promises
          notices := p.waiting.map (⟨·, v⟩) ++ r.notices }

def resolveAll (t : PromiseTable) (l : CodeLayout) : Resolution :=
  resolveFrom l 0 t.promises

end PromiseTable

end Lowering
