import Lowering.FrameMap.Table
/-!
Laying solved maps out as a table keyed by code offsets.
-/
namespace Lowering

def codeOffset (promises : PromiseTable) (base : Int) (p : PromiseId) : Except Error Int32 :=
  match promises.value? p with
  | none => .error (.unresolved (.returnAddress p))
  | some v =>
    if fitsSigned 32 (v - base) then .ok (Int32.ofInt (v - base))
    else .error (.unresolved (.outsideMethod v))

structure PlacedTrace where
  offset : Int32
  argument : Nat
  trace : Trace

def reportedBits (m : RootMap) (size argument : Nat) : List Bool :=
  (List.range size).map fun j => decide (j < argument) && m.has j

structure PathRecords where
  records : List PathRecord := []
  regions : List (RegionId × Nat) := []

namespace RootLog

def region (l : RootLog) (r : RegionId) : Region := l.regions.getD r.index default

def call (l : RootLog) (c : CallSiteId) : CallSite := l.calls.getD c.index default

def path (l : RootLog) (p : PathId) : CallPath := l.paths.getD p.index default

def placedTraces (l : RootLog) (offset : PromiseId → Except Error Int32) :
    Except Error (List PlacedTrace) := do
  let placed ← l.traces.toList.filterMapM fun t =>
    match t.address with
    | none => .ok none
    | some (p, argument) => do .ok (some ⟨← offset p, argument, t⟩)
  .ok (placed.mergeSort fun a b => a.offset ≤ b.offset)

def recordFor (l : RootLog) (offset : PromiseId → Except Error Int32) :
    Nat → PathRecords → RegionId → Except Error (Nat × PathRecords)
  | 0, rs, _ => .ok (0, rs)
  | fuel + 1, rs, r =>
    match rs.regions.lookup r with
    | some i => .ok (i, rs)
    | none => do
      let d := l.region r
      let (next, rs) ← match d.outer with
        | some outer => do
          let (i, rs) ← recordFor l offset fuel rs outer
          .ok (some i, rs)
        | none => .ok (none, rs)
      let addresses ← d.calls.mapM fun c => offset (l.call c).returnAddress
      let i := rs.records.length
      .ok (i,
        { records := rs.records ++
            [⟨UInt32.ofNat d.stackIndex, addresses.mergeSort (· ≤ ·), next.map UInt32.ofNat⟩]
          regions := rs.regions ++ [(r, i)] })

def returnChain (l : RootLog) (offset : PromiseId → Except Error Int32) :
    Nat → Option PathId → Except Error (List Int32)
  | 0, _ => .ok []
  | _, none => .ok []
  | fuel + 1, some p => do
    let d := l.path p
    let o ← offset (l.call d.call).returnAddress
    let rest ← returnChain l offset fuel d.outer
    .ok (o :: rest)

def pathKey (l : RootLog) (offset : PromiseId → Except Error Int32) (p : PathId) :
    Except Error (List Int32) := do
  .ok (← l.returnChain offset l.paths.size (some p)).reverse

def keyLe : List Int32 → List Int32 → Bool
  | [], _ => true
  | _ :: _, [] => false
  | a :: as, b :: bs => if a = b then keyLe as bs else decide (a < b)

structure TableDraft where
  entries : List TableEntry := []
  maps : List (List Bool) := []
  records : PathRecords := {}

def addTrace (l : RootLog) (offset : PromiseId → Except Error Int32) (d : TableDraft)
    (t : PlacedTrace) : Except Error TableDraft := do
  let base := UInt32.ofNat (d.maps.length * l.mapSize)
  match t.trace.paths with
  | [] =>
    .ok { d with
      entries := d.entries ++ [⟨t.offset, base, none⟩]
      maps := d.maps ++ [reportedBits t.trace.map l.mapSize t.argument] }
  | first :: _ =>
    let region := (l.call (l.path first.path).call).region
    let (record, records) ← l.recordFor offset (l.regions.size + 1) d.records region
    let keyed ← t.trace.paths.mapM fun q => do .ok (← l.pathKey offset q.path, q)
    let sorted := keyed.mergeSort fun a b => keyLe a.1 b.1
    .ok
      { entries := d.entries ++ [⟨t.offset, base, some (UInt32.ofNat record)⟩]
        maps := d.maps ++ sorted.map fun (_, q) => reportedBits q.map l.mapSize t.argument
        records }

def table (l : RootLog) (promises : PromiseTable) (base : Int) : Except Error FrameMapTable := do
  let offset := codeOffset promises base
  let placed ← l.placedTraces offset
  if placed.all (·.trace.paths.isEmpty) then
    .ok (.flat
      { mapSize := UInt32.ofNat l.mapSize
        offsets := placed.map (·.offset)
        bits := packBits (placed.flatMap fun t =>
          reportedBits t.trace.map l.mapSize t.argument) })
  else
    let d ← placed.foldlM (l.addTrace offset) {}
    .ok (.paths
      { mapSize := UInt32.ofNat l.mapSize
        entries := d.entries
        bits := packBits d.maps.flatten
        records := d.records.records })

end RootLog

end Lowering
