import Lowering.Compile
import Lowering.Proofs.Stirring
/-!
What compiling leaves alone.

Most of the state is settled when a method has been described: the machine, the links, the frames.
Compiling an event moves values and emits code, and nothing else; only the tables of the merges
are changed where paths are brought to agree.
-/
namespace Lowering

open Build State

variable {α β σ : Type} {s s' : State}

def Event.plan (e : Event) : Event :=
  { e with junction := none, snapshots := [], revisits := [] }

namespace State

def fixture (s : State) : State :=
  { s with
    values := #[], sites := #[], reads := {}, promises := {}, registerValues := [], tracedCalls := []
    events := s.events.map Event.plan
    instructions := s.instructions.map (Option.map fun i => { i with bound := false })
    resources := .ofRegisters 0 0 fun _ => false, statistics := {}, emitter := .recording {} }

/-- The states have the same fixture, and what was promised in the first is promised in the second. -/
structure Fixed (s s' : State) : Prop where
  same : s'.fixture = s.fixture
  promises : s.promises.promises <+: s'.promises.promises

theorem Fixed.trans {t : State} (first : s.Fixed t) (second : t.Fixed s') : s.Fixed s' :=
  ⟨second.same.trans first.same, first.promises.trans second.promises⟩

@[refl] theorem Fixed.refl (s : State) : s.Fixed s := ⟨rfl, List.prefix_rfl⟩

instance : Std.Refl Fixed := ⟨Fixed.refl⟩

instance : Trans Fixed Fixed Fixed := ⟨Fixed.trans⟩

theorem Fixed.junctions (fixed : s.Fixed s') : s'.junctions = s.junctions :=
  congrArg (·.junctions) fixed.same

/-- The fixture is the same, and so are the paths of forks and the links to follow after each event. -/
structure Firm (s s' : State) : Prop where
  fixed : s.Fixed s'
  paths : s'.reads.paths? = s.reads.paths?
  revisits : ∀ e, (s'.event e).revisits = (s.event e).revisits
  values : s.values.size ≤ s'.values.size

theorem Firm.trans {t : State} (first : s.Firm t) (second : t.Firm s') : s.Firm s' :=
  ⟨first.fixed.trans second.fixed, second.paths.trans first.paths,
    fun e => (second.revisits e).trans (first.revisits e), Nat.le_trans first.values second.values⟩

@[refl] theorem Firm.refl (s : State) : s.Firm s := ⟨.refl s, rfl, fun _ => rfl, Nat.le_refl _⟩

instance : Std.Refl Firm := ⟨Firm.refl⟩

instance : Trans Firm Firm Firm := ⟨Firm.trans⟩

theorem Firm.still (same : s'.fixture = s.fixture) (promises : s.promises.promises <+: s'.promises.promises)
    (reads : s'.reads = s.reads) (events : s'.events = s.events) (values : s.values.size ≤ s'.values.size) : s.Firm s' :=
  ⟨⟨same, promises⟩, by rw [reads], fun e => by rw [event, event, events], values⟩

theorem Stirs.firm (stirs : s.Stirs s') : s.Firm s' := by
  have promises : s'.promises = s.promises := congrArg (·.promises) stirs.shell
  have events : s'.events = s.events := congrArg (·.events) stirs.shell
  have same : s'.shell.fixture = s.shell.fixture := congrArg fixture stirs.shell
  refine ⟨⟨same, promises ▸ List.prefix_rfl⟩, stirs.paths, fun e => ?_, Nat.le_of_eq stirs.size.symm⟩
  rw [event, event, events]

/-! Plain changes of the state. -/

theorem firmFoldl {xs : List α} {f : State → α → State}
    (round : ∀ (s : State) x, s.Firm (f s x)) :
    s.Firm (xs.foldl f s) := by
  induction xs generalizing s with
  | nil => exact .still rfl List.prefix_rfl rfl rfl (Nat.le_refl _)
  | cons x rest ih => exact (round s x).trans ih

theorem firmReads {reads : ReadTable} (same : reads.paths? = s.reads.paths?) : s.Firm { s with reads } :=
  ⟨⟨rfl, List.prefix_rfl⟩, same, fun _ => rfl, Nat.le_refl _⟩

theorem firmPromise (kind : PromiseKind) : s.Firm (s.createPromise kind).2 :=
  .still rfl (List.prefix_append ..) rfl rfl (Nat.le_refl _)

theorem mapModify {xs : Array α} {f : α → α} {g : α → β} (same : ∀ x, g (f x) = g x) (i : Nat) :
    (xs.modify i f).map g = xs.map g := by
  refine Array.ext_getElem? fun k => ?_
  simp only [Array.getElem?_map, Array.getElem?_modify]
  split
  · cases xs[k]? <;> simp [same]
  · rfl

theorem fixedModifyEvent (e : EventId) {f : Event → Event} (same : ∀ d, (f d).plan = d.plan) :
    s.Fixed (s.modifyEvent e f) :=
  ⟨by simp only [fixture, modifyEvent, mapModify same], List.prefix_rfl⟩

theorem firmModifyEvent (e : EventId) {f : Event → Event} (same : ∀ d, (f d).plan = d.plan)
    (revisits : ∀ d, (f d).revisits = d.revisits) : s.Firm (s.modifyEvent e f) := by
  refine ⟨fixedModifyEvent e same, rfl, fun x => ?_, Nat.le_refl _⟩
  rw [eventModify]
  split
  · rename_i here
    rw [revisits, here.1]
  · rfl

theorem firmModifyValue (v : ValueId) (f : Value → Value) : s.Firm (s.modifyValue v f) :=
  .still rfl List.prefix_rfl rfl rfl (Nat.le_of_eq (sizeModifyValue ..).symm)

theorem firmLeave (v : ValueId) : s.Firm (s.leaveRing v).2 := by
  unfold leaveRing
  dsimp only
  split
  · exact .refl s
  · exact (firmModifyValue ..).trans (firmModifyValue ..)

theorem firmIsolate (v : ValueId) : s.Firm (s.isolate v) := by
  unfold isolate
  split
  · exact .refl s
  · dsimp only
    exact .trans (.trans (firmLeave v) (stirsSweep _).firm) (stirsSweep v).firm

end State

abbrev Build.Leaves (act : Build α) : Prop := Within Fixed act

abbrev Build.Firmly (act : Build α) : Prop := Within Firm act

theorem Build.Within.leaves {act : Build α} (firmly : act.Firmly) : act.Leaves := firmly.mono (·.fixed)

theorem Build.Within.firmly {act : Build α} (stirs : act.Stirring) : act.Firmly := stirs.mono (·.firm)

theorem firmlyWhileFrozen {act : Build α} (i : SiteId) (leaves : act.Firmly) :
    (whileFrozen i act).Firmly :=
  .bind (.modify fun _ => (stirsFreeze i).firm) fun _ => leaves.ensuring fun _ => (stirsThaw i).firm

/-! Consuming reads and following links. -/

theorem firmlyBequeath (v : ValueId) : (bequeath v).Firmly := by
  refine .bind (.modifyGet fun _ => firmLeave v) fun heir => .bind .get fun s => ?_
  refine .bind (.modify fun _ => firmModifyValue ..) fun _ => .forM fun i => ?_
  exact .bind (.modify fun _ => (stirsRelease i).firm) fun _ =>
    .bind (stirringAcquire heir i).firmly fun _ => .modify fun _ => firmModifyValue ..

theorem firmlyConsumeRead (e : Option EventId) (v : ValueId) : (consumeRead e v).Firmly := by
  unfold consumeRead
  refine .bind .get fun s => ?_
  split
  · exact .throw
  · have rest : ∀ next : Option ReadId, (do
        modify (·.modifyValue v fun d => { d with reads := next })
        if !(← modifyGet (·.isPending next)) then
          if ← live v then bequeath v else modify (·.clearSites v) : Build Unit).Firmly := by
      intro next
      refine .bind (.modify fun _ => firmModifyValue ..) fun _ => ?_
      refine .bind (.modifyGet fun _ => (stirsPending next).firm) fun pending => .ite ?_ .pure
      refine .bind (stirringLive v).firmly fun alive => ?_
      exact .ite (firmlyBequeath v) (.modify fun _ => (stirsClear v).firm)
    refine .ite (.bind .throw fun _ => ?_) ?_
    all_goals
      split
      · exact .throw
      · exact rest _

theorem firmlyConsumeReads (e : EventId) : (consumeReads e).Firmly :=
  .bind .get fun _ => .forM fun _ => .bind .get fun _ => firmlyConsumeRead ..

theorem fixedTakePaths (f : ForkId) : s.Fixed (s.takePaths f) := by
  unfold takePaths
  generalize (s.forkAt f).forks = forks
  induction forks generalizing s with
  | nil => exact .refl s
  | cons p rest ih =>
    have next : s.Fixed { s with reads := (s.reads.takePath p.2).2 } := ⟨rfl, List.prefix_rfl⟩
    exact (next.trans ((firmModifyValue ..).trans (stirsSweep p.1).firm).fixed).trans ih

theorem firmAimStub (stubs : List (Option (ValueId × ReadId))) (slot : ValueId × Nat) :
    s.Firm (State.aimStub stubs s slot) := by
  unfold State.aimStub
  split
  · exact .still rfl List.prefix_rfl rfl rfl (Nat.le_refl _)
  · split
    · exact .still rfl List.prefix_rfl rfl rfl (Nat.le_refl _)
    · dsimp only
      split
      · exact (stirsLiveRead _).firm.trans (firmReads (ReadTable.pathsAimStub ..))
      · exact (stirsLiveRead _).firm

theorem firmAimStubs (l : LinkId) : s.Firm (s.aimStubs l) := by
  unfold State.aimStubs
  refine Firm.trans (firmFoldl fun s => firmAimStub _) (firmFoldl fun s p => ?_)
  dsimp only
  split
  · exact .refl s
  · exact firmReads (ReadTable.pathsInvalidateStub ..)

theorem leavesFollowLink (l : LinkId) : (followLink l).Leaves := by
  unfold followLink
  refine .bind (.modify fun s => ?_) fun _ => .bind .get fun s => .forM fun p => ?_
  · split
    · exact fixedTakePaths _
    · exact .refl s
  · exact .bind .get fun s => .ite (firmlyConsumeRead ..).leaves .pure

/-! Entering an event. -/

theorem firmRestoreRings (snapshots : List Snapshot) : s.Firm (s.restoreRings snapshots) :=
  (firmFoldl fun _ (n : Snapshot) => firmLeave n.value).trans (firmFoldl fun _ _ => firmModifyValue ..)

theorem firmlyRestoreSnapshots (e : EventId) (snapshots : List Snapshot) :
    (restoreSnapshots e snapshots).Firmly := by
  refine .bind (.modify fun s => (firmRestoreRings snapshots).trans (stirsVacateFrame e).firm) fun _ => ?_
  exact .forM fun n => (stirringRestoreSites n).firmly

theorem firmlyAdoptTable (e : EventId) (j : JunctionId) : (adoptTable e j).Firmly := by
  refine .bind (.modify fun _ => (stirsVacateFrame e).firm) fun _ => .bind .get fun s => .forM fun p => ?_
  refine .bind .get fun s => ?_
  split
  · exact .pure
  · exact .bind (stirringLive p.1).firmly fun alive => .ite (stirringPlaceAt ..).firmly .pure

def afterFirstLink (e : EventId) (oldest : LinkId) (later : List LinkId) : Build Unit := do
  let s ← get
  let first := s.event (s.link (later.getLastD oldest)).predecessor
  if later.isEmpty then
    if first.successors.length > 1 then restoreSnapshots e first.snapshots
  else
    modify (later.foldl State.aimStubs)
    match first.junction with
    | some j => adoptTable e j
    | none => pure ()
    modify (·.isolateFrame)

theorem firmlyAfterFirstLink (e : EventId) (oldest : LinkId) (later : List LinkId) :
    (afterFirstLink e oldest later).Firmly := by
  have isolated : (modify (·.isolateFrame) : Build Unit).Firmly :=
    .modify fun _ => firmFoldl fun _ => firmIsolate
  refine .bind .get fun s => .ite (.ite (firmlyRestoreSnapshots ..) .pure) ?_
  refine .bind (.modify fun _ => firmFoldl fun _ => firmAimStubs) fun _ => ?_
  split
  · exact .bind (firmlyAdoptTable ..) fun _ => isolated
  · exact isolated

theorem leavesEnter (e : EventId) : (enter e).Leaves := by
  unfold enter
  refine .bind .get fun s => ?_
  split
  · exact .pure
  · exact .bind (leavesFollowLink _) fun _ => (firmlyAfterFirstLink e _ _).leaves

/-! Compiling the operation of an event. -/

theorem firmlySourceOf (v : ValueId) : (sourceOf v).Firmly := by
  refine .bind .get fun s => ?_
  split
  · exact .pure
  · exact .throw

theorem firmlySourceOperand (v : ValueId) : (sourceOperand v).Firmly :=
  .bind (firmlySourceOf v) fun i => (stirringOperandOf i).firmly

theorem firmlySourceMask (v : ValueId) : (sourceMask v).Firmly :=
  .bind (firmlySourceOf v) fun _ => .bind .get fun _ => .pure

theorem firmlyRegisterOf (i : SiteId) (fault : InvariantFault) : (registerOf i fault).Firmly := by
  refine .bind .get fun s => ?_
  split
  · exact .pure
  · exact .throw

theorem firmlyFollowingRead (v : ValueId) : (followingRead? v).Firmly := by
  have aliases : ∀ vs : List ValueId, (modifyGet (·.firstPending vs) : Build _).Firmly :=
    fun vs => .modifyGet fun _ => (stirsFirstPending vs).firm
  unfold followingRead?
  refine .bind .get fun s => ?_
  dsimp only
  split
  · exact aliases _
  · split
    · exact .throw
    · exact .bind (.modifyGet fun _ => (stirsPending _).firm) fun _ => .ite .pure (aliases _)

theorem firmlyResultSite (v result : ValueId) (mask : SiteMask) :
    (resultSite v result mask).Firmly := by
  have yield : ∀ (w : ValueId) (i : SiteId), (do
      modify fun s => (s.removeSite w i).freezeSite i
      return i : Build SiteId).Firmly :=
    fun w i => .bind (.modify fun _ => (stirsRemove ..).firm.trans (stirsFreeze i).firm) fun _ => .pure
  unfold resultSite
  refine .bind (firmlyFollowingRead v) fun next => .bind (firmlySourceOf v) fun source => ?_
  refine .bind .get fun s => .ite ?_ (.bind ?_ (yield result))
  · split
    · refine .ite (.bind ?_ fun _ => yield v source) (yield v source)
      exact .discard (firmlyWhileFrozen _ (stirringRelocate ..).firmly)
    · exact yield v source
  · exact firmlyWhileFrozen _ (.bind (stirringProbe ..).firmly fun _ => .bind (stirringChooseSite ..).firmly fun _ =>
      .bind (stirringPlace ..).firmly fun _ => .pure)

theorem firmlyDeliver (result : ValueId) (i : SiteId) : (deliver result i).Firmly :=
  .bind (.modify fun _ => (stirsThaw i).firm) fun _ =>
    .bind (stirringLive result).firmly fun _ => .ite (stirringPlace ..).firmly .pure

theorem firmlyHold (i : SiteId) : (hold i).Firmly :=
  .bind (.modify fun _ => (stirsFreeze i).firm) fun _ => .pure

theorem firmlyUnreachable (e : EventId) : (unreachable e).Firmly := by
  refine .bind .get fun s => ?_
  split
  · exact .pure
  · exact .throw

namespace Compile

theorem firmlyBindTarget (t : CodeTarget) : (bind t).Firmly := (stirringEmit _).firmly

theorem firmlyCombine (e : EventId) (c : CombineEvent) : (combine e c).Firmly := by
  unfold combine
  refine .bind (firmlySourceOf _) fun first => .bind (firmlyWhileFrozen first ?_) fun i => ?_
  · refine .bind (firmlySourceOf _) fun second => .bind .get fun s => ?_
    refine .bind (firmlyWhileFrozen second ?_) fun claimed => .ensuring ?_ fun _ => (stirsThawAll _).firm
    · refine .bind .get fun s => .mapM fun r => .bind (stirringEvict ..).firmly fun _ => ?_
      exact .bind (.modifyGet fun _ => .still rfl List.prefix_rfl rfl rfl (Nat.le_refl _)) fun i => firmlyHold i
    · refine .bind (firmlySourceMask _) fun a => .bind (firmlySourceMask _) fun b => ?_
      refine .bind (firmlyResultSite ..) fun i => .bind (firmlySourceOperand _) fun a => ?_
      refine .bind (firmlySourceOperand _) fun b => .bind (stirringOperandOf i).firmly fun target => ?_
      exact .bind (stirringEmit _).firmly fun _ => .pure
  · exact .bind (firmlyConsumeReads e) fun _ => firmlyDeliver ..

theorem firmlyConvert (e : EventId) (t : ConvertEvent) : (convert e t).Firmly := by
  refine .bind (firmlySourceMask _) fun source => .bind .get fun s => ?_
  refine .bind (firmlyResultSite ..) fun i => .bind (firmlySourceOperand _) fun a => ?_
  refine .bind (stirringOperandOf i).firmly fun target => .bind (stirringEmit _).firmly fun _ => ?_
  exact .bind (firmlyConsumeReads e) fun _ => firmlyDeliver ..

theorem firmlyCopyThroughRegister (c : Copy) (source target : SiteId) (onward store : Bool) :
    (copyThroughRegister c source target onward store).Firmly := by
  refine .bind (.modify fun _ => (stirsRemove ..).firm) fun _ => .bind .get fun s => ?_
  refine .bind (.modifyGet fun _ => .still rfl List.prefix_rfl rfl rfl (Nat.le_refl _)) fun t => .bind (firmlyWhileFrozen source ?_) fun _ => ?_
  · exact .bind (stirringPlace ..).firmly fun _ => firmlyWhileFrozen t (stirringEmitBetween ..).firmly
  · refine .ite (.bind (stirringPlace ..).firmly fun _ => ?_) .pure
    exact .bind (firmlyWhileFrozen t (stirringEmitBetween ..).firmly) fun _ =>
      .ite (.modify fun _ => (stirsRemove ..).firm) .pure

theorem firmlyCopyTo (c : Copy) (source target : SiteId) (store : Bool) :
    (copyTo c source target store).Firmly := by
  refine .bind .get fun s => .ite ?_ .pure
  refine .bind (firmlyWhileFrozen source (stirringPlace ..).firmly) fun _ => firmlyWhileFrozen target ?_
  refine .bind .get fun s => .ite ?_ (firmlyCopyThroughRegister ..)
  exact firmlyWhileFrozen source (stirringEmitBetween ..).firmly

theorem firmlyCopy (c : Copy) : (copy c).Firmly := by
  unfold copy
  refine .bind (.modifyGet fun _ => (stirsLiveRead _).firm) fun read => ?_
  have go : ∀ target : SiteId, (do
      let source ← sourceOf c.src
      copyTo c source target read.isNone
      if read.isNone then modify (·.removeSite c.dst target) : Build Unit).Firmly := by
    intro target
    refine .bind (firmlySourceOf _) fun source => .bind (firmlyCopyTo ..) fun _ => ?_
    exact .ite (.modify fun _ => (stirsRemove ..).firm) .pure
  refine .bind .get fun s => ?_
  dsimp only
  split
  · exact go _
  · exact .pure
  · exact .bind (stirringChooseSite ..).firmly go

theorem firmlyAliasMove (src dst : ValueId) : (aliasMove src dst).Firmly := by
  have finish : (do
      modify (·.joinRing src dst)
      let source ← sourceOf src
      modify fun s =>
        if (s.site source).isVolatile s.geometry then s.removeSite src source else s
      : Build Unit).Firmly := by
    refine .bind (.modify fun _ => (firmModifyValue ..).trans (firmModifyValue ..)) fun _ => .bind (firmlySourceOf _) fun source => ?_
    refine .modify fun s => ?_
    split
    · exact (stirsRemove ..).firm
    · exact .refl s
  unfold aliasMove
  refine .bind (.modifyGet fun _ => (stirsLiveRead _).firm) fun read => ?_
  split
  · refine .bind (.modifyGet fun _ => (stirsChooseSource ..).firm) fun found => .bind .get fun s => ?_
    exact .ite (.bind (.discard (stirringRelocate ..).firmly) fun _ => finish) finish
  · exact finish

theorem firmlyMove (e : EventId) (m : MoveEvent) : (move e m).Firmly := by
  have finish := firmlyConsumeReads e
  refine .bind (firmlySourceMask _) fun source => .bind .get fun s => .ite (.ite ?_ ?_) ?_
  · exact .bind (firmlyCopy _) fun _ => finish
  · exact .bind (stirringLive _).firmly fun _ => .ite (.bind (firmlyAliasMove ..) fun _ => finish) finish
  · exact .bind (firmlyCopy _) fun _ => finish

def placeMemory (m : MemoryEvent) (ref : MemoryRef) : Build Unit := do
  let i ← modifyGet (·.newSite (.ofMemory ref))
  modify (·.modifyValue m.result fun d => { d with target := some i })
  place m.result i

def finishMemory (e : EventId) (m : MemoryEvent) (ref : MemoryRef) : Build Unit := do
  match m.index with
  | some v => consumeRead (some e) v
  | none => pure ()
  placeMemory m ref

theorem firmlyMemory (e : EventId) (m : MemoryEvent) : (memory e m).Firmly := by
  have finish : ∀ ref : MemoryRef, (placeMemory m ref).Firmly := fun ref =>
    .bind (.modifyGet fun _ => .still rfl List.prefix_rfl rfl rfl (Nat.le_refl _)) fun i => .bind (.modify fun _ => firmModifyValue ..) fun _ => (stirringPlace ..).firmly
  have consumed : ∀ ref : MemoryRef, (finishMemory e m ref).Firmly := by
    intro ref
    unfold finishMemory
    split
    · exact .bind (firmlyConsumeRead ..) fun _ => finish ref
    · exact finish ref
  unfold memory
  refine .bind .get fun s => ?_
  dsimp only
  split
  · refine .bind (firmlySourceOf _) fun i => .bind (firmlyRegisterOf ..).map fun index => ?_
    refine .bind (firmlySourceOf _) fun i => .bind (firmlyRegisterOf ..) fun base => ?_
    refine .bind (firmlyConsumeRead ..) fun _ => ?_
    split
    · exact .bind (stirringEmit _).firmly fun _ => consumed _
    · exact consumed _
  · refine .bind .pure fun index => .bind (firmlySourceOf _) fun i => ?_
    refine .bind (firmlyRegisterOf ..) fun base => .bind (firmlyConsumeRead ..) fun _ => ?_
    split
    · exact .bind (stirringEmit _).firmly fun _ => consumed _
    · exact consumed _

theorem firmlyHoldSurrogate (v : Option ValueId) : (holdSurrogate v).Firmly := by
  cases v with
  | none => exact .pure
  | some v =>
    exact .bind (firmlySourceOf v) fun i => .bind (firmlyRegisterOf ..) fun _ =>
      .bind (.discard (firmlyHold i)) fun _ => .pure

theorem firmlyThawSurrogate (v : Option ValueId) : (thawSurrogate v).Firmly := by
  cases v with
  | none => exact .pure
  | some v => exact .bind (firmlySourceOf v) fun i => .modify fun _ => (stirsThaw i).firm

theorem firmlyTraceCall (c : CallEvent) : (traceCall c).Firmly := by
  unfold traceCall
  split
  · exact .pure
  · exact .bind (.modifyGet fun _ => firmPromise _) fun p =>
      .bind (stirringEmit _).firmly fun _ => .modify fun _ => .still rfl List.prefix_rfl rfl rfl (Nat.le_refl _)

theorem firmlyCleanFrame (e : EventId) (popIndex : Nat) : (cleanFrame e popIndex).Firmly :=
  .bind (.modify fun _ => firmFoldl fun _ v => (stirsClean v popIndex).firm) fun _ => firmlyConsumeReads e

theorem firmlyCall (e : EventId) (c : CallEvent) : (call e c).Firmly := by
  have finish : (do
      cleanFrame e c.popIndex
      if c.resultSize > 0 then
        if ← live c.result then placeAt c.result (.ofRegister (← get).machine.result)
      : Build Unit).Firmly := by
    refine .bind (firmlyCleanFrame ..) fun _ => .ite ?_ .pure
    exact .bind (stirringLive _).firmly fun _ => .ite (.bind .get fun _ => (stirringPlaceAt ..).firmly) .pure
  have rest : (do
      emit (.unary (callOperation c) wordSize (← sourceOperand c.address))
      traceCall c
      if c.tail then
        thawSurrogate c.returnAddress
        thawSurrogate c.framePointer
      else restoreArguments c
      cleanFrame e c.popIndex
      if c.resultSize > 0 then
        if ← live c.result then placeAt c.result (.ofRegister (← get).machine.result)
      : Build Unit).Firmly := by
    refine .bind (firmlySourceOperand _) fun a => .bind (stirringEmit _).firmly fun _ => ?_
    refine .bind (firmlyTraceCall c) fun _ => .ite ?_ (.bind ?_ fun _ => finish)
    · exact .bind (firmlyThawSurrogate _) fun _ => .bind (firmlyThawSurrogate _) fun _ => finish
    · exact .bind .get fun s => .ite (stirringEmit _).firmly .pure
  refine .ite (.bind ?_ fun _ => rest) rest
  exact .bind (firmlyHoldSurrogate _) fun _ => .bind (firmlyHoldSurrogate _) fun _ =>
    .bind .get fun _ => (stirringEmit _).firmly

theorem firmlyLeave (e : EventId) : (leave e).Firmly :=
  .bind (firmlyConsumeReads e) fun _ => .bind (firmlyUnreachable e) fun _ =>
    .ite (.bind .get fun _ => (stirringEmit _).firmly) .pure

theorem firmlyCompareAndBranch (b : BranchEvent) : (compareAndBranch b).Firmly := by
  refine .bind (firmlySourceOf _) fun first => .bind (firmlySourceOf _) fun second => ?_
  refine .bind (firmlySourceOf _) fun address => ?_
  refine firmlyWhileFrozen first (firmlyWhileFrozen second (firmlyWhileFrozen address ?_))
  exact .bind (stirringOperandOf _).firmly fun _ => .bind (stirringOperandOf _).firmly fun _ =>
    .bind (stirringOperandOf _).firmly fun _ => (stirringEmit _).firmly

theorem firmlyBranch (e : EventId) (b : BranchEvent) : (branch e b).Firmly := by
  have finish := firmlyConsumeReads e
  unfold branch
  refine .bind (firmlyUnreachable e) fun dead => .ite (.bind .get fun s => ?_) finish
  dsimp only
  split
  · exact .bind (firmlySourceOperand _) fun _ => .bind (stirringEmit _).firmly fun _ => finish
  · exact finish
  · exact .bind (firmlyCompareAndBranch b) fun _ => finish

theorem firmlyJump (e : EventId) (j : JumpEvent) : (jump e j).Firmly := by
  have finish : (do
      consumeReads e
      if j.cleanLocals then
        modify fun s => (s.frames.values none s.locals).foldl (fun s v => s.cleanValue v 0) s
      : Build Unit).Firmly :=
    .bind (firmlyConsumeReads e) fun _ =>
      .ite (.modify fun _ => firmFoldl fun _ v => (stirsClean v 0).firm) .pure
  refine .bind (firmlyUnreachable e) fun _ => .ite ?_ finish
  exact .bind (firmlySourceOperand _) fun _ => .bind (stirringEmit _).firmly fun _ => finish

theorem firmlyCheckLength (b : BoundsCheckEvent) (negative : Option PromiseId) :
    (checkLength b negative).Firmly := by
  have finish : ∀ next : PromiseId, (do
      emit (.unary .call wordSize (.immediate b.handler))
      bind (.promise next) : Build Unit).Firmly :=
    fun next => .bind (stirringEmit _).firmly fun _ => firmlyBindTarget _
  unfold checkLength
  refine .bind (firmlySourceOf _) fun i => .bind (firmlyRegisterOf ..) fun base => ?_
  refine .bind (.modifyGet fun _ => firmPromise _) fun next => .bind (firmlySourceOf _) fun index => ?_
  refine .bind (firmlyWhileFrozen index ?_) fun _ => ?_
  · exact .bind (stirringOperandOf _).firmly fun _ => (stirringEmit _).firmly
  · split
    · exact .bind (firmlyBindTarget _) fun _ => finish next
    · exact finish next

theorem firmlyBoundsCheck (e : EventId) (b : BoundsCheckEvent) : (boundsCheck e b).Firmly := by
  have finish : (do
      consumeRead (some e) b.object
      consumeRead (some e) b.index : Build Unit).Firmly :=
    .bind (firmlyConsumeRead ..) fun _ => firmlyConsumeRead ..
  unfold boundsCheck
  refine .bind .get fun s => ?_
  dsimp only
  split
  · exact .ite (.bind (stirringEmit _).firmly fun _ => finish) (.bind (firmlyCheckLength ..) fun _ => finish)
  · refine .bind ?_ fun negative => .bind (firmlyCheckLength ..) fun _ => finish
    exact .bind (.modifyGet fun _ => firmPromise _) fun p => .bind (firmlySourceOperand _) fun a =>
      .bind (stirringEmit _).firmly fun _ => .pure

theorem firmlyEvent (e : EventId) : (event e).Firmly := by
  unfold event
  refine .bind .get fun s => ?_
  split
  · exact firmlyCall ..
  · exact firmlyLeave e
  · exact firmlyMove ..
  · exact firmlyCombine ..
  · exact firmlyConvert ..
  · exact firmlyBranch ..
  · exact firmlyJump ..
  · exact firmlyMemory ..
  · exact firmlyBoundsCheck ..
  · exact (stirringEmit _).firmly
  · exact .bind (stirringLive _).firmly fun _ => .ite (.bind .get fun _ => (stirringPlaceAt ..).firmly) .pure
  · exact .bind (.modify fun _ => (firmModifyValue ..).trans (firmModifyValue ..)) fun _ => firmlyConsumeRead ..
  · exact firmlyConsumeReads e
  · exact .pure

theorem firmlyBindStart (e : EventId) : (bindStart e).Firmly := by
  have started : ∀ ip : Int, (instructionAt ip).Firmly := by
    intro ip
    refine .bind .get fun s => ?_
    split
    · exact .pure
    · exact .throw
  refine .bind .get fun s => .ite .pure (.bind (started _) fun _ => .ite .pure ?_)
  refine .bind (.bind (.discard (started _)) fun _ => .modify fun s => ?_) fun _ => ?_
  · refine .still ?_ List.prefix_rfl rfl rfl (Nat.le_refl _)
    simp only [fixture]
    rw [mapModify fun i => ?_]
    cases i <;> rfl
  · exact firmlyBindTarget _

end Compile

end Lowering
