import Lowering.Proofs.Describing
/-!
The calls of a client.

A client may make any call at any time, with any arguments, and go on after one that failed. What
each call keeps, any history of calls keeps.
-/
namespace Lowering

open Build State

variable {α β : Type} {s s' : State} {K I : LocalsId → Prop}

namespace Outline.Housed

theorem first (housed : s.outline.Housed K) : s.frames.Has none ⟨0⟩ :=
  ⟨by simp, Nat.zero_lt_of_lt housed.current.locals⟩

theorem fork (housed : s.outline.Housed K) (f : ForkId) :
    s.frames.Has (s.forkAt f).stack (s.forkAt f).locals := by
  unfold forkAt
  rw [Array.getD_eq_getD_getElem?]
  cases here : s.forks[f.index]? with
  | none => exact housed.first
  | some d => exact housed.forks d (Array.mem_of_getElem? here)

theorem event (housed : s.outline.Housed K) (e : EventId) :
    s.frames.Has (s.event e).stackBefore (s.event e).localsBefore := by
  unfold State.event
  rw [Array.getD_eq_getD_getElem?]
  cases here : s.events[e.index]? with
  | none => exact housed.first
  | some d => exact housed.events _ (Array.mem_map_of_mem (Array.mem_of_getElem? here))

end Outline.Housed

namespace Method

/-! Control flow. -/

theorem followsSizeRootMaps (maxStack : Nat) : (sizeRootMaps maxStack).Follows K I :=
  .modify fun _ => .plain rfl rfl

theorem followsVisitRoots (ip : Nat) : (visitRoots ip).Follows K I := by
  refine .bind .get fun s => ?_
  split
  · exact .modify fun _ => .plain rfl rfl
  · exact .throw

theorem followsRecordFrame : recordFrame.Follows K I := by
  refine .modify fun s => ?_
  split
  · exact followsEvent _ fun _ => ⟨rfl, rfl⟩
  · exact .refl s

theorem followsPlantStubs (l : LinkId) : (plantStubs l).Follows K I := by
  refine .bind .get fun s => .bind (.foldlM (fun stubs slot => ?_) _) fun _ => .modify fun _ => .plain rfl rfl
  exact .bind (.modifyGet fun _ => .plain rfl rfl) fun r => .bind (followsLinkRead ..) fun _ => .pure

theorem followsLinkBack (p target : EventId) : (linkBack p target).Follows K I := by
  refine .bind followsRecordFrame fun _ => .bind .get fun _ => ?_
  refine .bind (.modifyGet fun _ => followsNewLink ..) fun l => .bind .get fun s => ?_
  split
  · exact .throw
  · exact .bind (.modify fun _ => followsEvent _ fun _ => ⟨rfl, rfl⟩) fun _ => followsPlantStubs l

def leaving (i : Instruction) (s : State) : State :=
  let inherited := i.subroutine.bind fun r => s.subroutines.getD r.index none
  let subroutines := match s.subroutine with
    | some r => s.subroutines.modify r.index fun _ => inherited
    | none => s.subroutines
  { s with subroutines, subroutine := none, fork := none }

def leaveTo (ip : Nat) (i : Instruction) : Build Unit := do
  modify (leaving i)
  visitRoots ip

theorem followsVisitInstruction (ip : Nat) : (visitInstruction ip).Follows K I := by
  have rest : ∀ i : Instruction, (leaveTo ip i).Follows K I := fun i =>
    .bind (.modify fun _ => .plain rfl rfl) fun _ => followsVisitRoots ip
  refine .bind followsEnsureEvent fun _ => .bind (followsInstructionAt _) fun i => ?_
  split
  · exact .throw
  · refine .bind .get fun s => ?_
    split
    · exact .bind (followsLinkBack ..) fun _ => rest i
    · exact rest i

theorem followsLocalSlot (footprint index : Nat) : (localSlot footprint index).Follows K I :=
  .bind .get fun _ => .ite (.bind .throw fun _ => .pure) .pure

theorem followsSetLocal (own : ∀ l, I l → ¬ K l) (slot : Nat) (v : ValueId) :
    (setLocal slot v).Follows K I :=
  .modify fun _ => (Lowering.followsSetLocal own slot (some v)).trans (.plain rfl rfl)

theorem followsDeclareLocal (own : ∀ l, I l → ¬ K l) (footprint index : Nat) (kind : ValueKind) :
    (declareLocal footprint index kind).Follows K I := by
  refine .bind (followsLocalSlot ..) fun slot => .bind (.modifyGet fun _ => .plain rfl rfl) fun v => ?_
  refine .bind .get fun _ => .bind (Append.followsFrameSite ..) fun _ => ?_
  exact .bind (followsSetLocal own ..) fun _ => .pure

theorem followsFresh {g : State → State} {act : Build α}
    (fresh : ∀ s : State, ∃ slots, g s =
      { s with locals := (s.frames.newLocals slots).1, frames := (s.frames.newLocals slots).2 })
    (follows : act.Follows K fun l => ¬ K l) :
    (modify g >>= fun _ => act).Follows K fun _ => True := by
  constructor
  intro s
  obtain ⟨slots, news⟩ := fresh s
  have ends : after (modify g >>= fun _ => act) s = after act (g s) := rfl
  rw [ends, news]
  refine ⟨fun _ housed => ?_, (follows.keeps _).pool⟩
  obtain ⟨own, opened⟩ := housed.newLocals slots
  obtain ⟨-, housed, first⟩ := opened.holds trivial housed
  obtain ⟨-, housed, later⟩ := (follows.keeps _).holds own housed
  exact ⟨trivial, housed, first.trans later⟩

theorem followsDeclareMissing : declareMissing.Follows K fun _ => True := by
  refine followsFresh (fun s => ⟨_, rfl⟩) (.bind .get fun _ => .forM fun i => .bind .get fun s => ?_)
  exact .ite (.discard (followsDeclareLocal (fun _ => id) ..)) .pure

theorem followsStartInstruction (ip : Nat) : (startInstruction ip).Follows K fun _ => True := by
  have entered : ∀ (s : State) (r : Option SubroutineId), s.Follows K (fun _ => True)
      { s with subroutine := none, ip := ip
               instructions := s.instructions.modify (ip + 1) fun _ =>
                 some { stack := s.stack, locals := s.locals, subroutine := r } } := by
    refine fun s r => ⟨fun _ housed => ⟨trivial, ?_, .still rfl rfl rfl⟩, rfl⟩
    refine ⟨housed.current, housed.ordered, housed.forks, housed.events, fun d member => ?_, housed.kept⟩
    obtain ⟨i, inside, here⟩ := Array.mem_iff_getElem.mp member
    simp only [outline, Array.getElem_map, Array.getElem_modify] at here
    split at here
    · cases here
      exact housed.current
    · exact housed.entries d (Array.mem_map.mpr ⟨_, Array.getElem_mem _, here⟩)
  have rest : (do
      ensureEvent
      recordFrame
      let subroutine := (← get).subroutine
      modify fun s =>
        let entry : Instruction := { stack := s.stack, locals := s.locals, subroutine }
        { s with
          subroutine := none
          ip := ip
          instructions := s.instructions.modify (ip + 1) fun _ => some entry }
      if subroutine.isSome then declareMissing
      visitRoots ip : Build Unit).Follows K fun _ => True := by
    refine .bind followsEnsureEvent fun _ => .bind followsRecordFrame fun _ => .bind .get fun s => ?_
    refine .bind (.modify fun t => entered t s.subroutine) fun _ => ?_
    exact .ite (.bind followsDeclareMissing fun _ => followsVisitRoots ip) (followsVisitRoots ip)
  refine .bind .get fun s => .ite (.bind .throw fun _ => ?_) ?_
  · exact .bind .get fun s => .ite (.bind .throw fun _ => rest) rest
  · exact .bind .get fun s => .ite (.bind .throw fun _ => rest) rest

/-! Forks. -/

theorem followsCaptureState : captureState.Follows K I := by
  have keep : ∀ (s : State) (saved : List ValueId) (forks : List (ValueId × ReadId)),
      s.Follows K I { s with
        forks := s.forks.push ⟨s.stack, s.locals, saved, s.predecessor, s.ip, forks⟩
        fork := if s.predecessor.isSome then some ⟨s.forks.size⟩ else s.fork } := by
    refine fun s saved forks => ⟨fun free housed => ⟨free, ?_, ?_⟩, rfl⟩
    · refine ⟨housed.current, housed.ordered, fun d member => ?_, housed.events, housed.entries, housed.kept⟩
      rcases Array.mem_push.mp member with old | rfl
      · exact housed.forks d old
      · exact housed.current
    · exact ⟨.refl _, fun f inside => by
        simp [outline, Array.getElem?_push, Nat.ne_of_lt (show f < s.forks.size from inside)], List.prefix_rfl,
        fun _ _ => rfl⟩
  refine .bind followsEnsureEvent fun _ => .bind .get fun s => ?_
  refine .bind (.modify fun _ => .plain rfl rfl) fun _ => .bind .get fun t => ?_
  refine .bind (.mapM fun v => ?_) fun forks => .modifyGet fun u => keep u s.saved forks
  exact .bind (.modifyGet fun _ => .plain rfl rfl) fun r => .bind (followsLinkRead ..) fun _ => .pure

theorem followsRestoreState (f : ForkId) : (restoreState f).Follows K fun _ => True := by
  refine .bind followsEnsureEvent fun _ => .modify fun s => ?_
  have returned : s.Follows K (fun _ => True)
      { s with stack := (s.forkAt f).stack, locals := (s.forkAt f).locals } :=
    followsFrame (fun _ => trivial) fun housed => housed.fork f
  dsimp only
  split
  · exact returned.trans (.plain rfl rfl)
  · exact returned.trans (.plain (foldlSame fun _ _ => rfl) (foldlSame fun _ _ => rfl))

theorem followsSaveState : saveState.Follows K fun _ => True :=
  .bind followsCaptureState fun f => .bind (followsRestoreState f) fun _ => .pure

/-! Subroutines. -/

theorem followsStartSubroutine : startSubroutine.Follows K I := .modifyGet fun _ => .plain rfl rfl

theorem followsReturnFromSubroutine (r : SubroutineId) (address : ValueId) :
    (returnFromSubroutine r address).Follows K I :=
  .bind Append.followsSaveLocals fun _ => .bind (Append.followsJump _) fun _ =>
    .bind followsCaptureState fun _ => .modify fun _ => .plain rfl rfl

theorem followsLinkSubroutine (r : SubroutineId) : (linkSubroutine r).Follows K fun _ => True := by
  refine .bind .get fun s => ?_
  split
  · exact followsRestoreState _
  · exact .throw

/-! Constants and registers. -/

theorem followsNewValueAt (kind : ValueKind) (site : Site) : s.Follows K I (s.newValueAt kind site).2 := by
  unfold newValueAt
  cases site <;> exact .plain rfl rfl

theorem followsConstant (value : Int) (kind : ValueKind) : (constant value kind).Follows K I :=
  .bind (.modifyGet fun _ => followsPromise _) fun _ => .modifyGet fun _ => followsNewValueAt ..

/-! The operand stack. -/

theorem followsWithoutHome (v : ValueId) : (withoutHome v).Follows K I := by
  refine .bind .get fun s => .ite .pure (.bind (.modifyGet fun _ => .plain rfl rfl) fun copy => ?_)
  exact .bind (Append.followsJoin ..) fun _ => .pure

theorem followsPushValue (v : ValueId) : (pushValue v).Follows K I :=
  .modify fun _ => (followsPush (some v)).trans (.plain rfl rfl)

theorem followsPushSlot (kind : ValueKind) : (pushSlot kind).Follows K I :=
  .bind (.modifyGet fun _ => .plain rfl rfl) fun v => .bind (followsPushValue v) fun _ => .pure

theorem followsPushWords (footprint : Nat) (v : ValueId) : (push footprint v).Follows K I := by
  have last : (do pushValue (← withoutHome v) : Build Unit).Follows K I :=
    .bind (followsWithoutHome v) followsPushValue
  unfold push
  split
  · exact last
  · exact .bind (.modify fun _ => followsPush none) fun _ => last
  · exact .bind .throw fun _ => last

theorem followsPushed : pushed.Follows K I := by
  refine .bind (.modifyGet fun _ => .plain rfl rfl) fun v => .bind .get fun s => ?_
  exact .bind (Append.followsFrameSite ..) fun _ => .bind (followsPushValue v) fun _ => .pure

theorem followsPopWord : popWord.Follows K I := by
  have drop : ∀ (s : State) (n : StackId), s.stack = some n →
      s.Follows K I { s with stack := (s.frames.node n).next } := by
    refine fun s n here => followsFrame id fun housed => ⟨fun m member => ?_, housed.current.locals⟩
    have inside := housed.current.stack n here
    exact (housed.ordered n inside m member).trans inside
  constructor
  intro s
  cases here : s.stack with
  | none =>
    have failed : top s = .error (.invariant .stackEmpty) s := by
      rw [top, getBind, here]
      rfl
    rw [popWord, afterBindError failed]
    exact .refl s
  | some n =>
    have found : top s = .ok (s.frames.node n) s := by
      rw [top, getBind, here]
      rfl
    rw [popWord, afterBindOk found]
    cases (s.frames.node n).value with
    | none => exact drop s n here
    | some v =>
      have ends : after (do
          if ((← get).value v).home.isNone then Build.invariant (.noHome v)
          modify fun t => { t with stack := (s.frames.node n).next } : Build Unit) s =
          if (s.value v).home.isNone then s else { s with stack := (s.frames.node n).next } := by
        cases homeless : (s.value v).home.isNone <;> simp only [after, getBind, homeless] <;> rfl
      refine ends ▸ ?_
      split
      · exact .refl s
      · exact drop s n here

theorem followsPopped (words : Nat) : (popped words).Follows K I := by
  induction words with
  | zero => exact .pure
  | succ words ih => exact .bind followsPopWord fun _ => ih

theorem followsTop : top.Follows K I := by
  refine .bind .get fun s => ?_
  split
  · exact .pure
  · exact .throw

theorem followsPop (footprint : Nat) : (pop footprint).Follows K I := by
  refine .bind followsTop fun node => .bind (followsPopped _) fun _ => ?_
  split
  · exact .pure
  · exact .throw

/-! Locals. -/

theorem followsRedeclareLocals (ip : Nat) : (redeclareLocals ip).Follows K fun _ => True := by
  refine followsFresh (fun s => ⟨_, rfl⟩) (.bind (followsInstructionAt _) fun i => ?_)
  split
  · exact .throw
  · refine .bind .get fun s => .forM fun ⟨v, i⟩ => ?_
    cases v with
    | none => exact .pure
    | some v => exact .discard (followsDeclareLocal (fun _ => id) ..)

theorem followsStoreLocal (footprint : Nat) (v : ValueId) (index : Nat) :
    (storeLocal footprint v index).Follows K fun _ => True := by
  refine .bind (followsLocalSlot ..) fun slot => followsFresh (fun s => ⟨_, rfl⟩) ?_
  have own : ∀ l, ¬ K l → ¬ K l := fun _ => id
  have set : (do setLocal slot (← withoutHome v) : Build Unit).Follows K fun l => ¬ K l :=
    .bind (followsWithoutHome v) fun _ => followsSetLocal own ..
  exact .ite (.bind (.modify fun _ => Lowering.followsSetLocal own ..) fun _ => set) set

/-! Operations. -/

theorem followsWithResult (kind : ValueKind) {act : ValueId → Build Unit}
    (follows : ∀ v, (act v).Follows K I) : (withResult kind act).Follows K I :=
  .bind (.modifyGet fun _ => .plain rfl rfl) fun v => .bind (follows v) fun _ => .pure

end Method

/-! Compiling. -/

theorem Shares.outline {j : JunctionId} (shares : Shares j s s') : s'.outline = s.outline := by
  have events : s'.events.map (fun d => (d.stackBefore, d.localsBefore)) =
      s.events.map fun d => (d.stackBefore, d.localsBefore) := by
    refine Array.ext (by simp [shares.size]) fun i inside inside' => ?_
    have here : ∀ (t : State) (lt : i < t.events.size), t.events[i] = t.event ⟨i⟩ := by
      intro t lt
      rw [State.event, Array.getD_eq_getD_getElem?, Array.getElem?_eq_getElem lt]
      rfl
    simp only [Array.size_map] at inside inside'
    rw [Array.getElem_map, Array.getElem_map, here s' inside, here s inside']
    rcases shares.event ⟨i⟩ with same | ⟨-, given⟩
    · rw [same]
    · rw [given]
  have rest := shares.rest
  simp only [State.outline, events]
  rw [rest]

theorem followsShares {j : JunctionId} (shares : Shares j s s') : s.Follows K I s' :=
  .plain shares.outline (by rw [shares.rest])

theorem followsFixed (fixed : s.Fixed s') : s.Follows K I s' := by
  have events : s'.events.map (fun d => (d.stackBefore, d.localsBefore)) =
      s.events.map fun d => (d.stackBefore, d.localsBefore) := by
    have plans := congrArg (fun t => t.events.map fun d => (d.stackBefore, d.localsBefore)) fixed.same
    simp only [fixture, Array.map_map] at plans
    exact plans
  have entries : s'.instructions.map (Option.map fun i => (i.stack, i.locals)) =
      s.instructions.map (Option.map fun i => (i.stack, i.locals)) := by
    have bound := congrArg (fun t => t.instructions.map (Option.map fun i => (i.stack, i.locals))) fixed.same
    simp only [fixture, Array.map_map, Option.map_comp_map] at bound
    exact bound
  have frames := congrArg (·.frames) fixed.same
  have stack := congrArg (·.stack) fixed.same
  have locals := congrArg (·.locals) fixed.same
  have forks := congrArg (·.forks) fixed.same
  have pool := congrArg (·.pool) fixed.same
  simp only [fixture] at frames stack locals forks pool
  have outline : s'.outline = { s.outline with promises := s'.promises.promises } := by
    simp only [State.outline, events, entries, frames, stack, locals, forks]
  refine ⟨fun free housed => ⟨locals ▸ free, ?_, ?_⟩, pool⟩
  · rw [outline]
    exact ⟨housed.current, housed.ordered, housed.forks, housed.events, housed.entries, housed.kept⟩
  · rw [outline]
    exact ⟨.refl _, fun _ _ => rfl, fixed.promises, fun _ _ => rfl⟩

theorem followsAdmits : Admits (State.Follows K fun _ => True) where
  fixed := followsFixed
  begins s e := followsFrame (fun _ => trivial) fun housed => housed.event e
  opens s e := by
    unfold openTable
    split
    · exact .refl s
    · refine .trans ?_ (followsShares (shareShares _ _ _))
      exact .plain rfl rfl
  fills committed := .trans (followsFixed ((firmlyCommit ..).holds committed).fixed) (.plain rfl rfl)

theorem followsCompile (handler : Option Int) (limitOffset : Nat) :
    (Compile.method handler limitOffset).Follows K fun _ => True := by
  have emits : ∀ q, (emit q).Follows K fun _ => True := fun q => followsAdmits.grants.firmly (stirringEmit q).firmly
  have claims : Compile.claimRegisterValues.Follows K fun _ => True := by
    refine .bind .get fun s => .bind (.modify fun _ => .plain rfl rfl) fun _ => .forM fun o => ?_
    refine .bind (followsAdmits.grants.firmly (stirringLive _).firmly) fun _ => .ite (.bind .get fun _ => ?_) .pure
    exact .ite (followsAdmits.grants.firmly (stirringAcquire ..).firmly) .pure
  have starts : (Compile.prologue handler limitOffset).Follows K fun _ => True := by
    have frame : (do
        emit (.allocateFrame (← get).frameSize)
        Compile.claimRegisterValues : Build Unit).Follows K fun _ => True :=
      .bind .get fun _ => .bind (emits _) fun _ => claims
    refine .bind followsEnsureEvent fun _ => ?_
    cases handler with
    | none => exact frame
    | some h => exact .bind (emits _) fun _ => frame
  exact .bind starts fun _ => .bind .get fun _ => .forM followsAdmits.one

theorem followsStart (codeLength parameterFootprint localFootprint frameSize : Nat) :
    s.Follows K (fun _ => True) (s.start codeLength parameterFootprint localFootprint frameSize) := by
  have grows : s.frames.Grows (s.frames.init localFootprint).2 :=
    ⟨le_rfl, fun _ _ => rfl, by simp [FrameTable.init, FrameTable.newLocals]⟩
  have last : (s.frames.init localFootprint).2.Has none (s.frames.init localFootprint).1 :=
    ⟨by simp, by simp [FrameTable.init, FrameTable.newLocals]⟩
  refine ⟨fun _ housed => ⟨trivial, ?_, .grow grows rfl rfl fun l kept => ?_⟩, rfl⟩
  · refine ⟨last, housed.ordered, fun d member => (housed.forks d member).grow grows,
      fun d member => (housed.events d member).grow grows, fun d member => ?_,
      fun l kept => (housed.kept l kept).trans_le grows.arrays⟩
    obtain ⟨i, started, here⟩ := Array.mem_map.mp member
    simp only [start, Array.mem_append, Array.mem_replicate, List.mem_toArray, List.mem_singleton] at started
    rcases started with rfl | ⟨-, rfl⟩
    · cases here
      exact last
    · cases here
  · have inside : l.index < s.frames.arrays.size := housed.kept l kept
    simp [outline, start, FrameTable.init, FrameTable.locals, FrameTable.newLocals, Array.getElem?_push,
      Nat.ne_of_lt inside]

/-! Histories. -/

/-- What a client can ask for. The values and promises it names are whatever it has kept. -/
inductive ClientCall where
  | start (codeLength parameterFootprint localFootprint frameSize : Nat)
  | sizeRootMaps (maxStack : Nat)
  | changeRoots (change : RootLog → RootLog)
  | visitInstruction (ip : Nat)
  | startInstruction (ip : Nat)
  | instructionAddress (ip : Nat)
  | saveState
  | restoreState (f : ForkId)
  | startSubroutine
  | returnFromSubroutine (r : SubroutineId) (target : ValueId)
  | linkSubroutine (r : SubroutineId)
  | poolPromise (p : PromiseId)
  | poolWord (value : Int)
  | constant (value : Int) (kind : ValueKind)
  | promiseConstant (p : PromiseId) (kind : ValueKind)
  | address (p : PromiseId)
  | register (r : Register)
  | memory (base : ValueId) (kind : ValueKind) (displacement : Int) (index : Option ValueId) (scale : Nat)
  | pushSlot (kind : ValueKind)
  | push (footprint : Nat) (v : ValueId)
  | save (v : ValueId)
  | pop (footprint : Nat)
  | pushed
  | popped (words : Nat)
  | call (target : ValueId) (flags : CallFlags) (trace : Option TraceId) (resultSize : Nat)
    (kind : ValueKind) (arguments : List ValueId)
  | stackCall (target : ValueId) (flags : CallFlags) (trace : Option TraceId) (resultSize : Nat)
    (kind : ValueKind) (footprint : Nat)
  | leave (value : Option ValueId)
  | declareLocal (footprint index : Nat) (kind : ValueKind)
  | redeclareLocals (ip : Nat)
  | storeLocal (footprint : Nat) (v : ValueId) (index : Nat)
  | saveLocals
  | checkBounds (object : ValueId) (lengthOffset : Nat) (index : ValueId) (handler : Int)
  | store (size : Nat) (src : ValueId) (dstSize : Nat) (dst : ValueId)
  | load (op : Binary) (size : Nat) (src : ValueId) (dstSize : Nat)
  | branch (op : Ternary) (size : Nat) (a b target : ValueId)
  | jump (target : ValueId)
  | exit (target : ValueId)
  | combine (op : Ternary) (size : Nat) (a b : ValueId)
  | convert (op : Binary) (size resultSize : Nat) (a : ValueId)
  | barrier (op : Nullary)
  | compile (handler : Option Int) (limitOffset : Nat)

namespace ClientCall

def run : ClientCall → Build Unit
  | start codeLength parameterFootprint localFootprint frameSize =>
    modify (·.start codeLength parameterFootprint localFootprint frameSize)
  | sizeRootMaps maxStack => Method.sizeRootMaps maxStack
  | changeRoots change => modify fun s => { s with roots := change s.roots }
  | visitInstruction ip => Method.visitInstruction ip
  | startInstruction ip => Method.startInstruction ip
  | instructionAddress ip => discard (Method.instructionAddress ip)
  | saveState => discard Method.saveState
  | restoreState f => Method.restoreState f
  | startSubroutine => discard Method.startSubroutine
  | returnFromSubroutine r target => Method.returnFromSubroutine r target
  | linkSubroutine r => Method.linkSubroutine r
  | poolPromise p => discard (Method.poolPromise p)
  | poolWord value => discard (Method.poolWord value)
  | constant value kind => discard (Method.constant value kind)
  | promiseConstant p kind => discard (Method.promiseConstant p kind)
  | address p => discard (Method.address p)
  | register r => discard (Method.register r)
  | memory base kind displacement index scale =>
    discard (Method.memory base kind displacement index scale)
  | pushSlot kind => discard (Method.pushSlot kind)
  | push footprint v => Method.push footprint v
  | save v => Method.save v
  | pop footprint => discard (Method.pop footprint)
  | pushed => discard Method.pushed
  | popped words => Method.popped words
  | call target flags trace resultSize kind arguments =>
    discard (Method.call target flags trace resultSize kind arguments)
  | stackCall target flags trace resultSize kind footprint =>
    discard (Method.stackCall target flags trace resultSize kind footprint)
  | leave value => Method.leave value
  | declareLocal footprint index kind => discard (Method.declareLocal footprint index kind)
  | redeclareLocals ip => Method.redeclareLocals ip
  | storeLocal footprint v index => Method.storeLocal footprint v index
  | saveLocals => Append.saveLocals
  | checkBounds object lengthOffset index handler => Method.checkBounds object lengthOffset index handler
  | store size src dstSize dst => Method.store size src dstSize dst
  | load op size src dstSize => discard (Method.load op size src dstSize)
  | branch op size a b target => Method.branch op size a b target
  | jump target => Method.jump target
  | exit target => Method.exit target
  | combine op size a b => discard (Method.combine op size a b)
  | convert op size resultSize a => discard (Method.convert op size resultSize a)
  | barrier op => Append.barrier op
  | compile handler limitOffset => Compile.method handler limitOffset

def Declares : ClientCall → Prop
  | declareLocal .. => True
  | _ => False

def appends (s : State) : ClientCall → List PromiseId
  | poolPromise p => [p]
  | poolWord _ => [⟨s.promises.size⟩]
  | _ => []

def Plain : ClientCall → Prop
  | declareLocal .. | poolPromise _ | poolWord _ => False
  | _ => True

theorem follows (c : ClientCall) (plain : c.Plain) : c.run.Follows K fun _ => True := by
  cases c with
  | start => exact .modify fun _ => followsStart ..
  | sizeRootMaps maxStack => exact Method.followsSizeRootMaps maxStack
  | changeRoots change => exact .modify fun _ => .plain rfl rfl
  | visitInstruction ip => exact Method.followsVisitInstruction ip
  | startInstruction ip => exact Method.followsStartInstruction ip
  | instructionAddress ip => exact .discard (.modifyGet fun _ => followsPromise _)
  | saveState => exact .discard Method.followsSaveState
  | restoreState f => exact Method.followsRestoreState f
  | startSubroutine => exact .discard Method.followsStartSubroutine
  | returnFromSubroutine r address => exact Method.followsReturnFromSubroutine r address
  | linkSubroutine r => exact Method.followsLinkSubroutine r
  | poolPromise | poolWord | declareLocal => exact plain.elim
  | constant value kind => exact .discard (Method.followsConstant value kind)
  | promiseConstant p kind => exact .discard (.modifyGet fun _ => Method.followsNewValueAt ..)
  | address p => exact .discard (.modifyGet fun _ => Method.followsNewValueAt ..)
  | register r => exact .discard (.modifyGet fun _ => Method.followsNewValueAt ..)
  | memory => exact .discard (Method.followsWithResult _ fun _ => Append.followsMemory _)
  | pushSlot kind => exact .discard (Method.followsPushSlot kind)
  | push footprint v => exact Method.followsPushWords footprint v
  | save v => exact .modify fun _ => .plain rfl rfl
  | pop footprint => exact .discard (Method.followsPop footprint)
  | pushed => exact .discard Method.followsPushed
  | popped words => exact Method.followsPopped words
  | call => exact .discard (Method.followsWithResult _ fun _ => Append.followsCall ..)
  | stackCall => exact .discard (Method.followsWithResult _ fun _ => Append.followsCall ..)
  | leave value => exact Append.followsLeave value
  | redeclareLocals ip => exact Method.followsRedeclareLocals ip
  | storeLocal footprint v index => exact Method.followsStoreLocal footprint v index
  | saveLocals => exact Append.followsSaveLocals
  | checkBounds => exact Append.followsBoundsCheck _
  | store => exact Append.followsMove _
  | load => exact .discard (.bind .get fun _ => Method.followsWithResult _ fun _ => Append.followsMove _)
  | branch => exact Append.followsBranch _
  | jump => exact Append.followsJump _
  | exit => exact Append.followsJump _
  | combine =>
    exact .discard (.bind .get fun _ => Method.followsWithResult _ fun _ => Append.followsCombine _)
  | convert =>
    exact .discard (.bind .get fun _ => Method.followsWithResult _ fun _ => Append.followsConvert _)
  | barrier op => exact Append.followsBarrier op
  | compile handler limitOffset => exact followsCompile handler limitOffset

structure Keeps (K : LocalsId → Prop) (s s' : State) (appended : List PromiseId) : Prop where
  housed : s'.outline.Housed K
  later : s.outline.Later K s'.outline
  pool : s'.pool = s.pool ++ appended

theorem keepsFollows {J : LocalsId → Prop} (follows : s.Follows K J s') (free : J s.locals)
    (housed : s.outline.Housed K) : Keeps K s s' [] := by
  obtain ⟨-, housed, later⟩ := follows.holds free housed
  exact ⟨housed, later, by rw [follows.pool, List.append_nil]⟩

theorem keepsPoolPromise (p : PromiseId) (housed : s.outline.Housed K) :
    Keeps K s (after (Method.poolPromise p) s) [p] := by
  have promised : State.Follows K (fun _ => True) { s with pool := s.pool ++ [p] }
    (after (Method.poolPromise p) s) := followsPromise _
  obtain ⟨-, housed, later⟩ := promised.holds trivial housed
  exact ⟨housed, later, rfl⟩

theorem step (c : ClientCall) (apart : c.Declares → ¬ K s.locals) (housed : s.outline.Housed K) :
    Keeps K s (after c.run s) (c.appends s) := by
  cases c with
  | declareLocal footprint index kind =>
    have own : (declareLocal footprint index kind).run.Follows K fun l => ¬ K l :=
      .discard (Method.followsDeclareLocal (fun _ => id) ..)
    exact keepsFollows (own.keeps s) (apart trivial) housed
  | poolPromise p => exact keepsPoolPromise p housed
  | poolWord value =>
    have first : Keeps K s (s.createPromise (.resolved value)).2 [] :=
      keepsFollows (J := fun _ => True) (followsPromise _) trivial housed
    obtain ⟨housed, later, pool⟩ := keepsPoolPromise ⟨s.promises.size⟩ first.housed
    exact ⟨housed, first.later.trans later, pool⟩
  | _ =>
    refine keepsFollows ((follows _ ?_).keeps s) trivial housed
    exact trivial

end ClientCall

namespace State

/-- The state after a client's calls. A call that fails leaves behind what it did until then. -/
def history (s : State) : List ClientCall → State
  | [] => s
  | c :: rest => (after c.run s).history rest

def Undeclared (K : LocalsId → Prop) (s : State) : List ClientCall → Prop
  | [] => True
  | c :: rest => (c.Declares → ¬ K s.locals) ∧ (after c.run s).Undeclared K rest

def appended (s : State) : List ClientCall → List PromiseId
  | [] => []
  | c :: rest => c.appends s ++ (after c.run s).appended rest

end State

theorem undeclaredNone {calls : List ClientCall} : s.Undeclared (fun _ => False) calls := by
  induction calls generalizing s with
  | nil => trivial
  | cons c rest ih => exact ⟨fun _ => id, ih⟩

theorem historyKeeps (calls : List ClientCall) (undeclared : s.Undeclared K calls)
    (housed : s.outline.Housed K) : ClientCall.Keeps K s (s.history calls) (s.appended calls) := by
  induction calls generalizing s with
  | nil => exact ⟨housed, .refl _, (List.append_nil _).symm⟩
  | cons c rest ih =>
    obtain ⟨housed, first, pool⟩ := c.step undeclared.1 housed
    obtain ⟨housed, later, pool'⟩ := ih undeclared.2 housed
    exact ⟨housed, first.trans later, by rw [appended, ← List.append_assoc, ← pool]; exact pool'⟩

theorem historyAppend (before after : List ClientCall) :
    s.history (before ++ after) = (s.history before).history after := by
  induction before generalizing s with
  | nil => rfl
  | cons c rest ih => exact ih

def State.fresh (machine : Description) (settings : Settings) (emitter : Emitter)
    (helpers : Option HelperAddress) : State :=
  { State.empty machine settings emitter with helpers }

def State.described (calls : List ClientCall) : State := (fresh (X64.describe {}) {} (.recording {}) none).history calls

theorem housedFresh (machine : Description) (settings : Settings) (emitter : Emitter)
    (helpers : Option HelperAddress) :
    (fresh machine settings emitter helpers).outline.Housed fun _ => False where
  current := ⟨nofun, Nat.zero_lt_one⟩
  ordered _ inside := absurd inside (Nat.not_lt_zero _)
  forks _ member := absurd member (Array.not_mem_empty _)
  events _ member := by simp [fresh, State.empty, outline] at member
  entries _ member := by simp [fresh, State.empty, outline] at member
  kept _ kept := kept.elim

end Lowering
