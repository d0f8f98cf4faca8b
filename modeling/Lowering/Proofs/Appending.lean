import Lowering.Proofs.Client
/-!
What appending keeps to.

The calls that neither save a state nor go back to one make values and append operations, and nothing
else. An operation gives reads to the values it uses. So a relation that allows for new values, for reads
and for operations holds between the states before and after any such call.
-/
namespace Lowering

open Build State

variable {α β : Type} {s s' t : State} {named : Register → Prop}

def State.Quiet (s s' : State) : Prop :=
  s' = { s with
    frames := s'.frames, stack := s'.stack, locals := s'.locals, saved := s'.saved, promises := s'.promises
    pool := s'.pool, statistics := s'.statistics, roots := s'.roots, subroutines := s'.subroutines
    subroutine := s'.subroutine }

def Site.Nameable (named : Register → Prop) : Site → Prop
  | .register mask number => ∃ n, number = some n ∧ mask = RegisterSet.single n ∧ named n
  | .memory _ _ => False
  | _ => True

/-- What relations have to allow for appending to keep to them: `Q` for the reads of an operation and `R` for
all else. -/
structure Suits (named : Register → Prop) (Q R : State → State → Prop) [Std.Refl Q] [Trans Q Q Q] [Std.Refl R]
    [Trans R R R] : Prop where
  weaken : ∀ {s s'}, Q s s' → R s s'
  quiet : ∀ {s s'}, s.Quiet s' → Q s s'
  home : ∀ (s : State) (v : ValueId) (home : Nat), Q s (s.modifyValue v fun d => { d with home := some home })
  demand : ∀ (e : EventId) (v : ValueId) (mask : SiteMask) (successor : Option ValueId),
    Within Q (demand e v mask successor)
  call : ∀ (e : EventId) (f : CallEvent → CallEvent), Within Q (Append.updateCall e f)
  value : ∀ (s : State) (kind : ValueKind), R s (s.newValue kind).2
  valueAt : ∀ (s : State) (kind : ValueKind) {site : Site}, site.Nameable named → R s (s.newValueAt kind site).2
  operation : ∀ {kind : EventKind} {reads : EventId → Build Unit},
    (∀ b, kind = .branch b → b.op.isBranch = true) → (∀ e, Within Q (reads e)) → Within R (Append.operation kind reads)

theorem instructionWithin {R : State → State → Prop} [Std.Refl R] [Trans R R R] (ip : Int) :
    Within R (instructionAt ip) := by
  refine .bind .get fun s => ?_
  split
  · exact .pure
  · exact .throw

theorem topWithin {R : State → State → Prop} [Std.Refl R] [Trans R R R] : Within R Method.top := by
  refine .bind .get fun s => ?_
  split
  · exact .pure
  · exact .throw

theorem localSlotWithin {R : State → State → Prop} [Std.Refl R] [Trans R R R] (footprint index : Nat) :
    Within R (Method.localSlot footprint index) :=
  .bind .get fun _ => .ite (.bind .throw fun _ => .pure) .pure

theorem integerFormBranch {op compare : Ternary} (form : op.integerForm? = some compare) : compare.isBranch = true := by
  cases op <;> cases form <;> rfl

namespace Suits

variable {Q R : State → State → Prop} [Std.Refl Q] [Trans Q Q Q] [Std.Refl R] [Trans R R R] (suits : Suits named Q R)

include suits

theorem reads {act : Build α} (within : Within Q act) : Within R act := within.mono suits.weaken

theorem quiets {f : State → State} (quiet : ∀ s : State, s.Quiet (f s)) : Within Q (modify f) :=
  .modify fun s => suits.quiet (quiet s)

theorem promise (kind : PromiseKind) : Within Q (modifyGet (·.createPromise kind) : Build PromiseId) :=
  .modifyGet fun _ => suits.quiet rfl

/-! Appending operations. -/

theorem demandLocals (e : EventId) : Within Q (Append.demandLocals e) := by
  refine .bind .get fun s => .forM fun ⟨v, _⟩ => ?_
  cases v with
  | some _ => exact .bind .get fun _ => suits.demand ..
  | none => exact .pure

theorem demandStackArgument (e : EventId) (tail : Bool) (footprint : Nat) (v : ValueId) (i : Nat) :
    Within Q (Append.demandStackArgument e tail footprint v i) := by
  refine .bind .get fun s => ?_
  dsimp only
  refine .ite (.bind (suits.call ..) fun _ => suits.demand ..) (.ite ?_ (.ite ?_ .throw))
  · exact .bind (suits.call ..) fun _ => suits.demand ..
  · exact suits.demand ..

theorem demandStackArguments (e : EventId) (tail : Bool) (footprint : Nat) :
    Within Q (Append.demandStackArguments e tail footprint) := by
  refine .bind .get fun s => ?_
  split
  · exact .throw
  · refine .bind (.forM fun ⟨v, _⟩ => ?_) fun _ => .pure
    cases v with
    | some _ => exact suits.demandStackArgument ..
    | none => exact .pure

theorem demandSurvivors (e : EventId) (footprint : Nat) (below : Option StackId) :
    Within Q (Append.demandSurvivors e footprint below) := by
  have rest : ∀ (s : State) (argumentIndex popIndex : Nat),
      Within Q (Append.demandBelow e below s argumentIndex popIndex) := by
    intro s argumentIndex popIndex
    refine .bind (suits.call ..) fun _ => .bind (.forM fun node => ?_) fun _ => suits.demandLocals e
    split
    · exact .bind .get fun _ => suits.demand ..
    · exact .pure
  refine .bind .get fun s => ?_
  dsimp only
  exact .ite (.bind .throw fun _ => rest ..) (rest ..)

theorem calls (address : ValueId) (flags : CallFlags) (trace : Option TraceId) (result : ValueId) (resultSize : Nat)
    (arguments : List ValueId) (footprint : Nat) :
    Within R (Append.call address flags trace result resultSize arguments footprint) := by
  have rest : Within R (do
      let tail := (← get).settings.tailCalls && flags.tailJump
      Append.operation (.call { address, flags, trace, result, resultSize
                                argumentFootprint := footprint, tail }) fun e => do
        let registers ← Append.demandArguments e arguments
        let op : Unary := if flags.aligned then .alignedCall else .call
        let plan := (← get).machine.planUnary op wordSize
        Lowering.demand e address ⟨plan.mask.kinds, plan.mask.registers &&& registers, .any⟩ none
        let below ← Append.demandStackArguments e tail footprint
        if !tail then Append.demandSurvivors e footprint below : Build Unit) := by
    refine .bind .get fun s => suits.operation nofun fun e => ?_
    have arguments : Within Q (Append.demandArguments e arguments) :=
      .bind .get fun _ => .bind (.forM fun _ => suits.demand ..) fun _ => .pure
    refine .bind arguments fun _ => .bind .get fun _ => .bind (suits.demand ..) fun _ => ?_
    exact .bind (suits.demandStackArguments ..) fun below => .ite (suits.demandSurvivors ..) .pure
  exact .ite (.bind .throw fun _ => rest) rest

theorem helperCall (op : Operation) (size resultSize : Nat) (arguments : List ValueId) (result : ValueId) :
    Within R (Append.helperCall op size resultSize arguments result) := by
  refine .bind .get fun s => ?_
  split
  · exact .throw
  · refine .bind (suits.reads (suits.quiets fun _ => rfl)) fun _ => .bind (suits.reads (suits.promise _)) fun p => ?_
    exact .bind (.modifyGet fun s => suits.valueAt s _ trivial) fun _ => suits.calls ..

theorem leave (value : Option ValueId) : Within R (Append.leave value) := by
  refine suits.operation nofun fun e => ?_
  split
  · exact .bind .get fun _ => suits.demand ..
  · exact .pure

theorem move (m : MoveEvent) : Within R (Append.move m) := by
  have rest : ∀ mask, Within R (Append.operation (.move m) fun e =>
      Lowering.demand e m.src mask (if m.size ≥ m.dstSize then some m.dst else none)) :=
    fun _ => suits.operation nofun fun _ => suits.demand ..
  exact .bind .get fun s => .ite (.bind .throw fun _ => rest _) (rest _)

theorem combine (c : CombineEvent) : Within R (Append.combine c) := by
  refine .bind .get fun s => .ite (suits.helperCall ..) (suits.operation nofun fun e => ?_)
  exact .bind (suits.demand ..) fun _ => suits.demand ..

theorem convert (t : ConvertEvent) : Within R (Append.convert t) :=
  .bind .get fun _ => .ite (suits.helperCall ..) (suits.operation nofun fun _ => suits.demand ..)

theorem branch {b : BranchEvent} (branches : b.op.isBranch = true) : Within R (Append.branch b) := by
  have direct : ∀ b : BranchEvent, b.op.isBranch = true → Within R (Append.directBranch b) := by
    intro b branches
    have rest : ∀ first second target : SiteMask, Within R (Append.operation (.branch b) fun e => do
        Lowering.demand e b.first first none
        Lowering.demand e b.second second none
        Lowering.demand e b.address target none) := by
      refine fun first second target => suits.operation (fun c same => ?_) fun _ => ?_
      · cases same
        exact branches
      · exact .bind (suits.demand ..) fun _ => .bind (suits.demand ..) fun _ => suits.demand ..
    exact .bind .get fun _ => .ite (.bind .throw fun _ => rest ..) (rest ..)
  refine .bind .get fun s => ?_
  dsimp only
  split
  · rename_i compare _ form
    refine .bind (.modifyGet fun s => suits.value s _) fun result => .bind (suits.helperCall ..) fun _ => ?_
    refine .bind (suits.reads (suits.promise _)) fun p => .bind (.modifyGet fun s => suits.valueAt s _ trivial) fun zero => ?_
    exact direct _ (integerFormBranch form)
  · exact direct b branches

theorem jump (j : JumpEvent) : Within R (Append.jump j) := by
  have rest : ∀ mask, Within R (Append.operation (.jump j) fun e => Lowering.demand e j.address mask none) :=
    fun _ => suits.operation nofun fun _ => suits.demand ..
  exact .bind .get fun _ => .ite (.bind .throw fun _ => rest _) (rest _)

theorem memory (m : MemoryEvent) : Within R (Append.memory m) := by
  refine suits.operation nofun fun e => .bind .get fun _ => .bind (suits.demand ..) fun _ => ?_
  split
  · exact .bind .get fun _ => suits.demand ..
  · exact .pure

theorem boundsCheck (b : BoundsCheckEvent) : Within R (Append.boundsCheck b) :=
  suits.operation nofun fun _ => .bind .get fun _ => .bind (suits.demand ..) fun _ => .bind .get fun _ => suits.demand ..

theorem frameSite (v : ValueId) (index : Nat) : Within R (Append.frameSite v index) := suits.operation nofun fun _ => .pure

theorem join (v copy : ValueId) : Within R (Append.join v copy) := suits.operation nofun fun _ => suits.demand ..

theorem saveLocals : Within R Append.saveLocals := suits.operation nofun suits.demandLocals

/-! The operand stack and the locals. -/

theorem withResult (kind : ValueKind) {act : ValueId → Build Unit} (within : ∀ v, Within R (act v)) :
    Within R (Method.withResult kind act) :=
  .bind (.modifyGet fun s => suits.value s kind) fun v => .bind (within v) fun _ => .pure

theorem withoutHome (v : ValueId) : Within R (Method.withoutHome v) := by
  refine .bind .get fun s => .ite .pure (.bind (.modifyGet fun s => suits.value s _) fun copy => ?_)
  exact .bind (suits.join ..) fun _ => .pure

theorem pushValue (v : ValueId) : Within R (Method.pushValue v) := by
  refine .modify fun s => suits.weaken ?_
  have pushed : Q s { s with stack := some (s.frames.push (some v) s.stack).1, frames := (s.frames.push (some v) s.stack).2 } :=
    suits.quiet rfl
  exact Trans.trans pushed (suits.home ..)

theorem push (footprint : Nat) (v : ValueId) : Within R (Method.push footprint v) := by
  have last : Within R (do Method.pushValue (← Method.withoutHome v) : Build Unit) :=
    .bind (suits.withoutHome v) suits.pushValue
  unfold Method.push
  split
  · exact last
  · exact .bind (suits.reads (suits.quiets fun _ => rfl)) fun _ => last
  · exact .bind .throw fun _ => last

theorem popped (words : Nat) : Within R (Method.popped words) := by
  have drops : ∀ node : StackNode, Within R (modify fun s => { s with stack := node.next } : Build Unit) :=
    fun node => suits.reads (suits.quiets fun _ => rfl)
  have word : Within R Method.popWord := by
    refine .bind topWithin fun node => ?_
    split
    · exact .bind .get fun s => .ite (.bind .throw fun _ => drops node) (drops node)
    · exact drops node
  induction words with
  | zero => exact .pure
  | succ words ih => exact .bind word fun _ => ih

theorem pop (footprint : Nat) : Within R (Method.pop footprint) := by
  refine .bind topWithin fun node => .bind (suits.popped _) fun _ => ?_
  split
  · exact .pure
  · exact .throw

theorem pushed : Within R Method.pushed := by
  refine .bind (.modifyGet fun s => suits.value s _) fun v => .bind .get fun s => ?_
  exact .bind (suits.frameSite ..) fun _ => .bind (suits.pushValue v) fun _ => .pure

theorem setLocal (slot : Nat) (v : ValueId) : Within R (Method.setLocal slot v) := by
  refine .modify fun s => suits.weaken ?_
  have set : Q s { s with frames := s.frames.setLocal s.locals slot (some v) } := suits.quiet rfl
  exact Trans.trans set (suits.home ..)

theorem declareLocal (footprint index : Nat) (kind : ValueKind) : Within R (Method.declareLocal footprint index kind) := by
  refine .bind (localSlotWithin ..) fun slot => .bind (.modifyGet fun s => suits.value s _) fun v => .bind .get fun _ => ?_
  exact .bind (suits.frameSite ..) fun _ => .bind (suits.setLocal ..) fun _ => .pure

theorem declareMissing : Within R Method.declareMissing := by
  refine .bind (suits.reads (suits.quiets fun _ => rfl)) fun _ => .bind .get fun _ => .forM fun i => .bind .get fun s => ?_
  exact .ite (.discard (suits.declareLocal ..)) .pure

theorem redeclareLocals (ip : Nat) : Within R (Method.redeclareLocals ip) := by
  refine .bind (suits.reads (suits.quiets fun _ => rfl)) fun _ => .bind (instructionWithin _) fun i => ?_
  split
  · exact .throw
  · refine .bind .get fun s => .forM fun ⟨v, i⟩ => ?_
    cases v with
    | none => exact .pure
    | some v => exact .discard (suits.declareLocal ..)

theorem storeLocal (footprint : Nat) (v : ValueId) (index : Nat) : Within R (Method.storeLocal footprint v index) := by
  refine .bind (localSlotWithin ..) fun slot => .bind (suits.reads (suits.quiets fun _ => rfl)) fun _ => ?_
  have set : Within R (do Method.setLocal slot (← Method.withoutHome v) : Build Unit) :=
    .bind (suits.withoutHome v) fun _ => suits.setLocal ..
  exact .ite (.bind (suits.reads (suits.quiets fun _ => rfl)) fun _ => set) set

end Suits

namespace ClientCall

def IsPlain : ClientCall → Prop
  | start .. | visitInstruction _ | startInstruction _ | saveState | restoreState _ | returnFromSubroutine ..
  | linkSubroutine _ | compile .. => False
  | _ => True

/-- The register asked for is one of `named`, and what is to branch is a branch. -/
def Fits (named : Register → Prop) : ClientCall → Prop
  | register n => named n
  | branch op .. => op.isBranch = true
  | _ => True

end ClientCall

theorem Suits.plain {Q R : State → State → Prop} [Std.Refl Q] [Trans Q Q Q] [Std.Refl R] [Trans R R R]
    (suits : Suits named Q R) {c : ClientCall} (plain : c.IsPlain) (fits : c.Fits named) : Within R c.run := by
  have quiets : ∀ {f : State → State}, (∀ s : State, s.Quiet (f s)) → Within R (modify f) := fun quiet =>
    suits.reads (suits.quiets quiet)
  cases c with
  | start | visitInstruction | startInstruction | saveState | restoreState | returnFromSubroutine | linkSubroutine
  | compile => exact plain.elim
  | sizeRootMaps | changeRoots | save => exact quiets fun _ => rfl
  | instructionAddress => exact .discard (suits.reads (suits.promise _))
  | startSubroutine => exact .discard (.modifyGet fun _ => suits.weaken (suits.quiet rfl))
  | poolPromise => exact .discard (.modifyGet fun _ => suits.weaken (suits.quiet rfl))
  | poolWord =>
    exact .discard (.bind (suits.reads (suits.promise _)) fun _ => .modifyGet fun _ => suits.weaken (suits.quiet rfl))
  | constant => exact .discard (.bind (suits.reads (suits.promise _)) fun _ => .modifyGet fun s => suits.valueAt s _ trivial)
  | promiseConstant | address => exact .discard (.modifyGet fun s => suits.valueAt s _ trivial)
  | register n => exact .discard (.modifyGet fun s => suits.valueAt s _ ⟨n, rfl, rfl, fits⟩)
  | memory => exact .discard (suits.withResult _ fun _ => suits.memory _)
  | pushSlot => exact .discard (.bind (.modifyGet fun s => suits.value s _) fun v => .bind (suits.pushValue v) fun _ => .pure)
  | push => exact suits.push ..
  | pop => exact .discard (suits.pop _)
  | pushed => exact .discard suits.pushed
  | popped => exact suits.popped _
  | call | stackCall => exact .discard (suits.withResult _ fun _ => suits.calls ..)
  | leave => exact suits.leave _
  | declareLocal => exact .discard (suits.declareLocal ..)
  | redeclareLocals => exact suits.redeclareLocals _
  | storeLocal => exact suits.storeLocal ..
  | saveLocals => exact suits.saveLocals
  | checkBounds => exact suits.boundsCheck _
  | store => exact suits.move _
  | load => exact .discard (.bind .get fun _ => suits.withResult _ fun _ => suits.move _)
  | branch => exact suits.branch fits
  | jump | exit => exact suits.jump _
  | combine => exact .discard (.bind .get fun _ => suits.withResult _ fun _ => suits.combine _)
  | convert => exact .discard (.bind .get fun _ => suits.withResult _ fun _ => suits.convert _)
  | barrier => exact suits.operation nofun fun _ => .pure

end Lowering
