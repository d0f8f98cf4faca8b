import Lowering.Method.Finish
import Lowering.Method.Operations
import Lowering.Proofs.Settling
import Lowering.Proofs.Merging
/-!
What describing a method keeps.

A client builds a method by calls, each of which may fail half way. Frames are shared by number: stack
nodes, saved frames and promises are only ever added, and an array of locals changes only where a local
is declared in it. So a relation between the states before and after is shown for
every call, and by induction for any sequence of them, compiling included.
-/
namespace Lowering

open Build State

variable {α β : Type} {s s' : State} {K I : LocalsId → Prop}

namespace FrameTable

structure Has (t : FrameTable) (stack : Option StackId) (locals : LocalsId) : Prop where
  stack : ∀ n ∈ stack, n.index < t.nodes.size
  locals : locals.index < t.arrays.size

structure Grows (t t' : FrameTable) : Prop where
  nodes : t.nodes.size ≤ t'.nodes.size
  node : ∀ n : StackId, n.index < t.nodes.size → t'.node n = t.node n
  arrays : t.arrays.size ≤ t'.arrays.size

variable {t t' t'' : FrameTable}

theorem Grows.refl (t : FrameTable) : Grows t t := ⟨le_rfl, fun _ _ => rfl, le_rfl⟩

theorem Grows.trans (first : Grows t t') (second : Grows t' t'') : Grows t t'' :=
  ⟨first.nodes.trans second.nodes, fun n inside =>
    (second.node n (inside.trans_le first.nodes)).trans (first.node n inside),
    first.arrays.trans second.arrays⟩

def Ordered (t : FrameTable) : Prop :=
  ∀ n : StackId, n.index < t.nodes.size → ∀ m ∈ (t.node n).next, m.index < n.index

theorem Has.grow {stack : Option StackId} {l : LocalsId} (has : Has t stack l) (grows : Grows t t') :
    Has t' stack l :=
  ⟨fun n member => (has.stack n member).trans_le grows.nodes, has.locals.trans_le grows.arrays⟩

theorem Grows.walk (grows : Grows t t') (ordered : t.Ordered) (fuel : Nat) {stack : Option StackId}
    (has : ∀ n ∈ stack, n.index < t.nodes.size) : t'.walk fuel stack = t.walk fuel stack := by
  induction fuel generalizing stack with
  | zero => simp only [FrameTable.walk]
  | succ fuel ih =>
    cases stack with
    | none => simp only [FrameTable.walk]
    | some n =>
      have inside := has n rfl
      have rest : t'.walk fuel (t.node n).next = t.walk fuel (t.node n).next :=
        ih fun m member => (ordered n inside m member).trans inside
      simp only [FrameTable.walk, grows.node n inside, rest]

theorem Grows.stackNodes (grows : Grows t t') (ordered : t.Ordered) {stack : Option StackId}
    {l : LocalsId} (has : t.Has stack l) : t'.stackNodes stack = t.stackNodes stack := by
  have depth : t'.depth stack = t.depth stack := by
    cases stack with
    | none => rfl
    | some n => simp only [FrameTable.depth, grows.node n (has.stack n rfl)]
  rw [FrameTable.stackNodes, depth, grows.walk ordered _ has.stack, FrameTable.stackNodes]

theorem pushNode (t : FrameTable) (value : Option ValueId) (stack : Option StackId) (n : StackId) :
    (t.push value stack).2.node n =
      if n.index = t.nodes.size then ⟨t.depth stack, value, stack⟩ else t.node n := by
  simp only [push, node, Array.getD_eq_getD_getElem?, Array.getElem?_push]
  split <;> rfl

theorem growsPush (t : FrameTable) (value : Option ValueId) (stack : Option StackId) :
    Grows t (t.push value stack).2 := by
  refine ⟨by simp [push], fun n inside => ?_, le_rfl⟩
  rw [pushNode, if_neg (Nat.ne_of_lt inside)]

theorem Ordered.push {stack : Option StackId} {l : LocalsId} (ordered : t.Ordered)
    (has : t.Has stack l) (value : Option ValueId) : (t.push value stack).2.Ordered := by
  intro n inside m member
  rw [pushNode] at member
  have size : (t.push value stack).2.nodes.size = t.nodes.size + 1 := by simp [FrameTable.push]
  split at member
  · rename_i last
    exact last ▸ has.stack m member
  · exact ordered n (by omega) m member

end FrameTable

structure Outline where
  frames : FrameTable
  stack : Option StackId
  locals : LocalsId
  forks : Array Fork
  events : Array (Option StackId × LocalsId)
  entries : Array (Option (Option StackId × LocalsId))
  promises : List Promise

def State.outline (s : State) : Outline where
  frames := s.frames
  stack := s.stack
  locals := s.locals
  forks := s.forks
  events := s.events.map fun d => (d.stackBefore, d.localsBefore)
  entries := s.instructions.map (Option.map fun i => (i.stack, i.locals))
  promises := s.promises.promises

structure Outline.Housed (K : LocalsId → Prop) (o : Outline) : Prop where
  current : o.frames.Has o.stack o.locals
  ordered : o.frames.Ordered
  forks : ∀ d ∈ o.forks, o.frames.Has d.stack d.locals
  events : ∀ d ∈ o.events, o.frames.Has d.1 d.2
  entries : ∀ d, some d ∈ o.entries → o.frames.Has d.1 d.2
  kept : ∀ l, K l → l.index < o.frames.arrays.size

structure Outline.Later (K : LocalsId → Prop) (o o' : Outline) : Prop where
  frames : o.frames.Grows o'.frames
  forks : ∀ f : Nat, f < o.forks.size → o'.forks[f]? = o.forks[f]?
  promises : o.promises <+: o'.promises
  same : ∀ l, K l → o'.frames.locals l = o.frames.locals l

namespace Outline

variable {o o' o'' : Outline}

theorem Later.refl (o : Outline) : Later K o o :=
  ⟨.refl _, fun _ _ => rfl, List.prefix_rfl, fun _ _ => rfl⟩

theorem Later.trans (first : Later K o o') (second : Later K o' o'') : Later K o o'' where
  frames := first.frames.trans second.frames
  forks f inside := by
    have inside' : f < o'.forks.size := by
      have here := first.forks f inside
      rw [Array.getElem?_eq_getElem inside] at here
      exact (Array.getElem?_eq_some_iff.mp here).1
    exact (second.forks f inside').trans (first.forks f inside)
  promises := first.promises.trans second.promises
  same l kept := (second.same l kept).trans (first.same l kept)

theorem Later.still (frames : o'.frames = o.frames) (forks : o'.forks = o.forks)
    (promises : o'.promises = o.promises) : Later K o o' where
  frames := frames ▸ .refl _
  forks _ _ := by rw [forks]
  promises := promises ▸ List.prefix_rfl
  same _ _ := by rw [frames]

theorem Later.grow (grows : o.frames.Grows o'.frames) (forks : o'.forks = o.forks)
    (promises : o'.promises = o.promises)
    (same : ∀ l, K l → o'.frames.locals l = o.frames.locals l) : Later K o o' where
  frames := grows
  forks _ _ := by rw [forks]
  promises := promises ▸ List.prefix_rfl
  same := same

theorem Housed.grow (housed : Housed K o) (grows : o.frames.Grows o'.frames)
    (current : o'.frames.Has o'.stack o'.locals)
    (ordered : o'.frames.Ordered)
    (forks : o'.forks = o.forks) (events : o'.events = o.events) (entries : o'.entries = o.entries) :
    Housed K o' where
  current := current
  ordered := ordered
  forks d member := (housed.forks d (forks ▸ member)).grow grows
  events d member := (housed.events d (events ▸ member)).grow grows
  entries d member := (housed.entries d (entries ▸ member)).grow grows
  kept l kept := (housed.kept l kept).trans_le grows.arrays

end Outline

structure State.Follows (K I : LocalsId → Prop) (s s' : State) : Prop where
  holds : I s.locals → s.outline.Housed K →
    I s'.locals ∧ s'.outline.Housed K ∧ s.outline.Later K s'.outline
  pool : s'.pool = s.pool

namespace State.Follows

theorem refl (s : State) : s.Follows K I s := ⟨fun free housed => ⟨free, housed, .refl _⟩, rfl⟩

theorem trans {t : State} (first : s.Follows K I t) (second : t.Follows K I s') :
    s.Follows K I s' := by
  refine ⟨fun free housed => ?_, second.pool.trans first.pool⟩
  obtain ⟨free, housed, later⟩ := first.holds free housed
  obtain ⟨free, housed, later'⟩ := second.holds free housed
  exact ⟨free, housed, later.trans later'⟩

instance : Std.Refl (Follows K I) := ⟨refl⟩

instance : Trans (Follows K I) (Follows K I) (Follows K I) := ⟨trans⟩

theorem plain (same : s'.outline = s.outline) (pool : s'.pool = s.pool) : s.Follows K I s' := by
  have locals : s'.locals = s.locals := congrArg Outline.locals same
  exact ⟨fun free housed => ⟨locals ▸ free, same ▸ housed, same ▸ .refl _⟩, pool⟩

end State.Follows

abbrev Build.Follows (K I : LocalsId → Prop) (act : Build α) : Prop := Within (State.Follows K I) act

/-! Single changes. -/

theorem foldlSame {g : State → β} {xs : List α} {f : State → α → State}
    (round : ∀ (s : State) x, g (f s x) = g s) : g (xs.foldl f s) = g s := by
  induction xs generalizing s with
  | nil => rfl
  | cons x rest ih => rw [List.foldl_cons, ih, round]

theorem followsEvent (e : EventId) {f : Event → Event}
    (same : ∀ d, (f d).stackBefore = d.stackBefore ∧ (f d).localsBefore = d.localsBefore) :
    s.Follows K I (s.modifyEvent e f) :=
  .plain (by
    simp only [outline, modifyEvent]
    rw [mapModify fun d => by rw [(same d).1, (same d).2]]) rfl

theorem followsInstruction (ip : Nat) {f : Instruction → Instruction}
    (same : ∀ d, (f d).stack = d.stack ∧ (f d).locals = d.locals) :
    s.Follows K I { s with instructions := s.instructions.modify ip fun i => i.map f } :=
  .plain (by
    simp only [outline]
    rw [mapModify fun i => ?_]
    cases i with
    | none => rfl
    | some d => simp [(same d).1, (same d).2]) rfl

theorem followsPromise (kind : PromiseKind) : s.Follows K I (s.createPromise kind).2 :=
  ⟨fun free housed => ⟨free, ⟨housed.current, housed.ordered, housed.forks, housed.events,
    housed.entries, housed.kept⟩, ⟨.refl _, fun _ _ => rfl, List.prefix_append .., fun _ _ => rfl⟩⟩, rfl⟩

theorem followsNewEvent (kind : EventKind) : (createEvent kind).Follows K I := by
  refine .modifyGet fun s => ⟨fun free housed => ⟨free, ?_, .still rfl rfl rfl⟩, rfl⟩
  have events : ∀ d ∈ (s.events.push
      { kind, stackBefore := s.stack, localsBefore := s.locals, ip := s.ip }).map
      (fun d => (d.stackBefore, d.localsBefore)), s.frames.Has d.1 d.2 := by
    intro d member
    rw [Array.map_push, Array.mem_push] at member
    rcases member with old | rfl
    · exact housed.events d old
    · exact housed.current
  exact ⟨housed.current, housed.ordered, housed.forks, events, housed.entries, housed.kept⟩

theorem followsFrame {stack : Option StackId} {l : LocalsId} (free : I s.locals → I l)
    (has : s.outline.Housed K → s.frames.Has stack l) :
    s.Follows K I { s with stack, locals := l } :=
  ⟨fun old housed => ⟨free old, housed.grow (.refl _) (has housed) housed.ordered rfl rfl rfl,
    .still rfl rfl rfl⟩, rfl⟩

theorem followsPush (value : Option ValueId) : s.Follows K I
    { s with stack := some (s.frames.push value s.stack).1
             frames := (s.frames.push value s.stack).2 } := by
  refine ⟨fun free housed => ?_, rfl⟩
  have grows := s.frames.growsPush value s.stack
  refine ⟨free, housed.grow grows ⟨fun n member => ?_, housed.current.locals⟩
    (housed.ordered.push housed.current value) rfl rfl rfl, .grow grows rfl rfl fun _ _ => rfl⟩
  cases member
  simp [outline, FrameTable.push]

theorem Outline.Housed.newLocals (housed : s.outline.Housed K) (slots : List (Option ValueId)) :
    ¬ K (s.frames.newLocals slots).1 ∧
      State.Follows K (fun _ => True) s
        { s with locals := (s.frames.newLocals slots).1
                 frames := (s.frames.newLocals slots).2 } := by
  have grows : s.frames.Grows (s.frames.newLocals slots).2 :=
    ⟨le_rfl, fun _ _ => rfl, by simp [FrameTable.newLocals]⟩
  refine ⟨fun kept => Nat.lt_irrefl _ (housed.kept _ kept), ⟨fun _ _ => ⟨trivial, ?_, ?_⟩, rfl⟩⟩
  · refine housed.grow grows ⟨housed.current.stack, ?_⟩ housed.ordered rfl rfl rfl
    simp [outline, FrameTable.newLocals]
  · refine .grow grows rfl rfl fun l kept => ?_
    have inside : l.index < s.frames.arrays.size := housed.kept l kept
    simp [outline, FrameTable.locals, FrameTable.newLocals, Array.getElem?_push, Nat.ne_of_lt inside]

theorem followsSetLocal (free : ∀ l, I l → ¬ K l) (slot : Nat) (v : Option ValueId) :
    s.Follows K I { s with frames := s.frames.setLocal s.locals slot v } := by
  refine ⟨fun inside housed => ?_, rfl⟩
  have grows : s.frames.Grows (s.frames.setLocal s.locals slot v) :=
    ⟨le_rfl, fun _ _ => rfl, by simp [FrameTable.setLocal]⟩
  refine ⟨inside, housed.grow grows ⟨housed.current.stack, ?_⟩ housed.ordered rfl rfl rfl,
    .grow grows rfl rfl fun l kept => ?_⟩
  · exact housed.current.locals.trans_le grows.arrays
  · have other : s.locals.index ≠ l.index := by
      intro same
      have : s.locals = l := by cases l; cases h : s.locals; simp_all
      exact free _ inside (this ▸ kept)
    simp [outline, FrameTable.locals, FrameTable.setLocal, Array.getElem?_modify, other]

/-! The list of events. -/

theorem followsInstructionAt (ip : Int) : (instructionAt ip).Follows K I := by
  refine .bind .get fun s => ?_
  split
  · exact .pure
  · exact .throw

theorem followsModifyInstruction (ip : Int) {f : Instruction → Instruction}
    (same : ∀ d, (f d).stack = d.stack ∧ (f d).locals = d.locals) :
    (modifyInstruction ip f).Follows K I :=
  .bind (.discard (followsInstructionAt ip)) fun _ => .modify fun _ => followsInstruction _ same

theorem followsNewLink (predecessor successor : EventId) (fork : Option ForkId) :
    s.Follows K I (s.newLink predecessor successor fork).2 := by
  unfold newLink
  refine .trans ?_ (followsEvent predecessor fun _ => ⟨rfl, rfl⟩)
  refine .trans ?_ (followsEvent successor fun _ => ⟨rfl, rfl⟩)
  exact .plain rfl rfl

theorem followsLinkEvent (e : EventId) : (linkEvent e).Follows K I := by
  refine .bind (.modify fun s => ?_) fun _ => .bind (.modify fun _ => .plain rfl rfl) fun _ => ?_
  · split
    · exact followsEvent _ fun _ => ⟨rfl, rfl⟩
    · exact .plain rfl rfl
  refine .bind (.modify fun s => ?_) fun _ => .bind (.modify fun _ => .plain rfl rfl) fun _ => ?_
  · split
    · exact followsNewLink ..
    · exact .refl s
  exact .bind .get fun s => followsModifyInstruction _ fun _ => ⟨rfl, rfl⟩

theorem Outline.Housed.entry (housed : s.outline.Housed K) {ip : Int} {i : Instruction}
    (here : s.instruction? ip = some i) : s.frames.Has i.stack i.locals := by
  unfold instruction? at here
  split at here
  · cases here
  · refine housed.entries (i.stack, i.locals) ?_
    rw [Array.getD_eq_getD_getElem?] at here
    cases started : s.instructions[(ip + 1).toNat]? with
    | none => simp [started] at here
    | some d =>
      have same : d = some i := by simpa [started] using here
      refine Array.mem_map.mpr ⟨d, Array.mem_of_getElem? started, ?_⟩
      rw [same]
      rfl

theorem afterEnsuring {act : Build α} {g : State → State} :
    after (ensuring act g) s = g (after act s) := by
  simp only [after, ensuring]
  cases act s <;> rfl

def appendDummyIn (stack : Option StackId) (l : LocalsId) (entry : Instruction) : Build Unit := do
  modify fun s => { s with stack := entry.stack, locals := entry.locals }
  ensuring (do linkEvent (← createEvent .dummy)) fun s => { s with stack, locals := l }

theorem afterAppendDummy (s : State) :
    after appendDummy s = after (instructionAt s.ip >>= appendDummyIn s.stack s.locals) s := by
  simp only [after, appendDummy, getBind]
  rfl

theorem afterAppendDummyIn {stack : Option StackId} {l : LocalsId} {entry : Instruction} :
    after (appendDummyIn stack l entry) s =
      { after (do linkEvent (← createEvent .dummy))
          { s with stack := entry.stack, locals := entry.locals } with stack, locals := l } := by
  rw [appendDummyIn, afterModify, afterEnsuring]

theorem followsAppendDummy : appendDummy.Follows K I := by
  constructor
  intro s
  rw [afterAppendDummy]
  cases here : s.instruction? s.ip with
  | none =>
    have failed : instructionAt s.ip s = .error (.invariant (.notStarted s.ip)) s := by
      rw [instructionAt, getBind, here]
      rfl
    rw [afterBindError failed]
    exact .refl s
  | some entry =>
    have found : instructionAt s.ip s = .ok entry s := by
      rw [instructionAt, getBind, here]
      rfl
    rw [afterBindOk found, afterAppendDummyIn]
    have appends : Within (State.Follows K fun _ => True) (do linkEvent (← createEvent .dummy)) :=
      .bind (followsNewEvent _) followsLinkEvent
    have starts : s.Follows K (fun _ => True) { s with stack := entry.stack, locals := entry.locals } :=
      followsFrame (fun _ => trivial) fun housed => housed.entry here
    have appended := starts.trans (appends.keeps _)
    generalize after (do linkEvent (← createEvent .dummy)) { s with stack := entry.stack, locals := entry.locals } = t
      at appended ⊢
    refine ⟨fun free housed => ?_, appended.pool⟩
    obtain ⟨-, housed', later⟩ := appended.holds trivial housed
    exact ⟨free, housed'.grow (.refl _) (housed.current.grow later.frames) housed'.ordered rfl rfl rfl,
      later.trans (.still rfl rfl rfl)⟩

theorem followsEnsureEvent : ensureEvent.Follows K I :=
  .bind .get fun _ => .bind (followsInstructionAt _) fun _ => .ite followsAppendDummy .pure

theorem followsAppendEvent (e : EventId) : (appendEvent e).Follows K I := by
  refine .bind .get fun _ => .bind (followsInstructionAt _) fun _ => .bind .get fun _ => ?_
  exact .ite (.bind followsAppendDummy fun _ => followsLinkEvent e) (followsLinkEvent e)

/-! Reads. -/

def linkLast (v : ValueId) (r : ReadId) : Build Unit := do
  let s ← get
  match (s.value v).lastRead with
  | some last =>
    let (error, reads) := s.reads.append last r
    set { s with reads }
    match error with
    | some e => throw e
    | none => pure ()
  | none => set (s.modifyValue v fun d => { d with reads := some r })
  modify (·.modifyValue v fun d => { d with lastRead := some r })

theorem followsLinkRead (e : Option EventId) (v : ValueId) (r : ReadId) :
    (linkRead e v r).Follows K I := by
  have rest : (linkLast v r).Follows K I := by
    refine .read fun s => ?_
    cases (s.value v).lastRead with
    | none => exact .plain rfl rfl
    | some last =>
      dsimp only
      cases (s.reads.append last r).1 <;> exact .plain rfl rfl
  cases e with
  | none => exact rest
  | some e =>
    refine .bind (.modify fun s => ?_) fun _ => rest
    refine .trans ?_ (followsEvent e fun _ => ⟨rfl, rfl⟩)
    exact .plain rfl rfl

theorem followsDemand (e : EventId) (v : ValueId) (mask : SiteMask) (successor : Option ValueId) :
    (demand e v mask successor).Follows K I :=
  .bind (.modifyGet fun _ => .plain rfl rfl) fun _ => followsLinkRead ..

/-! Appending operations. Each gives its event reads, in a loop or one by one. -/

namespace Append

theorem followsOperation (kind : EventKind) {reads : EventId → Build Unit}
    (follows : ∀ e, (reads e).Follows K I) : (operation kind reads).Follows K I :=
  .bind (followsNewEvent kind) fun e => .bind (follows e) fun _ => followsAppendEvent e

theorem followsDemandLocals (e : EventId) : (demandLocals e).Follows K I := by
  refine .bind .get fun s => .forM fun ⟨v, _⟩ => ?_
  cases v with
  | some _ => exact .bind .get fun _ => followsDemand ..
  | none => exact .pure

theorem followsUpdateCall (e : EventId) (f : CallEvent → CallEvent) :
    (updateCall e f).Follows K I :=
  .modify fun s => followsEvent e fun d => by
    split <;> exact ⟨rfl, rfl⟩

theorem followsDemandArguments (e : EventId) (arguments : List ValueId) :
    (demandArguments e arguments).Follows K I :=
  .bind .get fun _ => .bind (.forM fun _ => followsDemand ..) fun _ => .pure

theorem followsDemandStackArgument (e : EventId) (tail : Bool) (footprint : Nat) (v : ValueId)
    (i : Nat) : (demandStackArgument e tail footprint v i).Follows K I := by
  refine .bind .get fun s => ?_
  dsimp only
  refine .ite (.bind (followsUpdateCall ..) fun _ => followsDemand ..) (.ite ?_ (.ite ?_ .throw))
  · exact .bind (followsUpdateCall ..) fun _ => followsDemand ..
  · exact followsDemand ..

theorem followsDemandStackArguments (e : EventId) (tail : Bool) (footprint : Nat) :
    (demandStackArguments e tail footprint).Follows K I := by
  refine .bind .get fun s => ?_
  split
  · exact .throw
  · refine .bind (.forM fun ⟨v, _⟩ => ?_) fun _ => .pure
    cases v with
    | some _ => exact followsDemandStackArgument ..
    | none => exact .pure

def demandBelow (e : EventId) (below : Option StackId) (s : State) (argumentIndex popIndex : Nat) : Build Unit := do
  updateCall e fun c => { c with argumentIndex, popIndex }
  (s.frames.stackNodes below).forM fun node =>
    match node.value with
    | some v => do demand e v (.slot ((← get).frameIndex (node.index + s.localFootprint))) none
    | none => pure ()
  demandLocals e

theorem followsDemandSurvivors (e : EventId) (footprint : Nat) (below : Option StackId) :
    (demandSurvivors e footprint below).Follows K I := by
  have rest : ∀ (s : State) (argumentIndex popIndex : Nat), (demandBelow e below s argumentIndex popIndex).Follows K I := by
    intro s argumentIndex popIndex
    refine .bind (followsUpdateCall ..) fun _ => .bind (.forM fun node => ?_) fun _ =>
      followsDemandLocals e
    split
    · exact .bind .get fun _ => followsDemand ..
    · exact .pure
  refine .bind .get fun s => ?_
  dsimp only
  exact .ite (.bind .throw fun _ => rest ..) (rest ..)

theorem followsCall (address : ValueId) (flags : CallFlags) (trace : Option TraceId)
    (result : ValueId) (resultSize : Nat) (arguments : List ValueId) (footprint : Nat) :
    (call address flags trace result resultSize arguments footprint).Follows K I := by
  have rest : (do
      let tail := (← get).settings.tailCalls && flags.tailJump
      operation (.call { address, flags, trace, result, resultSize
                         argumentFootprint := footprint, tail }) fun e => do
        let registers ← demandArguments e arguments
        let op : Unary := if flags.aligned then .alignedCall else .call
        let plan := (← get).machine.planUnary op wordSize
        demand e address ⟨plan.mask.kinds, plan.mask.registers &&& registers, .any⟩ none
        let below ← demandStackArguments e tail footprint
        if !tail then demandSurvivors e footprint below : Build Unit).Follows K I := by
    refine .bind .get fun s => followsOperation _ fun e => ?_
    refine .bind (followsDemandArguments ..) fun _ => .bind .get fun _ => ?_
    refine .bind (followsDemand ..) fun _ => .bind (followsDemandStackArguments ..) fun below => ?_
    exact .ite (followsDemandSurvivors ..) .pure
  exact .ite (.bind .throw fun _ => rest) rest

theorem followsHelperCall (op : Operation) (size resultSize : Nat) (arguments : List ValueId)
    (result : ValueId) : (helperCall op size resultSize arguments result).Follows K I := by
  refine .bind .get fun s => ?_
  split
  · exact .throw
  · refine .bind (.modify fun _ => .plain rfl rfl) fun _ => .bind (.modifyGet fun _ => followsPromise _) fun p => ?_
    exact .bind (.modifyGet fun _ => .plain rfl rfl) fun _ => followsCall ..

theorem followsLeave (value : Option ValueId) : (leave value).Follows K I := by
  refine followsOperation _ fun e => ?_
  split
  · exact .bind .get fun _ => followsDemand ..
  · exact .pure

theorem followsMove (m : MoveEvent) : (move m).Follows K I := by
  have rest : ∀ mask, (operation (.move m) fun e =>
      demand e m.src mask (if m.size ≥ m.dstSize then some m.dst else none)).Follows K I :=
    fun _ => followsOperation _ fun _ => followsDemand ..
  exact .bind .get fun s => .ite (.bind .throw fun _ => rest _) (rest _)

theorem followsCombine (c : CombineEvent) : (combine c).Follows K I := by
  refine .bind .get fun s => .ite (followsHelperCall ..) (followsOperation _ fun e => ?_)
  exact .bind (followsDemand ..) fun _ => followsDemand ..

theorem followsConvert (t : ConvertEvent) : (convert t).Follows K I :=
  .bind .get fun _ => .ite (followsHelperCall ..) (followsOperation _ fun _ => followsDemand ..)

theorem followsDirectBranch (b : BranchEvent) : (directBranch b).Follows K I := by
  have rest : ∀ first second target : SiteMask, (operation (.branch b) fun e => do
      demand e b.first first none
      demand e b.second second none
      demand e b.address target none).Follows K I := fun _ _ _ =>
    followsOperation _ fun _ => .bind (followsDemand ..) fun _ => .bind (followsDemand ..) fun _ =>
      followsDemand ..
  exact .bind .get fun _ => .ite (.bind .throw fun _ => rest ..) (rest ..)

theorem followsBranch (b : BranchEvent) : (branch b).Follows K I := by
  refine .bind .get fun s => ?_
  dsimp only
  split
  · refine .bind (.modifyGet fun _ => .plain rfl rfl) fun result => .bind (followsHelperCall ..) fun _ => ?_
    refine .bind (.modifyGet fun _ => followsPromise _) fun p => ?_
    exact .bind (.modifyGet fun _ => .plain rfl rfl) fun zero => followsDirectBranch _
  · exact followsDirectBranch b

theorem followsJump (j : JumpEvent) : (jump j).Follows K I := by
  have rest : ∀ mask, (operation (.jump j) fun e => demand e j.address mask none).Follows K I :=
    fun _ => followsOperation _ fun _ => followsDemand ..
  exact .bind .get fun _ => .ite (.bind .throw fun _ => rest _) (rest _)

theorem followsMemory (m : MemoryEvent) : (memory m).Follows K I := by
  refine followsOperation _ fun e => .bind .get fun _ => .bind (followsDemand ..) fun _ => ?_
  split
  · exact .bind .get fun _ => followsDemand ..
  · exact .pure

theorem followsBoundsCheck (b : BoundsCheckEvent) : (boundsCheck b).Follows K I :=
  followsOperation _ fun _ => .bind .get fun _ => .bind (followsDemand ..) fun _ =>
    .bind .get fun _ => followsDemand ..

theorem followsBarrier (op : Nullary) : (barrier op).Follows K I :=
  followsOperation _ fun _ => .pure

theorem followsFrameSite (v : ValueId) (index : Nat) : (frameSite v index).Follows K I :=
  followsOperation _ fun _ => .pure

theorem followsJoin (v copy : ValueId) : (join v copy).Follows K I :=
  followsOperation _ fun _ => followsDemand ..

theorem followsSaveLocals : saveLocals.Follows K I := followsOperation _ followsDemandLocals

end Append

end Lowering
