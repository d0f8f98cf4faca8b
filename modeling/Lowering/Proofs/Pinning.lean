import Lowering.Proofs.Scheduling
/-!
Where a call of the stack wants its arguments.

The topmost words of the stack are the arguments of the call, the last one on top. Their layout is worked out
from the top down, while the slots are numbered from the first argument up. A word without a value belongs to the
value next to it, but where the arguments end there may be such a word that belongs to no argument. So what is
shown by induction over the arguments is which words they are, for any stack below them.
-/
namespace Lowering

open Build State

variable {s s' t t' u : State} {e : EventId} {v w : ValueId} {r : ReadId} {α : Type}

/-! The frames of a list of arguments. -/

namespace FrameTable

variable {f f' : FrameTable} {base top : Option StackId} {arguments : List (Nat × ValueId)}

def argumentSlots (a : Nat × ValueId) : List (Option ValueId) := some a.2 :: List.replicate (a.1 - 1) none

def argumentFootprint (arguments : List (Nat × ValueId)) : Nat := (arguments.map (·.1)).sum

inductive Loaded (f : FrameTable) (base : Option StackId) : List (Nat × ValueId) → Option StackId → Prop
  | none : Loaded f base [] base
  | one {arguments below n v} (loaded : Loaded f base arguments below) (inside : n.index < f.nodes.size)
      (value : (f.node n).value = some v) (next : (f.node n).next = below) :
      Loaded f base (arguments ++ [(1, v)]) (some n)
  | two {arguments below m n v} (loaded : Loaded f base arguments below) (inside : n.index < f.nodes.size)
      (value : (f.node n).value = some v) (next : (f.node n).next = some m) (lower : m.index < f.nodes.size)
      (empty : (f.node m).value = none) (rest : (f.node m).next = below) :
      Loaded f base (arguments ++ [(2, v)]) (some n)

namespace Loaded

theorem grow (loaded : Loaded f base arguments top) (grows : f.Grows f') : Loaded f' base arguments top := by
  induction loaded with
  | none => exact .none
  | one _ inside value next ih =>
    rw [← grows.node _ inside] at value next
    exact .one ih (inside.trans_le grows.nodes) value next
  | two _ inside value next lower empty rest ih =>
    rw [← grows.node _ inside] at value next
    rw [← grows.node _ lower] at empty rest
    exact .two ih (inside.trans_le grows.nodes) value next (lower.trans_le grows.nodes) empty rest

theorem valued (loaded : Loaded f base arguments top) :
    (arguments = [] ∧ top = base) ∨
      (0 < argumentFootprint arguments ∧ (top.map f.node).any (·.value.isNone) = false) := by
  cases loaded with
  | none => exact .inl ⟨rfl, rfl⟩
  | one _ _ value _ => exact .inr ⟨by simp [argumentFootprint], by simp [value]⟩
  | two _ _ value _ _ _ _ => exact .inr ⟨by simp [argumentFootprint], by simp [value]⟩

/- By induction over the arguments from the last one back. Only above other arguments is there a word below that
is looked at, and that one has a value. -/
theorem words (loaded : Loaded f base arguments top) :
    Append.argumentWords f (argumentFootprint arguments) top = some (arguments.flatMap argumentSlots, base) := by
  induction loaded with
  | none => simp only [argumentFootprint, List.map_nil, List.sum_nil, Append.argumentWords, List.flatMap_nil]
  | @one arguments below n v loaded inside value next ih =>
    have total : argumentFootprint (arguments ++ [(1, v)]) = argumentFootprint arguments + 1 := by
      simp [argumentFootprint]
    rw [total, List.flatMap_append]
    rcases loaded.valued with ⟨rfl, rfl⟩ | ⟨more, above⟩
    · simp [argumentFootprint, Append.argumentWords, argumentSlots, value, next]
    · obtain ⟨k, here⟩ := Nat.exists_eq_add_of_lt more
      rw [Nat.zero_add] at here
      rw [here] at ih ⊢
      simp [Append.argumentWords, value, next, above, ih, argumentSlots]
  | @two arguments below m n v loaded inside value next lower empty rest ih =>
    have total : argumentFootprint (arguments ++ [(2, v)]) = argumentFootprint arguments + 2 := by
      simp [argumentFootprint]
    rw [total, List.flatMap_append]
    simp [Append.argumentWords, value, next, empty, rest, ih, argumentSlots]

end Loaded

end FrameTable

open FrameTable (argumentSlots argumentFootprint)

abbrev Pin := ValueId × Nat

def wordPin (word : Option ValueId × Nat) : Option Pin := word.1.map (·, word.2)

def argumentPins (arguments : List (Nat × ValueId)) : List Pin :=
  arguments.zipIdx.map fun (a, k) => (a.2, argumentFootprint (arguments.take k))

theorem slotPins (a : Nat × ValueId) (n : Nat) : ((argumentSlots a).zipIdx n).filterMap wordPin = [(a.2, n)] := by
  have empty : ∀ count n : Nat, ((List.replicate count none).zipIdx n).filterMap wordPin = [] := by
    intro count
    induction count with
    | zero => exact fun _ => rfl
    | succ count ih =>
      intro n
      simp only [List.replicate_succ, List.zipIdx_cons, List.filterMap_cons, wordPin, Option.map_none]
      exact ih (n + 1)
  simp only [argumentSlots, List.zipIdx_cons, List.filterMap_cons, wordPin, Option.map_some]
  rw [empty]

theorem wordPins (arguments : List (Nat × ValueId)) (wide : ∀ a ∈ arguments, 0 < a.1) (n : Nat) :
    ((arguments.flatMap argumentSlots).zipIdx n).filterMap wordPin =
      (argumentPins arguments).map fun p => (p.1, n + p.2) := by
  induction arguments generalizing n with
  | nil => rfl
  | cons a rest ih =>
    have length : (argumentSlots a).length = a.1 := by
      have positive := wide a List.mem_cons_self
      simp [argumentSlots]
      omega
    rw [List.flatMap_cons, List.zipIdx_append, List.filterMap_append, slotPins, length,
      ih fun b member => wide b (List.mem_cons_of_mem _ member)]
    simp [argumentPins, List.zipIdx_succ, argumentFootprint, Function.comp_def, Nat.add_assoc]

/-! Events that are left alone. -/

structure State.Adjoins (s s' : State) : Prop where
  links : s.Links s'
  stack : s'.stack = s.stack
  locals : s'.locals = s.locals
  size : s.events.size ≤ s'.events.size
  event : ∀ e, e.index < s.events.size →
    (s'.event e).kind = (s.event e).kind ∧ (s'.event e).reads = (s.event e).reads

namespace State.Adjoins

theorem refl (s : State) : s.Adjoins s := ⟨rfl, rfl, rfl, le_rfl, fun _ _ => ⟨rfl, rfl⟩⟩

theorem trans (first : s.Adjoins t) (second : t.Adjoins s') : s.Adjoins s' where
  links := Trans.trans first.links second.links
  stack := second.stack.trans first.stack
  locals := second.locals.trans first.locals
  size := first.size.trans second.size
  event e inside :=
    have later := second.event e (inside.trans_le first.size)
    have before := first.event e inside
    ⟨later.1.trans before.1, later.2.trans before.2⟩

instance : Std.Refl Adjoins := ⟨refl⟩

instance : Trans Adjoins Adjoins Adjoins := ⟨trans⟩

theorem still (links : s.Links s') (stack : s'.stack = s.stack) (locals : s'.locals = s.locals)
    (events : s'.events = s.events) : s.Adjoins s' :=
  ⟨links, stack, locals, by rw [events], fun e _ => by
    rw [State.event, events, State.event]
    exact ⟨rfl, rfl⟩⟩

theorem modifyEvent (s : State) (e : EventId) {f : Event → Event}
    (same : ∀ d, (f d).kind = d.kind ∧ (f d).reads = d.reads) : s.Adjoins (s.modifyEvent e f) := by
  refine ⟨rfl, rfl, rfl, by simp [State.modifyEvent], fun x _ => ?_⟩
  rw [eventModify]
  split
  · rename_i here
    rw [here.1]
    exact same _
  · exact ⟨rfl, rfl⟩

theorem newLink (s : State) (predecessor successor : EventId) (fork : Option ForkId) :
    s.Adjoins (s.newLink predecessor successor fork).2 := by
  unfold State.newLink
  refine .trans ?_ (modifyEvent _ predecessor fun _ => ⟨rfl, rfl⟩)
  refine .trans ?_ (modifyEvent _ successor fun _ => ⟨rfl, rfl⟩)
  exact still rfl rfl rfl rfl

end State.Adjoins

open State (Adjoins)

theorem adjoinsCreateEvent (kind : EventKind) : Within Adjoins (createEvent kind) := by
  refine .modifyGet fun s => ⟨rfl, rfl, rfl, by simp, fun e inside => ?_⟩
  have old := eventCreated (s := s) { kind, stackBefore := s.stack, localsBefore := s.locals, ip := s.ip } e
  rw [if_neg (Nat.ne_of_lt inside)] at old
  exact ⟨congrArg Event.kind old, congrArg Event.reads old⟩

theorem adjoinsLinkEvent (e : EventId) : Within Adjoins (linkEvent e) := by
  refine .bind (.modify fun s => ?_) fun _ => .bind (.modify fun _ => .still rfl rfl rfl rfl) fun _ =>
    .bind (.modify fun s => ?_) fun _ => ?_
  · cases s.lastEvent with
    | none => exact .still rfl rfl rfl rfl
    | some last => exact .modifyEvent s last fun _ => ⟨rfl, rfl⟩
  · cases s.predecessor with
    | none => exact .refl s
    | some p => exact .newLink ..
  · exact .bind (.modify fun _ => .still rfl rfl rfl rfl) fun _ => .bind .get fun _ =>
      .bind (.discard (instructionWithin _)) fun _ => .modify fun _ => .still rfl rfl rfl rfl

theorem adjoinsAppendDummy : Within Adjoins appendDummy := by
  refine ⟨fun s => ?_⟩
  rw [afterAppendDummy]
  have kept := instructionWithin (R := Eq) s.ip
  cases found : instructionAt s.ip s with
  | error err t =>
    rw [afterBindError found, ← kept.fails found]
    exact .refl s
  | ok entry t =>
    rw [afterBindOk found, afterAppendDummyIn, ← kept.holds found]
    have appended := (Within.bind (adjoinsCreateEvent .dummy) adjoinsLinkEvent).keeps
      { s with stack := entry.stack, locals := entry.locals }
    generalize after (createEvent .dummy >>= linkEvent) _ = u at appended ⊢
    refine ⟨?_, rfl, rfl, appended.size, appended.event⟩
    rw [appended.links]
    rfl

theorem adjoinsAppendEvent (e : EventId) : Within Adjoins (appendEvent e) :=
  .bind .get fun _ => .bind (instructionWithin _) fun _ => .bind .get fun _ =>
    .ite (.bind adjoinsAppendDummy fun _ => adjoinsLinkEvent e) (adjoinsLinkEvent e)

/-! The reads of an event. -/

def ReadKind.mask? : ReadKind → Option SiteMask
  | .single mask _ _ => some mask
  | _ => none

abbrev Demand := ValueId × Option SiteMask

namespace ReadTable

def demand (t : ReadTable) (r : ReadId) : Demand := (t.value r, (t.kind r).mask?)

theorem demandSetEvent (t : ReadTable) (r : ReadId) (e : EventId) (x : ReadId) :
    (t.setEvent r e).demand x = t.demand x := by
  have value : (t.setEvent r e).value x = t.value x := by
    rw [ReadTable.value, getSetEvent]
    split
    · rename_i here
      rw [here.1, ReadTable.value]
    · rfl
  rw [demand, demand, kindSetEvent, value]

theorem demandPush (t : ReadTable) (v : ValueId) (mask : SiteMask) (successor : Option ValueId) (x : ReadId) :
    (t.single v mask successor).2.demand x = if x.index = t.size then (v, some mask) else t.demand x := by
  simp only [demand, single, ReadTable.value, ReadTable.kind, getPush]
  split <;> rfl

theorem demandSetKind {t : ReadTable} {r : ReadId} {k : ReadKind} (same : k.mask? = (t.kind r).mask?) (x : ReadId) :
    (t.setKind r k).demand x = t.demand x := by
  simp only [demand, ReadTable.value, ReadTable.kind, getSetKind]
  split
  · rename_i here
    rw [here.1]
    exact congrArg (Prod.mk _) same
  · rfl

theorem demandAppend (t : ReadTable) (last r x : ReadId) : (t.append last r).2.demand x = t.demand x := by
  unfold append
  split <;> first
    | rfl
    | rename_i kind
      exact demandSetKind (by rw [kind]; rfl) x

end ReadTable

def State.demands (s : State) (e : EventId) : List Demand := (s.event e).reads.map s.reads.demand

def State.Tabled (s : State) (e : EventId) : Prop :=
  e.index < s.events.size ∧ ∀ r ∈ (s.event e).reads, s.reads.IsRead r

structure State.Attaches (e : EventId) (demands : List Demand) (s s' : State) : Prop where
  rest : s' = { s with values := s'.values, reads := s'.reads, events := s'.events }
  size : s'.events.size = s.events.size
  frame : (s'.event e).stackBefore = (s.event e).stackBefore ∧ (s'.event e).localsBefore = (s.event e).localsBefore
  call : ∀ c, (s.event e).kind = .call c → ∃ c', (s'.event e).kind = .call c' ∧ c'.result = c.result
  reads : s.Tabled e → s'.Tabled e ∧ s'.demands e = s.demands e ++ demands

namespace State.Attaches

variable {first second : List Demand}

theorem refl (e : EventId) (s : State) : s.Attaches e [] s :=
  ⟨rfl, rfl, ⟨rfl, rfl⟩, fun c here => ⟨c, here, rfl⟩, fun reads => ⟨reads, (List.append_nil _).symm⟩⟩

theorem trans (attaches : s.Attaches e first t) (later : t.Attaches e second s') : s.Attaches e (first ++ second) s' where
  rest := by rw [later.rest, attaches.rest]
  size := later.size.trans attaches.size
  frame := ⟨later.frame.1.trans attaches.frame.1, later.frame.2.trans attaches.frame.2⟩
  call c here := by
    obtain ⟨c', here, same⟩ := attaches.call c here
    obtain ⟨c'', here, same'⟩ := later.call c' here
    exact ⟨c'', here, same'.trans same⟩
  reads here := by
    obtain ⟨here, before⟩ := attaches.reads here
    obtain ⟨here, after⟩ := later.reads here
    exact ⟨here, by rw [after, before, List.append_assoc]⟩

theorem forM {f : α → Build PUnit} {g : α → List Demand} (xs : List α)
    (round : ∀ x {before : List Demand} {t t' : State}, s.Attaches e before t → f x t = .ok ⟨⟩ t' →
      t.Attaches e (g x) t')
    (attaches : s.Attaches e first t) (ok : xs.forM f t = .ok ⟨⟩ s') : t.Attaches e (xs.flatMap g) s' := by
  induction xs generalizing t first with
  | nil =>
    obtain ⟨-, rfl⟩ := pureOk.mp ok
    exact refl e t
  | cons x rest ih =>
    obtain ⟨⟨⟩, u, here, later⟩ := bindOk.mp ok
    have gave := round x attaches here
    rw [List.flatMap_cons]
    exact gave.trans (ih (attaches.trans gave) later)

end State.Attaches

theorem demandLink (v : ValueId) (r : ReadId) (s : State) (x : ReadId) :
    (after (linkRead none v r) s).reads.demand x = s.reads.demand x := by
  cases last : (s.value v).lastRead with
  | none =>
    have same : after (linkRead none v r) s =
        (s.modifyValue v fun d => { d with reads := some r }).modifyValue v fun d => { d with lastRead := some r } := by
      simp only [linkRead, after, getBind, last]
      rfl
    rw [same]
    rfl
  | some before =>
    have same : (after (linkRead none v r) s).reads = (s.reads.append before r).2 := by
      simp only [linkRead, after, getBind, last]
      cases (s.reads.append before r).1 <;> rfl
    rw [same]
    exact ReadTable.demandAppend ..

theorem attachesDemand {mask : SiteMask} {successor : Option ValueId}
    (ok : demand e v mask successor s = .ok () s') : s.Attaches e [(v, some mask)] s' := by
  let r : ReadId := (s.reads.single v mask successor).1
  let reads := (s.reads.single v mask successor).2.setEvent r e
  let t : State := { s with reads }.modifyEvent e fun d => { d with reads := d.reads ++ [r] }
  have ends : after (linkRead none v r) t = s' := afterOk ok
  have prolongs := ends ▸ prolongsLink v r t
  have plain : s' = { t with values := s'.values, reads := s'.reads } := prolongs.endows
  have demands : ∀ x, s'.reads.demand x = if x.index = s.reads.size then (v, some mask) else s.reads.demand x := by
    intro x
    rw [← ends, demandLink]
    exact (ReadTable.demandSetEvent ..).trans (ReadTable.demandPush ..)
  have size : s'.reads.size = s.reads.size + 1 :=
    prolongs.size.trans (by
      simp [t, reads, ReadTable.single, ReadTable.push, ReadTable.setEvent, ReadTable.size, State.modifyEvent])
  have events : s'.events = t.events := by rw [plain]
  have event : s'.event e =
      if e.index < s.events.size then { s.event e with reads := (s.event e).reads ++ [r] } else s.event e := by
    rw [State.event, events, ← State.event]
    have here := eventModify { s with reads } e e fun d => { d with reads := d.reads ++ [r] }
    rw [here]
    simp only [true_and]
    rfl
  refine ⟨?_, ?_, ?_, fun c here => ?_, fun heard => ?_⟩
  · rw [plain]
    rfl
  · rw [events]
    simp [t, State.modifyEvent]
  · rw [event]
    split <;> exact ⟨rfl, rfl⟩
  · refine ⟨c, ?_, rfl⟩
    rw [event]
    split <;> exact here
  · obtain ⟨inside, known⟩ := heard
    rw [if_pos inside] at event
    refine ⟨⟨?_, fun x member => ?_⟩, ?_⟩
    · rw [events]
      simpa [t, State.modifyEvent] using inside
    · rw [event] at member
      rw [ReadTable.IsRead, size]
      rcases List.mem_append.mp member with old | new
      · exact (known x old).trans (Nat.lt_succ_self _)
      · cases List.mem_singleton.mp new
        exact Nat.lt_succ_self _
    · rw [State.demands, State.demands, event, List.map_append]
      have old : (s.event e).reads.map s'.reads.demand = (s.event e).reads.map s.reads.demand :=
        List.map_congr_left fun x member => by rw [demands, if_neg (Nat.ne_of_lt (known x member))]
      have new : s'.reads.demand r = (v, some mask) := by
        rw [demands]
        exact if_pos rfl
      rw [old, List.map_singleton, new]

theorem attachesModifyEvent {f : Event → Event}
    (kept : ∀ d, (f d).stackBefore = d.stackBefore ∧ (f d).localsBefore = d.localsBefore ∧ (f d).reads = d.reads)
    (call : ∀ d c, d.kind = .call c → ∃ c', (f d).kind = .call c' ∧ c'.result = c.result) :
    s.Attaches e [] (s.modifyEvent e f) := by
  have size : (s.modifyEvent e f).events.size = s.events.size := by simp [State.modifyEvent]
  refine ⟨rfl, size, ?_, fun c here => ?_, fun heard => ?_⟩
  · rw [eventModify]
    split
    · exact ⟨(kept _).1, (kept _).2.1⟩
    · exact ⟨rfl, rfl⟩
  · rw [eventModify]
    split
    · exact call _ c here
    · exact ⟨c, here, rfl⟩
  · obtain ⟨inside, known⟩ := heard
    have reads : ((s.modifyEvent e f).event e).reads = (s.event e).reads := by
      rw [eventModify, if_pos ⟨rfl, inside⟩]
      exact (kept _).2.2
    refine ⟨⟨size ▸ inside, fun x member => known x (reads ▸ member)⟩, ?_⟩
    rw [List.append_nil, State.demands, State.demands, reads]
    rfl

theorem attachesUpdateCall {f : CallEvent → CallEvent} (ok : Append.updateCall e f s = .ok () s')
    (result : ∀ c, (f c).result = c.result) : s.Attaches e [] s' := by
  obtain rfl := modifyOk.mp ok
  refine attachesModifyEvent (fun d => ?_) fun d c here => ⟨f c, ?_, result c⟩
  · cases d.kind <;> exact ⟨rfl, rfl, rfl⟩
  · rw [here]

/-! What has to survive a call. -/

def Pin.demand (p : Pin) : Demand := (p.1, some (.slot p.2))

def State.stackPins (s : State) (nodes : List StackNode) : List Pin :=
  nodes.filterMap fun node => node.value.map (·, s.frameIndex (node.index + s.localFootprint))

def State.localPins (s : State) (l : LocalsId) : List Pin :=
  (s.frames.locals l).zipIdx.filterMap fun (v, i) => v.map (·, s.frameIndex i)

theorem pinsDemand {xs : List α} {f : α → Option Pin} :
    (xs.flatMap fun x => ((f x).map Pin.demand).toList) = (xs.filterMap f).map Pin.demand := by
  induction xs with
  | nil => rfl
  | cons x rest ih =>
    rw [List.flatMap_cons, ih, List.filterMap_cons]
    cases f x <;> rfl

theorem State.Attaches.frameIndex {demands : List Demand} (attaches : s.Attaches e demands s') (i : Nat) :
    s'.frameIndex i = s.frameIndex i := by
  rw [attaches.rest]
  rfl

theorem attachesDemandLocals (ok : Append.demandLocals e s = .ok () s') :
    s.Attaches e ((s.localPins (s.event e).localsBefore).map Pin.demand) s' := by
  rw [Append.demandLocals, getBind] at ok
  have attaches := State.Attaches.forM (g := fun x => ((x.1.map (·, s.frameIndex x.2)).map Pin.demand).toList) _
    (fun x _ t t' before ok => ?_) (.refl e s) ok
  · rwa [pinsDemand] at attaches
  · obtain ⟨v, i⟩ := x
    cases v with
    | none =>
      obtain ⟨-, rfl⟩ := pureOk.mp ok
      exact .refl e t
    | some v =>
      rw [← before.frameIndex]
      exact attachesDemand ok

theorem attachesDemandSurvivors {footprint : Nat} {below : Option StackId}
    (ok : Append.demandSurvivors e footprint below s = .ok () s') :
    s.Attaches e ((s.stackPins (s.frames.stackNodes below) ++ s.localPins (s.event e).localsBefore).map Pin.demand) s' := by
  simp only [Append.demandSurvivors, getBind] at ok
  split at ok
  · rw [Build.invariant, throwBind] at ok
    cases ok
  obtain ⟨⟨⟩, t, told, ok⟩ := bindOk.mp ok
  obtain ⟨⟨⟩, u, pinned, ok⟩ := bindOk.mp ok
  have tells := attachesUpdateCall told fun _ => rfl
  have pins := State.Attaches.forM
    (g := fun n => ((n.value.map (·, s.frameIndex (n.index + s.localFootprint))).map Pin.demand).toList) _
    (fun n _ t t' before ok => ?_) tells pinned
  · have locals := attachesDemandLocals ok
    have attaches := tells.trans (pins.trans locals)
    have same : u.localPins (u.event e).localsBefore = s.localPins (s.event e).localsBefore := by
      rw [(tells.trans pins).frame.2, (tells.trans pins).rest]
      rfl
    rw [pinsDemand, same, ← List.map_append] at attaches
    exact attaches
  · have here := before.frameIndex
    cases value : n.value with
    | none =>
      rw [value] at ok
      obtain ⟨-, rfl⟩ := pureOk.mp ok
      exact .refl e t
    | some v =>
      rw [value] at ok
      rw [← here]
      exact attachesDemand ok

theorem attachesDemandStackArguments {footprint : Nat} {below rest : Option StackId} {words : List (Option ValueId)}
    (found : Append.argumentWords s.frames footprint (s.event e).stackBefore = some (words, below))
    (ok : Append.demandStackArguments e false footprint s = .ok rest s') :
    rest = below ∧ s.Attaches e ((words.zipIdx.filterMap wordPin).map Pin.demand) s' := by
  simp only [Append.demandStackArguments, getBind, found] at ok
  obtain ⟨⟨⟩, t, pinned, ok⟩ := bindOk.mp ok
  obtain ⟨rfl, rfl⟩ := pureOk.mp ok
  refine ⟨rfl, ?_⟩
  have attaches := State.Attaches.forM (g := fun x => ((wordPin x).map Pin.demand).toList) _
    (fun x _ t t' before ok => ?_) (.refl e s) pinned
  · rwa [pinsDemand] at attaches
  · obtain ⟨v, i⟩ := x
    cases v with
    | none =>
      obtain ⟨-, rfl⟩ := pureOk.mp ok
      exact .refl e t
    | some v =>
      simp only [Append.demandStackArgument, getBind, Bool.false_and, Bool.false_eq_true, if_false] at ok
      split at ok
      · exact attachesDemand ok
      · exact absurd ok (by simp)

/-! Pushing. -/

def State.topValue (s : State) : Option ValueId := s.stack.bind fun n => (s.frames.node n).value

/-- The arguments were pushed one after the other, beginning with the stack of the first state. Whatever else is
done in between ends with the stack that it began with. -/
inductive Piles (s : State) : List (Nat × ValueId) → State → Prop
  | none : Piles s [] s
  | push {arguments t t' footprint v w} (piles : Piles s arguments t) (ok : Method.push footprint v t = .ok () t')
      (top : t'.topValue = some w) : Piles s (arguments ++ [(footprint, w)]) t'
  | rest {arguments t t'} (piles : Piles s arguments t) (stack : t'.stack = t.stack)
      (grows : t.frames.Grows t'.frames) : Piles s arguments t'

theorem withoutHomeStack (ok : Method.withoutHome v s = .ok w s') : s'.stack = s.stack ∧ s'.frames = s.frames := by
  simp only [Method.withoutHome, getBind] at ok
  split at ok
  · obtain ⟨-, rfl⟩ := pureOk.mp ok
    exact ⟨rfl, rfl⟩
  rw [modifyGetBind] at ok
  obtain ⟨⟨⟩, t, joined, ok⟩ := bindOk.mp ok
  obtain ⟨-, rfl⟩ := pureOk.mp ok
  obtain ⟨e, t₁, created, joined⟩ := bindOk.mp joined
  obtain ⟨⟨⟩, t₂, demanded, appended⟩ := bindOk.mp joined
  have created := (adjoinsCreateEvent _).holds created
  have attaches := attachesDemand demanded
  have appended := (adjoinsAppendEvent e).holds appended
  constructor
  · rw [appended.stack, attaches.rest]
    exact created.stack
  · rw [appended.links, attaches.rest, created.links]
    rfl

theorem FrameTable.nodePushed (f : FrameTable) (value : Option ValueId) (stack : Option StackId) :
    ((f.push value stack).2.node (f.push value stack).1) = ⟨f.depth stack, value, stack⟩ := by
  rw [FrameTable.pushNode]
  exact if_pos rfl

theorem FrameTable.pushedInside (f : FrameTable) (value : Option ValueId) (stack : Option StackId) :
    (f.push value stack).1.index < (f.push value stack).2.nodes.size := by
  simp [FrameTable.push]

theorem pushLoads {footprint : Nat} {base : Option StackId} {arguments : List (Nat × ValueId)}
    (ok : Method.push footprint v s = .ok () s') (top : s'.topValue = some w)
    (loaded : FrameTable.Loaded s.frames base arguments s.stack) :
    s.frames.Grows s'.frames ∧ FrameTable.Loaded s'.frames base (arguments ++ [(footprint, w)]) s'.stack := by
  have last : ∀ {x : ValueId} {t t' : State}, Method.withoutHome v t = .ok x t' → after (Method.pushValue x) t' = s' →
      s'.stack = some (t.frames.push (some x) t.stack).1 ∧ s'.frames = (t.frames.push (some x) t.stack).2 := by
    intro x t t' bare ends
    obtain ⟨stack, frames⟩ := withoutHomeStack bare
    rw [← stack, ← frames, ← ends]
    exact ⟨rfl, rfl⟩
  have value : ∀ {x : ValueId} {t : State}, s'.stack = some (t.frames.push (some x) t.stack).1 →
      s'.frames = (t.frames.push (some x) t.stack).2 → x = w := by
    intro x t stack frames
    rw [State.topValue, stack, frames] at top
    simp only [Option.bind_some, FrameTable.nodePushed, Option.some.injEq] at top
    exact top
  unfold Method.push at ok
  split at ok
  · obtain ⟨x, t', bare, ends⟩ := bindOk.mp ok
    obtain ⟨stack, frames⟩ := last bare (afterOk ends)
    cases value stack frames
    have node := s.frames.nodePushed (some w) s.stack
    rw [stack, frames]
    refine ⟨s.frames.growsPush _ _, .one (loaded.grow (s.frames.growsPush _ _)) (s.frames.pushedInside ..) ?_ ?_⟩
    · rw [node]
    · rw [node]
  · obtain ⟨⟨⟩, t, emptied, ok⟩ := bindOk.mp ok
    obtain ⟨x, t', bare, ends⟩ := bindOk.mp ok
    obtain ⟨stack, frames⟩ := last bare (afterOk ends)
    cases value stack frames
    obtain rfl := modifyOk.mp emptied
    let f := (s.frames.push none s.stack).2
    let m := (s.frames.push none s.stack).1
    have first : s.frames.Grows f := s.frames.growsPush _ _
    have second : f.Grows (f.push (some w) (some m)).2 := f.growsPush _ _
    have lower := s.frames.nodePushed none s.stack
    have inside : m.index < f.nodes.size := s.frames.pushedInside ..
    have upper := f.nodePushed (some w) (some m)
    rw [stack, frames]
    refine ⟨first.trans second, .two (loaded.grow (first.trans second)) (f.pushedInside ..) ?_ ?_
      (inside.trans_le second.nodes) ?_ ?_⟩
    · exact congrArg StackNode.value upper
    · exact congrArg StackNode.next upper
    · exact (congrArg StackNode.value (second.node m inside)).trans (congrArg StackNode.value lower)
    · exact (congrArg StackNode.next (second.node m inside)).trans (congrArg StackNode.next lower)
  · obtain ⟨_, _, refused, -⟩ := bindOk.mp ok
    exact absurd refused (by simp)

theorem Piles.loaded {arguments : List (Nat × ValueId)} (piles : Piles s arguments t) :
    s.frames.Grows t.frames ∧ FrameTable.Loaded t.frames s.stack arguments t.stack := by
  induction piles with
  | none => exact ⟨.refl _, .none⟩
  | push _ ok top ih =>
    obtain ⟨grows, loaded⟩ := pushLoads ok top ih.2
    exact ⟨ih.1.trans grows, loaded⟩
  | rest _ stack grows ih => exact ⟨ih.1.trans grows, stack ▸ ih.2.grow grows⟩

theorem FrameTable.Loaded.wide {f : FrameTable} {base top : Option StackId} {arguments : List (Nat × ValueId)}
    (loaded : FrameTable.Loaded f base arguments top) : ∀ a ∈ arguments, 0 < a.1 := by
  induction loaded with
  | none => nofun
  | one _ _ _ _ ih => simpa [or_imp, forall_and] using ih
  | two _ _ _ _ _ _ _ ih => simpa [or_imp, forall_and] using ih

theorem attachesCall {arguments : List (Nat × ValueId)} {below : Option StackId} {address : ValueId} {op : Unary}
    (loaded : s.frames.Loaded below arguments (s.event e).stackBefore)
    (ok : (do
      let registers ← Append.demandArguments e []
      let plan := (← get).machine.planUnary op wordSize
      demand e address ⟨plan.mask.kinds, plan.mask.registers &&& registers, .any⟩ none
      let below ← Append.demandStackArguments e false (argumentFootprint arguments)
      Append.demandSurvivors e (argumentFootprint arguments) below : Build Unit) s = .ok () s') :
    ∃ mask, mask.slots = .any ∧ s.Attaches e ((address, some mask) :: (argumentPins arguments ++
      (s.stackPins (s.frames.stackNodes below) ++ s.localPins (s.event e).localsBefore)).map Pin.demand) s' := by
  obtain ⟨registers, t, none, ok⟩ := bindOk.mp ok
  have same : s = t := by
    simp only [Append.demandArguments, getBind, List.zipIdx_nil] at none
    exact (pureOk.mp none).2
  subst same
  rw [getBind] at ok
  obtain ⟨⟨⟩, t, called, ok⟩ := bindOk.mp ok
  obtain ⟨rest, t', argued, survived⟩ := bindOk.mp ok
  have address := attachesDemand called
  have found : Append.argumentWords t.frames (argumentFootprint arguments) (t.event e).stackBefore =
      some (arguments.flatMap argumentSlots, below) := by
    rw [address.frame.1, address.rest]
    exact loaded.words
  obtain ⟨rfl, placed⟩ := attachesDemandStackArguments found argued
  have survivors := attachesDemandSurvivors survived
  have pins : (arguments.flatMap argumentSlots).zipIdx.filterMap wordPin = argumentPins arguments := by
    simpa using wordPins arguments loaded.wide 0
  have before := address.trans placed
  have same : t'.stackPins (t'.frames.stackNodes rest) ++ t'.localPins (t'.event e).localsBefore =
      s.stackPins (s.frames.stackNodes rest) ++ s.localPins (s.event e).localsBefore := by
    rw [before.frame.2, before.rest]
    rfl
  have attaches := before.trans survivors
  rw [pins, same, List.append_assoc, ← List.map_append] at attaches
  exact ⟨⟨_, _, .any⟩, rfl, attaches⟩

theorem createdEvent {kind : EventKind} (ok : createEvent kind s = .ok e s') :
    e = ⟨s.events.size⟩ ∧ s' = { s with events := s'.events } ∧ s.events.size < s'.events.size ∧
      s'.event e = { kind, stackBefore := s.stack, localsBefore := s.locals, ip := s.ip } := by
  obtain ⟨rfl, rfl⟩ := Prod.mk.inj (modifyGetOk.mp ok)
  have here := eventCreated (s := s) { kind, stackBefore := s.stack, localsBefore := s.locals, ip := s.ip }
    ⟨s.events.size⟩
  exact ⟨rfl, rfl, by simp, here.trans (if_pos rfl)⟩

/- The address may come from anywhere but a frame slot that is named. Besides it the call reads its arguments, the
values of the stack below them and the locals, each in a slot of its own, and nothing else. -/
theorem stackCallPins {arguments : List (Nat × ValueId)} {footprint size : Nat} {address result : ValueId}
    {flags : CallFlags} {trace : Option TraceId} {kind : ValueKind}
    (ordered : s.frames.Ordered) (has : s.frames.Has s.stack s.locals) (piles : Piles s arguments t)
    (total : footprint = argumentFootprint arguments) (stays : (t.settings.tailCalls && flags.tailJump) = false)
    (ok : Method.stackCall address flags trace size kind footprint t = .ok result u) :
    (∃ c, (u.event ⟨t.events.size⟩).kind = .call c ∧ c.result = result) ∧
      ∃ mask, mask.slots = .any ∧ u.demands ⟨t.events.size⟩ = (address, some mask) ::
        (argumentPins arguments ++ (t.stackPins (s.frames.stackNodes s.stack) ++ t.localPins t.locals)).map Pin.demand := by
  subst total
  obtain ⟨grows, loaded⟩ := piles.loaded
  rw [Method.stackCall, Method.withResult, modifyGetBind] at ok
  obtain ⟨⟨⟩, u', called, ok⟩ := bindOk.mp ok
  obtain ⟨rfl, rfl⟩ := pureOk.mp ok
  have settings : (t.newValue kind).2.settings = t.settings := rfl
  simp only [Append.call, List.isEmpty_nil, Bool.not_true, Bool.false_and, Bool.false_eq_true, if_false, getBind, settings,
    stays, Append.operation, Bool.not_false, if_true] at called
  obtain ⟨e, t₁, created, called⟩ := bindOk.mp called
  obtain ⟨⟨⟩, t₂, read, appended⟩ := bindOk.mp called
  obtain ⟨rfl, plain, inside, event⟩ := createdEvent created
  have frames : t₁.frames = t.frames := by
    rw [plain]
    rfl
  have loaded : t₁.frames.Loaded s.stack arguments (t₁.event ⟨(t.newValue kind).2.events.size⟩).stackBefore := by
    rw [frames, event]
    exact loaded
  obtain ⟨mask, slots, attaches⟩ := attachesCall loaded read
  have bare : t₁.Tabled ⟨(t.newValue kind).2.events.size⟩ := ⟨inside, by simp [event]⟩
  have inside : (⟨t.events.size⟩ : EventId).index < t₂.events.size := attaches.size ▸ inside
  have kept := (adjoinsAppendEvent _).holds appended
  have final := kept.event _ inside
  refine ⟨?_, mask, slots, ?_⟩
  · obtain ⟨c, here, same⟩ := attaches.call _ (congrArg Event.kind event)
    exact ⟨c, final.1.trans here, same⟩
  · have reads : u'.reads = t₂.reads := by rw [kept.links]
    have below : t₁.frames.stackNodes s.stack = s.frames.stackNodes s.stack := by
      rw [frames]
      exact grows.stackNodes ordered has
    have none : t₁.demands ⟨(t.newValue kind).2.events.size⟩ = [] := by simp [State.demands, event]
    have stack : ∀ nodes, t₁.stackPins nodes = t.stackPins nodes := fun nodes => by
      rw [plain]
      rfl
    have locals : t₁.localPins (t₁.event ⟨(t.newValue kind).2.events.size⟩).localsBefore = t.localPins t.locals := by
      rw [event, plain]
      rfl
    have demands := (attaches.reads bare).2
    rw [none, List.nil_append, below, stack, locals] at demands
    rw [← demands, State.demands, State.demands, reads]
    exact congrArg (List.map t₂.reads.demand) final.2

/-- A method with a local and one value on the stack. The third value is a constant. -/
def ClientCall.stacking : List ClientCall :=
  [.start 1 0 1 8, .declareLocal 1 0 .general, .startInstruction 0, .constant 4096 .general, .constant 1 .general,
    .constant 2 .general, .push 1 ⟨2⟩]

/- Two words and two single ones. What has a home already is pushed as an alias, for which an event is appended. -/
theorem mixedWidthsArePinned : ∃ t result u mask,
    Piles (described ClientCall.stacking) [(2, ⟨3⟩), (1, ⟨4⟩), (1, ⟨5⟩)] t ∧
      Method.stackCall ⟨1⟩ {} none 8 .general 4 t = .ok result u ∧ mask.slots = .any ∧
      u.demands ⟨4⟩ = (⟨1⟩, some mask) :: Pin.demand (⟨3⟩, 0) :: Pin.demand (⟨4⟩, 2) :: Pin.demand (⟨5⟩, 3) ::
        [Pin.demand (⟨2⟩, 6), Pin.demand (⟨0⟩, 7)] := by
  let s := described ClientCall.stacking
  have housed : s.outline.Housed fun _ => False := (historyKeeps _ undeclaredNone (housedFresh ..)).housed
  obtain ⟨⟨⟩, t₁, first, top₁, ⟨⟩, t₂, second, top₂, ⟨⟩, t, third, top, size, pins, result, u, ok, -⟩ :
      Reaches (Method.push 2 ⟨3⟩) s fun t => t.topValue = some ⟨3⟩ ∧
        Reaches (Method.push 1 ⟨2⟩) t fun t => t.topValue = some ⟨4⟩ ∧
          Reaches (Method.push 1 ⟨0⟩) t fun t => t.topValue = some ⟨5⟩ ∧ t.events.size = 4 ∧
            t.stackPins (s.frames.stackNodes s.stack) ++ t.localPins t.locals = [(⟨2⟩, 6), (⟨0⟩, 7)] ∧
            Reaches (Method.stackCall ⟨1⟩ {} none 8 .general 4) t fun _ => True := by
    decide +kernel
  have piles : Piles s [(2, ⟨3⟩), (1, ⟨4⟩), (1, ⟨5⟩)] t :=
    .push (.push (.push .none first top₁) second top₂) third top
  obtain ⟨-, mask, slots, demands⟩ :=
    stackCallPins (s := s) housed.ordered housed.current piles rfl (by simp) ok
  rw [size, pins] at demands
  exact ⟨t, result, u, mask, piles, ok, slots, demands⟩

end Lowering
