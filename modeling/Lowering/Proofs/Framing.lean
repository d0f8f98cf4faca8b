import Lowering.Proofs.Pinning
/-!
How the slots of a frame are numbered.

Parameters, locals and the stack are counted from the first parameter up, while frame slots are counted from the stack
pointer. Between the parameters and the rest lies the header, and below everything the footer that the machine wants. A
call drops what lies below its first argument, which it works out in frame slots by a formula of its own. Both agree on
which logical slots those are, and none of them is a slot of the header.
-/
namespace Lowering

open Build State

variable {s t u : State} {e : EventId} {variant : X64.Variant} {i j : Nat}

theorem unsignedSmall {n : Nat} (small : n < 2 ^ 32) : unsigned 32 n = n := by
  show ((n : Int) % (2 ^ 32 : Nat)).toNat = n
  omega

theorem unsignedNegative {n : Nat} (positive : 0 < n) (small : n ≤ 2 ^ 32) : unsigned 32 (-n : Int) = 2 ^ 32 - n := by
  show ((-n : Int) % (2 ^ 32 : Nat)).toNat = 2 ^ 32 - n
  omega

theorem unsignedNonnegative {x : Int} (fits : fitsUnsigned 32 x = true) : 0 ≤ x := by
  simp only [fitsUnsigned, beq_iff_eq] at fits
  rw [← fits]
  exact Int.natCast_nonneg _

namespace State

/-- The slots of the return address and of the saved frame pointer, also where the latter is not saved. -/
def headerSlots (s : State) : List Nat :=
  [s.machine.returnAddressOffset, s.machine.framePointerOffset].map fun offset => unsigned 32 (s.frameBase + offset)

theorem reservedHeader (reserved : i ∈ s.reservedSlots) : i ∈ s.headerSlots := by
  simp only [reservedSlots, List.mem_cons] at reserved
  simp only [headerSlots, List.map_cons, List.map_nil, List.mem_cons]
  rcases reserved with rfl | framePointer
  · exact .inl rfl
  · split at framePointer
    · exact .inr (.inl (List.mem_singleton.mp framePointer))
    · cases framePointer

def logicalSlots (s : State) : Nat := s.frameSize + s.parameterFootprint - s.machine.footer

structure Sized (variant : X64.Variant) (s : State) : Prop where
  machine : s.machine = X64.describe variant
  footer : variant.footer ≤ s.frameSize
  total : s.totalFrameSize < 2 ^ 31

namespace Sized

theorem sameFooter (sized : s.Sized variant) : s.machine.footer = variant.footer := by rw [sized.machine]; rfl

theorem header (sized : s.Sized variant) : s.machine.header = 2 := by rw [sized.machine]; rfl

theorem parametersFit (sized : s.Sized variant) : s.frameSize + 2 + s.parameterFootprint ≤ s.totalFrameSize := by
  have footprint : s.machine.argumentFootprint s.parameterFootprint = max (roundUp s.parameterFootprint 2) 2 := by
    rw [sized.machine]
    rfl
  rw [totalFrameSize, sized.header, footprint, roundUp]
  omega

theorem frameIndexParameter (sized : s.Sized variant) (parameter : i < s.parameterFootprint) :
    s.frameIndex i = s.frameSize + 1 + (s.parameterFootprint - i) := by
  have fit := sized.parametersFit
  have total := sized.total
  have raw : (s.frameSize + s.parameterFootprint - i - 1 + s.machine.header : Int) =
      (s.frameSize + 1 + (s.parameterFootprint - i) : Nat) := by
    rw [sized.header]
    omega
  simp only [frameIndex, parameter, if_true, raw]
  exact unsignedSmall (by omega)

theorem frameIndexInner (sized : s.Sized variant) (inner : s.parameterFootprint ≤ i) (inside : i < s.logicalSlots) :
    s.frameIndex i = s.logicalSlots - 1 - i := by
  have fit := sized.parametersFit
  have total := sized.total
  have footer := sized.footer
  simp only [logicalSlots, sized.sameFooter] at inside ⊢
  have raw : (s.frameSize + s.parameterFootprint - i - 1 - variant.footer : Int) =
      (s.frameSize + s.parameterFootprint - variant.footer - 1 - i : Nat) := by
    omega
  simp only [frameIndex, sized.sameFooter, Nat.not_lt.mpr inner, if_false, raw]
  exact unsignedSmall (by omega)

theorem frameIndexBeyond (sized : s.Sized variant) (beyond : s.logicalSlots ≤ i) (small : i < 2 ^ 31) :
    s.totalFrameSize ≤ s.frameIndex i := by
  have fit := sized.parametersFit
  have total := sized.total
  have footer := sized.footer
  simp only [logicalSlots, sized.sameFooter] at beyond
  have inner : ¬ i < s.parameterFootprint := by omega
  have raw : (s.frameSize + s.parameterFootprint - i - 1 - variant.footer : Int) =
      -(i + 1 + variant.footer - (s.frameSize + s.parameterFootprint) : Nat) := by
    omega
  simp only [frameIndex, sized.sameFooter, inner, if_false, raw]
  rw [unsignedNegative (by omega) (by omega)]
  omega

theorem headerAt (sized : s.Sized variant) :
    s.headerSlots = [s.frameSize + 1 - variant.footer, s.frameSize - variant.footer] := by
  have fit := sized.parametersFit
  have total := sized.total
  have footer := sized.footer
  have base : s.frameBase = s.frameSize + 1 - variant.footer := by
    have size : s.machine.returnAddressSize = 1 := by rw [sized.machine]; rfl
    rw [frameBase, sized.header, sized.sameFooter, size]
    omega
  have offsets : s.machine.returnAddressOffset = 0 ∧ s.machine.framePointerOffset = -1 := by
    rw [sized.machine]
    exact ⟨rfl, rfl⟩
  have first : ((s.frameSize + 1 - variant.footer : Nat) : Int) + 0 = (s.frameSize + 1 - variant.footer : Nat) := by omega
  have second : ((s.frameSize + 1 - variant.footer : Nat) : Int) + -1 = (s.frameSize - variant.footer : Nat) := by omega
  simp only [headerSlots, List.map_cons, List.map_nil, base, offsets.1, offsets.2, first, second]
  rw [unsignedSmall (by omega), unsignedSmall (by omega)]

theorem frameIndexInjective (sized : s.Sized variant) : Set.InjOn s.frameIndex (Set.Iio s.logicalSlots) := by
  intro i inside j inside' same
  simp only [Set.mem_Iio] at inside inside'
  have slots : s.logicalSlots = s.frameSize + s.parameterFootprint - variant.footer := by
    rw [logicalSlots, sized.sameFooter]
  rcases Nat.lt_or_ge i s.parameterFootprint with first | first <;>
    rcases Nat.lt_or_ge j s.parameterFootprint with second | second
  · rw [sized.frameIndexParameter first, sized.frameIndexParameter second] at same
    omega
  · rw [sized.frameIndexParameter first, sized.frameIndexInner second inside'] at same
    omega
  · rw [sized.frameIndexInner first inside, sized.frameIndexParameter second] at same
    omega
  · rw [sized.frameIndexInner first inside, sized.frameIndexInner second inside'] at same
    omega

theorem frameIndexInside (sized : s.Sized variant) (inside : i < s.logicalSlots) :
    s.frameIndex i < s.totalFrameSize ∧ s.frameIndex i ∉ s.headerSlots := by
  have fit := sized.parametersFit
  have footer := sized.footer
  have slots : s.logicalSlots = s.frameSize + s.parameterFootprint - variant.footer := by
    rw [logicalSlots, sized.sameFooter]
  rw [sized.headerAt]
  simp only [List.mem_cons, List.not_mem_nil, or_false, not_or]
  rcases Nat.lt_or_ge i s.parameterFootprint with parameter | inner
  · rw [sized.frameIndexParameter parameter]
    omega
  · rw [sized.frameIndexInner inner inside]
    omega

end Sized

/-! The frame that a method starts with. -/

theorem startHas (s : State) (codeLength parameterFootprint localFootprint frameSize : Nat) :
    (s.start codeLength parameterFootprint localFootprint frameSize).resources.Has (.slot i) ↔
      i < (s.start codeLength parameterFootprint localFootprint frameSize).totalFrameSize := by
  simp [start, ResourceTable.Has, ResourceTable.setFrame, totalFrameSize]

end State

/-! What a call drops. -/

theorem demandKind {v : ValueId} {mask : SiteMask} {successor : Option ValueId} (ok : demand e v mask successor s = .ok () t)
    (x : EventId) : (t.event x).kind = (s.event x).kind := by
  let r : ReadId := (s.reads.single v mask successor).1
  let reads := (s.reads.single v mask successor).2.setEvent r e
  let s' : State := { s with reads }.modifyEvent e fun d => { d with reads := d.reads ++ [r] }
  have ends : after (linkRead none v r) s' = t := afterOk ok
  have endows := ends ▸ (prolongsLink v r s').endows
  have events : t.events = s'.events := by rw [endows]
  rw [State.event, events, ← State.event, eventModify]
  split
  · rename_i here
    rw [here.1]
    rfl
  · rfl

structure State.Gives (e : EventId) (s t : State) : Prop where
  attaches : ∃ demands, s.Attaches e demands t
  kind : (t.event e).kind = (s.event e).kind

namespace State.Gives

theorem refl (e : EventId) (s : State) : s.Gives e s := ⟨⟨[], .refl e s⟩, rfl⟩

theorem trans (first : s.Gives e t) (second : t.Gives e u) : s.Gives e u := by
  obtain ⟨_, attaches⟩ := first.attaches
  obtain ⟨_, later⟩ := second.attaches
  exact ⟨⟨_, attaches.trans later⟩, second.kind.trans first.kind⟩

theorem demand {v : ValueId} (mask : SiteMask) {successor : Option ValueId}
    (ok : Lowering.demand e v mask successor s = .ok () t) : s.Gives e t := ⟨⟨_, attachesDemand ok⟩, demandKind ok e⟩

theorem forM {α : Type} {f : α → Build PUnit} (xs : List α) (round : ∀ x {t u : State}, f x t = .ok ⟨⟩ u → t.Gives e u)
    (ok : xs.forM f s = .ok ⟨⟩ t) : s.Gives e t :=
  forMKeeps (P := s.Gives e) xs (fun x _ _ _ before ok => before.trans (round x ok)) (.refl e s) ok

theorem arguments {arguments : List ValueId} {registers : RegisterSet}
    (ok : Append.demandArguments e arguments s = .ok registers t) : s.Gives e t := by
  simp only [Append.demandArguments, getBind] at ok
  obtain ⟨⟨⟩, u, pinned, ok⟩ := bindOk.mp ok
  obtain ⟨-, rfl⟩ := pureOk.mp ok
  exact forM _ (fun _ _ _ ok => demand _ ok) pinned

theorem stackArguments {footprint : Nat} {below : Option StackId}
    (ok : Append.demandStackArguments e false footprint s = .ok below t) : s.Gives e t := by
  simp only [Append.demandStackArguments, getBind] at ok
  cases found : Append.argumentWords s.frames footprint (s.event e).stackBefore with
  | none => simp [found] at ok
  | some words =>
    simp only [found] at ok
    obtain ⟨⟨⟩, u, pinned, ok⟩ := bindOk.mp ok
    obtain ⟨-, rfl⟩ := pureOk.mp ok
    refine forM _ (fun x t u ok => ?_) pinned
    obtain ⟨v, i⟩ := x
    cases v with
    | none =>
      obtain ⟨-, rfl⟩ := pureOk.mp ok
      exact .refl e t
    | some v =>
      simp only [Append.demandStackArgument, getBind, Bool.false_and, Bool.false_eq_true, if_false] at ok
      split at ok
      · exact demand _ ok
      · exact absurd ok (by simp)

theorem locals (ok : Append.demandLocals e s = .ok () t) : s.Gives e t := by
  rw [Append.demandLocals, getBind] at ok
  refine forM _ (fun x t u ok => ?_) ok
  obtain ⟨v, i⟩ := x
  cases v with
  | none =>
    obtain ⟨-, rfl⟩ := pureOk.mp ok
    exact .refl e t
  | some v => exact demand (.slot (t.frameIndex i)) ok

end State.Gives

theorem survivorsDrop {c : CallEvent} {footprint : Nat} {below : Option StackId} (inside : e.index < s.events.size)
    (kind : (s.event e).kind = .call c) (ok : Append.demandSurvivors e footprint below s = .ok () t) :
    ∃ c', (t.event e).kind = .call c' ∧
      c'.argumentIndex = s.localFootprint + s.frames.depth (s.event e).stackBefore - footprint ∧
      c'.popIndex + c'.argumentIndex + s.machine.footer = s.frameSize + s.parameterFootprint := by
  simp only [Append.demandSurvivors, getBind] at ok
  split at ok
  · rw [Build.invariant, throwBind] at ok
    cases ok
  rename_i fits
  obtain ⟨⟨⟩, t₁, told, rest⟩ := bindOk.mp ok
  obtain ⟨⟨⟩, t₂, pinned, last⟩ := bindOk.mp rest
  cases modifyOk.mp told
  have gives := (State.Gives.forM (e := e) _ (fun n t u ok => ?_) pinned).trans (.locals last)
  · have nonnegative := unsignedNonnegative (by simpa using fits)
    let index := s.localFootprint + s.frames.depth (s.event e).stackBefore - footprint
    let pop : Int := s.frameSize + s.parameterFootprint - s.machine.footer - index
    refine ⟨{ c with argumentIndex := index, popIndex := pop.toNat }, gives.kind.trans ?_, rfl, ?_⟩
    · rw [eventModify, if_pos ⟨rfl, inside⟩, kind]
    · dsimp only
      omega
  · cases value : n.value with
    | none =>
      rw [value] at ok
      obtain ⟨-, rfl⟩ := pureOk.mp ok
      exact .refl e t
    | some v =>
      rw [value] at ok
      exact .demand (.slot (t.frameIndex (n.index + s.localFootprint))) ok

theorem callDrops {address result : ValueId} {flags : CallFlags} {trace : Option TraceId} {resultSize footprint : Nat}
    {arguments : List ValueId} (stays : (s.settings.tailCalls && flags.tailJump) = false)
    (ok : Append.call address flags trace result resultSize arguments footprint s = .ok () u) :
    ∃ c, (u.event ⟨s.events.size⟩).kind = .call c ∧
      c.argumentIndex = s.localFootprint + s.frames.depth s.stack - footprint ∧
      c.popIndex + c.argumentIndex + s.machine.footer = s.frameSize + s.parameterFootprint := by
  unfold Append.call at ok
  split at ok
  · rw [Build.invalid, throwBind] at ok
    cases ok
  simp only [getBind, stays, Append.operation, Bool.not_false, if_true] at ok
  obtain ⟨e, t₁, created, ok⟩ := bindOk.mp ok
  obtain ⟨⟨⟩, t₂, read, appended⟩ := bindOk.mp ok
  obtain ⟨rfl, plain, inside, event⟩ := createdEvent created
  obtain ⟨registers, t₃, explicit, read⟩ := bindOk.mp read
  rw [getBind] at read
  obtain ⟨⟨⟩, t₄, target, read⟩ := bindOk.mp read
  obtain ⟨below, t₅, stacked, survived⟩ := bindOk.mp read
  have gives := ((State.Gives.arguments explicit).trans (.demand _ target)).trans (.stackArguments stacked)
  obtain ⟨_, attaches⟩ := gives.attaches
  obtain ⟨c, kind, index, pop⟩ :=
    survivorsDrop (attaches.size ▸ inside) (gives.kind.trans (congrArg Event.kind event)) survived
  obtain ⟨_, survivors⟩ : ∃ demands, t₅.Attaches ⟨s.events.size⟩ demands t₂ := ⟨_, attachesDemandSurvivors survived⟩
  have final := (adjoinsAppendEvent _).holds appended
  refine ⟨c, (final.event _ ?_).1.trans kind, ?_, ?_⟩
  · rw [survivors.size, attaches.size]
    exact inside
  · rw [index, attaches.frame.1, event, attaches.rest, plain]
  · rw [attaches.rest, plain] at pop
    exact pop

theorem State.Sized.keeps {c : CallEvent} (sized : s.Sized variant)
    (pop : c.popIndex + c.argumentIndex + s.machine.footer = s.frameSize + s.parameterFootprint) :
    (∀ i, s.parameterFootprint ≤ i → i < s.logicalSlots → (c.popIndex ≤ s.frameIndex i ↔ i < c.argumentIndex)) ∧
      ∀ i, i < s.parameterFootprint → i < c.argumentIndex → c.popIndex ≤ s.frameIndex i := by
  have fit := sized.parametersFit
  have total := sized.total
  constructor
  · intro i inner inside
    rw [sized.frameIndexInner inner inside]
    rw [State.logicalSlots] at inside ⊢
    omega
  · intro i parameter _
    rw [sized.frameIndexParameter parameter]
    omega

/- Logical slots are apart from each other and from the header, those beyond the footer are nowhere in the frame, and a
call that is no tail call keeps what lies before its arguments. -/
theorem slotsStayApart (machine : s.machine = X64.describe variant) (code params locals size : Nat)
    (footer : variant.footer ≤ size) (total : (s.start code params locals size).totalFrameSize < 2 ^ 31) :
    let t := s.start code params locals size
    let slots := size + params - variant.footer
    Set.InjOn t.frameIndex (Set.Iio slots) ∧
    (∀ i < slots, t.frameIndex i < t.totalFrameSize ∧ t.resources.Has (.slot (t.frameIndex i)) ∧
      t.frameIndex i ∉ t.headerSlots ∧ t.frameIndex i ∉ t.reservedSlots) ∧
    (∀ i, slots ≤ i → i < 2 ^ 31 → ¬ t.resources.Has (.slot (t.frameIndex i))) ∧
    ∀ (u u' : State) (address result : ValueId) (flags : CallFlags) (trace : Option TraceId) (resultSize : Nat)
      (arguments : List ValueId) (footprint : Nat),
      u.machine = s.machine → u.frameSize = size → u.parameterFootprint = params →
      (u.settings.tailCalls && flags.tailJump) = false →
      Append.call address flags trace result resultSize arguments footprint u = .ok () u' →
      ∃ c, (u'.event ⟨u.events.size⟩).kind = .call c ∧
        c.argumentIndex = u.localFootprint + u.frames.depth u.stack - footprint ∧
        (∀ i, params ≤ i → i < slots → (c.popIndex ≤ t.frameIndex i ↔ i < c.argumentIndex)) ∧
        ∀ i, i < params → i < c.argumentIndex → c.popIndex ≤ t.frameIndex i := by
  intro t slots
  have sized : t.Sized variant := ⟨machine, footer, total⟩
  have same : t.logicalSlots = slots := by
    have shown : t.logicalSlots = size + params - t.machine.footer := rfl
    rw [shown, sized.sameFooter]
  refine ⟨same ▸ sized.frameIndexInjective, fun i inside => ?_, fun i beyond small => ?_, ?_⟩
  · obtain ⟨below, apart⟩ := sized.frameIndexInside (same ▸ inside)
    exact ⟨below, (s.startHas ..).mpr below, apart, fun reserved => apart (State.reservedHeader reserved)⟩
  · rw [s.startHas]
    exact Nat.not_lt.mpr (sized.frameIndexBeyond (same ▸ beyond) small)
  · intro u u' address result flags trace resultSize arguments footprint machine' frameSize parameters stays ok
    obtain ⟨c, kind, index, pop⟩ := callDrops stays ok
    rw [machine', frameSize, parameters] at pop
    obtain ⟨inner, outer⟩ := sized.keeps (c := c) pop
    exact ⟨c, kind, index, fun i low high => inner i low (same ▸ high), outer⟩

def footed : State := State.empty (X64.describe { footer := 1 }) {} (.recording {})

/-- Three words of parameters, two more locals, and one word on the stack. -/
def stacked : State :=
  let s := ((footed.start 1 3 5 8).newValue .general).2.newValue .general
  after (Method.pushValue s.1) s.2

/- The call takes the word on the stack, and the locals are kept. -/
theorem footedSlotsStayApart : ∃ u c, Append.call ⟨0⟩ {} none ⟨0⟩ 0 [] 1 stacked = .ok () u ∧
    (u.event ⟨0⟩).kind = .call c ∧ c.argumentIndex = 5 ∧ c.popIndex ≤ (footed.start 1 3 5 8).frameIndex 4 ∧
    (footed.start 1 3 5 8).frameIndex 5 < c.popIndex ∧ c.popIndex ≤ (footed.start 1 3 5 8).frameIndex 0 ∧
    Set.InjOn (footed.start 1 3 5 8).frameIndex (Set.Iio 10) ∧
    (footed.start 1 3 5 8).frameIndex 2 ∉ (footed.start 1 3 5 8).headerSlots ∧
    ¬ (footed.start 1 3 5 8).resources.Has (.slot ((footed.start 1 3 5 8).frameIndex 10)) := by
  have machine : footed.machine = X64.describe { footer := 1 } := rfl
  obtain ⟨apart, inside, beyond, calls⟩ := slotsStayApart machine 1 3 5 8 (by decide) (by decide +kernel)
  have succeeds : Succeeds (Append.call ⟨0⟩ {} none ⟨0⟩ 0 [] 1) stacked := by decide +kernel
  obtain ⟨⟨⟩, u, ok⟩ := succeeds
  obtain ⟨c, kind, index, inner, outer⟩ := calls stacked u ⟨0⟩ ⟨0⟩ {} none 0 [] 1 rfl rfl rfl rfl ok
  have five : c.argumentIndex = 5 := index.trans (by decide +kernel)
  have kept := (inner 4 (by decide) (by decide)).mpr (by omega)
  have dropped := mt (inner 5 (by decide) (by decide)).mp (by omega)
  exact ⟨u, c, ok, kind, five, kept, Nat.not_le.mp dropped, outer 0 (by decide) (by omega), apart,
    (inside 2 (by decide)).2.2.1, beyond 10 (by decide) (by decide)⟩

end Lowering
