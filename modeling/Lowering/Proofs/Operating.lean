import Lowering.Proofs.Addressing
import Lowering.Proofs.Claiming
import Lowering.Proofs.Producing
/-!
Operations with a result.

The operands are read where they are, the result is written to a register that nobody has, and what
the operation destroys besides was emptied before. So no word is lost, and once the operands are
consumed the result is given its register.
-/
namespace Lowering

open State Build

variable {s s' t u : State} {kept : List SiteId} {v w result : ValueId} {i j k : SiteId} {id : ResourceId}
  {p p' q start : Processor} {ρ : ValueId → Word} {lent : List Register} {queue due : List ReadId} {ahead : ValueId → Prop}
  {n : Register} {x : Word}

/-! Words that nobody relies on can change. -/

theorem State.Faithful.alter (h : Faithful ρ p lent [] s)
    (same : ∀ id, s.resources.Has id → s.Free id → s.owner? id ≠ none → q.held s.geometry id = p.held s.geometry id)
    (there : ∀ id w, s.resources.Has id → s.Free id → p.held s.geometry id = some w →
      ∃ x, q.held s.geometry id = some x) : Faithful ρ q lent [] s := by
  have formed := h.tracked.formed
  refine ⟨h.tracked, h.stack, h.numbered, h.plain, h.agree, h.direct, by simp, fun v i listed _ => ?_⟩
  obtain ⟨w, word, alive⟩ := h.words v i listed (by simp)
  rcases h.direct v i listed with ⟨c, m, site, kind⟩ | ⟨id, names, has, free⟩
  · refine ⟨w, ?_, alive⟩
    rw [wordAtNumber site kind] at word ⊢
    exact word
  · rw [wordAtStands formed (h.plain i) names] at word
    obtain ⟨x, held⟩ := there id w has free word
    refine ⟨x, by rw [wordAtStands formed (h.plain i) names, held], fun live => ?_⟩
    have owned := same id has free (by rw [h.owner live listed names]; simp)
    rw [held, word] at owned
    cases owned
    exact alive live

theorem State.Faithful.put (h : Faithful ρ p lent [] s) (has : s.resources.Has id) (free : s.Free id)
    (vacant : s.owner? id = none) (x : Word) : Faithful ρ (p.put s.geometry id x) lent [] s := by
  have after : ∀ other, s.resources.Has other → (p.put s.geometry id x).held s.geometry other =
      if other = id then some x else p.held s.geometry other := by
    intro other has'
    refine Processor.heldPut h.tracked.formed.frame ?_ ?_ ?_
    · rintro rfl
      exact h.stack free
    · rintro k rfl
      exact has
    · rintro k rfl
      exact has'
  refine h.alter (fun other has' _ owned => ?_) fun other w has' _ held => ?_
  · rw [after other has', if_neg]
    rintro rfl
    exact owned vacant
  · rw [after other has', held]
    split
    · exact ⟨x, rfl⟩
    · exact ⟨w, rfl⟩

theorem State.Faithful.settle {op : Ternary} {target : Operand} (h : Faithful ρ p lent [] s)
    (stack : s.geometry.stack ≠ X64.rdx) (emptied : op.divides = true → s.owner? (.register X64.rdx) = none) :
    Faithful ρ (p.settle op target) lent [] s := by
  refine h.alter (fun other _ _ owned => ?_) fun other w _ _ held => ?_
  · rw [Processor.heldSettle _ _ stack, if_neg]
    rintro ⟨divides, -, rfl⟩
    exact owned (emptied divides)
  · rw [Processor.heldSettle _ _ stack, held]
    split
    · exact ⟨_, rfl⟩
    · exact ⟨w, rfl⟩

/-! Emitting, thawing and consuming. -/

theorem State.Logged.emits {r : Request} (h : s.Logged start p) (ok : emit r s = .ok () s') (step : p.step r = some p') :
    s'.Logged start p' ∧ s' = { s with emitter := s'.emitter } := by
  obtain ⟨rec, records, ran⟩ := h
  obtain ⟨rest, ⟨rec', records'⟩, log⟩ := emitRecords ⟨rec, records⟩ ok
  have kept : rec'.log = rec.log.push r := by
    refine Array.toList_inj.mp ?_
    rw [Array.toList_push]
    simpa [Emitter.log, records, records'] using log
  exact ⟨Logged.push ran records' kept step, rest⟩

namespace State.Sustains

theorem execute {r : Request} (h : Sustains ρ start p queue due ahead s) (ok : emit r s = .ok () s')
    (step : p.step r = some p') (faithful : Faithful ρ p' [] [] s) :
    Sustains ρ start p' queue due ahead s' ∧ s' = { s with emitter := s'.emitter } := by
  obtain ⟨logged, rest⟩ := h.logged.emits ok step
  have keeps : Keeps s s' := rest ▸ keepsEmitter s s'.emitter
  have value : ∀ v, s'.value v = s.value v := fun v => by rw [rest]; rfl
  have resources : s'.resources = s.resources := by rw [rest]
  have site : ∀ i, s'.site i = s.site i := fun i => by rw [rest]; rfl
  have tracked : s'.Tracked [] [] := faithful.tracked.still keeps (fun v => by rw [value]) (fun i _ => site i)
    fun id => by rw [resources]
  refine ⟨h.onward keeps.extends keeps.value (fun v => by rw [value]) keeps.size ?_ logged, rest⟩
  exact faithful.fewer keeps.extends keeps.size tracked (fun i out inside => absurd (by rwa [rest] at inside) out)
    (fun v i inside => by rwa [value] at inside) (by simp)

theorem thawAll {sites : List SiteId} (h : Sustains ρ start p queue due ahead s)
    (free : ∀ i ∈ sites, s.IsSite i ∧ s.bound i = []) : Sustains ρ start p queue due ahead (s.thawSites sites) ∧
      Extends s (s.thawSites sites) ∧ (∀ v, (s.thawSites sites).value v = s.value v) ∧
      ∀ id, (s.thawSites sites).owner? id = s.owner? id := by
  induction sites with
  | nil => exact ⟨h, .refl s, fun _ => rfl, fun _ => rfl⟩
  | cons i rest ih =>
    obtain ⟨upheld, extend, value, owner⟩ := ih fun j inside => free j (List.mem_cons_of_mem _ inside)
    obtain ⟨known, bound⟩ := free i List.mem_cons_self
    refine ⟨upheld.thaw ?_, extend.trans (extendsThaw _ i), fun v => ?_, fun id => ?_⟩
    · rw [extend.bound known, bound]
    · exact (thawSiteValue ..).trans (value v)
    · exact (thawSiteOwner ..).trans (owner id)

theorem consume {e : EventId} (h : Sustains ρ start p ((s.event e).reads ++ due) due ahead s)
    (ok : consumeReads e s = .ok () s') : Sustains ρ start p due due ahead s' ∧ Recedes s s' := by
  obtain ⟨recedes, tracked, queued⟩ := consumeReadsRecedes h.faithful.tracked h.faithful.closed h.queued ok
  exact ⟨h.recede recedes tracked queued, recedes⟩

end State.Sustains

theorem placeSpare (fresh : s.Fresh v) (spare : s.Spare i n) (ok : place v i s = .ok () s') :
    s' = s.occupy v i (.register n) := by
  have names := spare.names
  obtain ⟨m, site⟩ := registerOfResource names
  have closed : (s.site i).isOpen = false := by rw [site]; rfl
  have reach : s.reach i = s := reachBare (by rw [site]; rfl)
  have acquired := acquireClosed (v := v) closed fun id same _ => by
    cases same.symm.trans names
    exact spare.vacant
  have absent : (s.value v).sites.contains i = false := by simp [fresh.bare]
  unfold place placeWith at ok
  simp only [getBind, absent, Bool.false_eq_true, if_false, bindOk, modifyOk] at ok
  obtain ⟨⟨⟩, t, taken, rfl⟩ := ok
  rw [show acquireWith evict v i s = _ from acquired, reach] at taken
  cases taken
  rw [occupySettleAt s names spare.free]
  rfl

theorem occupySustains (h : Sustains ρ start p queue due ahead s) (front : ahead result) (spare : s.Spare i n)
    (word : p.registers n = ρ result) :
    Sustains ρ start p queue due (fun v => ahead v ∧ v ≠ result) (s.occupy result i (.register n)) := by
  have fresh := h.fresh result front
  have keeps := s.keepsOccupy result i (.register n)
  have tracked := h.faithful.tracked.occupy fresh.known spare.known spare.unlisted spare.names spare.free spare.vacant
  have own : i ∈ ((s.occupy result i (.register n)).value result).sites := (occupyListed s fresh.known).mpr (.inl ⟨rfl, rfl⟩)
  have hollow := h.faithful.occupy fresh.known spare.known spare.names spare.has spare.free spare.vacant tracked
  have faithful := hollow.settled own (by
    rw [wordAtStands tracked.formed (hollow.plain i) ((keeps.resource spare.known).trans spare.names),
      Processor.heldRegister, word])
  refine ⟨faithful, h.logged.congr rfl, h.queued.evolves keeps.reads keeps.head, h.within, fun v front => ?_,
    fun v known wanted behind => ?_⟩
  · obtain ⟨known, alone, bare⟩ := h.fresh v front.1
    refine ⟨(keeps.isValue v).mpr known, (keeps.next v).trans alone, ?_⟩
    rw [occupyValue, if_neg fun both => front.2 both.1, bare]
  · by_cases same : v = result
    · subst same
      exact hasSiteIff.mpr ⟨v, selfMemRing _ v, i, own⟩
    · have wanted := State.Sustains.wantedBack h.queued h.within keeps.reads (fun m member => by rwa [keeps.ring] at member) wanted
      have has := h.housed v ((keeps.isValue v).mp known) wanted fun early => behind ⟨early, same⟩
      exact hasSiteListed keeps.ring (fun m j inside => (occupyListed s fresh.known).mpr (.inr inside)) has

theorem deliverSustains (h : Sustains ρ start p due due ahead s) (front : ahead result) (spare : s.Spare i n)
    (word : p.registers n = ρ result) (ok : deliver result i s = .ok () s') :
    Sustains ρ start p due due (fun v => ahead v ∧ v ≠ result) s' ∧ Abides s s' := by
  simp only [deliver, bindOk, modifyOk] at ok
  obtain ⟨⟨⟩, _, rfl, b, t, asked, ok⟩ := ok
  have thaws := (extendsThaw s i).abides
  have thawed := h.thaw (i := i) (by rw [State.bound, spare.names])
  have spare := spare.still (extendsThaw s i) (fun v => by rw [thawSiteValue]) fun id => thawSiteOwner ..
  generalize s.thawSite i = u at *
  obtain ⟨reads, state, evolves, -⟩ := liveReadSpec thawed.formed result
  rw [live, modifyGetOk] at asked
  obtain ⟨rfl, rfl⟩ := Prod.mk.inj asked
  have asks : Moves 0 [] [] u [] (u.isLive result).2 := by
    rw [isLiveState, state]
    exact .ask _ u.statistics u.resources.available evolves
  have same : ∀ v, (u.isLive result).2.value v = u.value v := fun v => by rw [isLiveState, state]; rfl
  have upheld : Sustains ρ start p due due ahead (u.isLive result).2 := by
    refine thawed.still asks.keeps.extends asks.keeps.value (fun v => by rw [same]) asks.keeps.size ?_ ?_
      (asks.tracked thawed.faithful.tracked (by simp))
    · rw [isLiveState, state]
    · rw [isLiveState, state]
  have spare := spare.still asks.keeps.extends (fun v => by rw [same]) fun id => by rw [isLiveState, state]; rfl
  have unread : ¬ u.Live result → ∀ v, (u.isLive result).2.Wanted due v → v ≠ result := by
    rintro dead v wanted rfl
    exact dead ((asks.keeps.live thawed.formed upheld.formed v).mp (upheld.live wanted))
  change (if (u.isLive result).1 = true then place result i else pure ()) (u.isLive result).2 = .ok () s' at ok
  split at ok
  · have fresh := upheld.fresh result front
    generalize (u.isLive result).2 = t at *
    obtain rfl := placeSpare fresh spare ok
    have occupies := ((t.keepsOccupy result i (.register n)).extends).abides
    exact ⟨occupySustains upheld front spare word, (thaws.trans asks.keeps.extends.abides).trans occupies⟩
  · rename_i dead
    obtain ⟨-, rfl⟩ := pureOk.mp ok
    exact ⟨⟨upheld.faithful, upheld.logged, upheld.queued, upheld.within, fun v front => upheld.fresh v front.1,
      fun v known wanted behind => upheld.housed v known wanted fun early =>
        behind ⟨early, unread dead v wanted⟩⟩, thaws.trans asks.keeps.extends.abides⟩

/-! The operations of x86-64 on integers. -/

def Ternary.integers : List Ternary :=
  [.add, .subtract, .multiply, .divide, .remainder, .shiftLeft, .shiftRight, .unsignedShiftRight, .and, .or, .xor]

def Binary.integers : List Binary := [.negate, .absolute]

theorem onRegistersOnly (set : RegisterSet) : (SiteMask.ofOperand (X64.registersOnly set)).OnRegisters := by
  intro g x met
  have kinds : ∀ k : OperandKind, KindSet.has (KindSet.ofList [.register]) k = (k == .register) := by intro k; cases k <;> decide
  cases x with
  | register m number =>
    cases number with
    | none => cases met
    | some n => exact ⟨m, n, rfl, (Bool.and_eq_true_iff.mp met).2⟩
  | _ => simp [Site.satisfies, SiteMask.accepts, SiteMask.ofOperand, X64.registersOnly, kinds] at met

theorem ternaryOnRegisters {op : Ternary} (integer : op ∈ Ternary.integers) :
    (SiteMask.ofOperand (X64.ternaryResult op)).OnRegisters := by
  simp only [Ternary.integers, List.mem_cons, List.not_mem_nil, or_false] at integer
  rcases integer with rfl | rfl | rfl | rfl | rfl | rfl | rfl | rfl | rfl | rfl | rfl <;> exact onRegistersOnly _

theorem binaryOnRegisters {op : Binary} (integer : op ∈ Binary.integers) (source : OperandMask) :
    (SiteMask.ofOperand (X64.binaryResult op source)).OnRegisters := by
  simp only [Binary.integers, List.mem_cons, List.not_mem_nil, or_false] at integer
  rcases integer with rfl | rfl <;> exact onRegistersOnly _

theorem clobberedApart {op : Ternary} {r : Register}
    (destroyed : RegisterSet.has (X64.clobbered op) r = true) {g : FrameGeometry} {x : Site}
    (met : x.satisfies g (.ofOperand (X64.ternarySources op).a) = true ∨
      x.satisfies g (.ofOperand (X64.ternarySources op).b) = true) : x.resource? g ≠ some (.register r) := by
  have divides : op = .divide ∨ op = .remainder := by
    cases op <;> first | exact .inl rfl | exact .inr rfl | simp [X64.clobbered, RegisterSet.has] at destroyed
  obtain ⟨first, second, clobbers⟩ : (X64.ternarySources op).a = X64.registersOnly (X64.generalExcept [X64.rax, X64.rdx]) ∧
      (X64.ternarySources op).b = X64.registersOnly (RegisterSet.single X64.rax) ∧
      X64.clobbered op = RegisterSet.single X64.rdx := by
    rcases divides with rfl | rfl <;> exact ⟨rfl, rfl, rfl⟩
  rw [clobbers] at destroyed
  rw [first, second] at met
  obtain rfl : r = X64.rdx := RegisterSet.hasSingle destroyed
  intro names
  rcases met with met | met
  · obtain ⟨m, n, rfl, has⟩ := onRegistersOnly _ g x met
    cases names
    exact absurd has (by decide)
  · obtain ⟨m, n, rfl, has⟩ := onRegistersOnly _ g x met
    cases names
    exact absurd has (by decide)

theorem dividesClobbers {op : Ternary} (divides : op.divides = true) {variant : X64.Variant} :
    X64.rdx ∈ (List.range (X64.describe variant).registerCount).filter (RegisterSet.has (X64.clobbered op)) := by
  refine List.mem_filter.mpr ⟨List.mem_range.mpr (show X64.rdx < 32 by decide), ?_⟩
  cases op <;> first | decide | cases divides

def State.Demands (s : State) (r : ReadId) (mask : SiteMask) : Prop :=
  ∃ successor next, s.reads.kind r = .single mask successor next

def State.Supplied (s : State) (reads : List ReadId) : Prop :=
  ∀ r ∈ reads, ∃ i, (s.value (s.reads.value r)).source = some i ∧
    ∃ x ∈ reads, s.reads.value x = s.reads.value r ∧ s.Serves x i

theorem State.Supplied.draws {reads : List ReadId} {r : ReadId} (h : s.Supplied reads) (member : r ∈ reads) :
    ∃ i, s.Draws (s.reads.value r) i ∧ ∃ x ∈ reads, s.Serves x i := by
  obtain ⟨i, source, x, inside, same, serves⟩ := h r member
  refine ⟨i, ⟨source, ?_⟩, x, inside, serves⟩
  obtain ⟨-, -, -, -, listed, -⟩ := serves
  rwa [same] at listed

theorem State.Emptied.thaw {rs : List Register} (emptied : s.Emptied rs) (apart : ∀ r ∈ rs, s.resource? i ≠ some (.register r)) :
    (s.thawSite i).Emptied rs := by
  intro r member
  obtain ⟨none, frozen⟩ := emptied r member
  have extend := extendsThaw s i
  refine ⟨by rw [thawSiteOwner, none], fun has free => ?_⟩
  have before := frozen ((extend.has _).mp has) ((extend.free _).mp free)
  have after := thawSiteFreezes s i (.register r)
  rw [if_neg fun both => apart r member both.1] at after
  omega

def Compile.combined (op : Ternary) (a b result : ValueId) : Build SiteId := do
  let first ← sourceOf a
  whileFrozen first do
    let second ← sourceOf b
    let machine := (← get).machine
    let claimed ← whileFrozen second (claimRegisters (machine.clobbers op wordSize))
    Build.ensuring (do
      let x ← sourceMask a
      let y ← sourceMask b
      let mask := machine.planTernaryResult op wordSize x wordSize y wordSize
      let i ← resultSite b result (.ofOperand mask)
      let x ← sourceOperand a
      let y ← sourceOperand b
      let target ← operandOf i
      emit (.ternary op wordSize x wordSize y wordSize target)
      return i) (·.thawSites claimed)

theorem combineDelivers (e : EventId) (op : Ternary) (a b result : ValueId) :
    Compile.combine e ⟨op, wordSize, a, wordSize, b, wordSize, result⟩ =
      Compile.combined op a b result >>= fun i => consumeReads e >>= fun _ => deliver result i := by
  simp only [Compile.combine, Compile.combined, bind_assoc]

theorem sourceMaskOk {m : OperandMask} : sourceMask v s = .ok m s' ↔
    ∃ i, (s.value v).source = some i ∧ (s.site i).operandMask = m ∧ s' = s := by
  unfold sourceMask
  simp only [bindOk, sourceOfOk]
  constructor
  · rintro ⟨i, _, ⟨source, rfl⟩, _, _, ⟨⟩, ⟨⟩⟩
    exact ⟨i, source, rfl, rfl⟩
  · rintro ⟨i, source, rfl, rfl⟩
    exact ⟨i, _, ⟨source, rfl⟩, _, _, rfl, rfl⟩

theorem sourceOperandOk {a : Operand} : sourceOperand v s = .ok a s' ↔
    ∃ i, (s.value v).source = some i ∧ s.operand i = .ok a ∧ s' = s := by
  unfold sourceOperand
  simp only [bindOk, sourceOfOk, operandOfOk]
  constructor
  · rintro ⟨i, _, ⟨source, rfl⟩, operand, rfl⟩
    exact ⟨i, source, operand, rfl⟩
  · rintro ⟨i, source, operand, rfl⟩
    exact ⟨i, _, ⟨source, rfl⟩, operand, rfl⟩

section

variable {variant : X64.Variant} {e : EventId} {op : Ternary} {a b : ValueId} {r₁ r₂ : ReadId}

theorem claimsSustain {rs : RegisterSet} {claimed : List SiteId} (h : Sustains ρ start p queue due ahead s)
    (frozen : s.Frozen kept) (known : s.IsSite i) (bound : s.bound i = [])
    (apart : ∀ r, RegisterSet.has rs r = true → ∀ k ∈ i :: kept, s.resource? k ≠ some (.register r))
    (ok : whileFrozen i (Compile.claimRegisters rs) s = .ok claimed s') :
    ∃ p', Sustains ρ start p' queue due ahead s' ∧ Minds (i :: kept) s s' ∧
      s'.Emptied ((List.range s.machine.registerCount).filter (RegisterSet.has rs)) ∧
      ∀ i ∈ claimed, s'.IsSite i ∧ s'.bound i = [] := by
  obtain ⟨t, claims, rfl⟩ := whileFrozenOk.mp ok
  obtain ⟨p', upheld, minds, emptied, free⟩ := claimRegistersSustains (h.freeze bound) (frozenFreeze frozen known)
    (fun r has k inside => by rw [freezeSiteResource]; exact apart r has k inside) claims
  have first := (mindsFreeze (i :: kept) s i).trans minds
  have thaws := extendsThaw t i
  have machine : (s.freezeSite i).machine = s.machine := by rw [freezeSiteRest]
  rw [machine] at emptied
  refine ⟨p', upheld.thaw ?_, mindsFrozen known minds, emptied.thaw fun r member => ?_, fun k inside => ?_⟩
  · rw [first.toExtends.bound known, bound]
  · rw [first.resource known]
    exact apart r (List.mem_filter.mp member).2 i List.mem_cons_self
  · obtain ⟨there, empty⟩ := free k inside
    exact ⟨thaws.isSite there, by rw [thaws.bound there, empty]⟩

theorem requestSustains {r : Request} (h : Sustains ρ start p queue due ahead s) (spare : s.Spare j n)
    (step : p.step r = some p') (faithful : Faithful ρ p' [] [] s) (ok : emit r s = .ok () s') :
    Sustains ρ start p' queue due ahead s' ∧ Extends s s' ∧ s'.Spare j n := by
  obtain ⟨after, rest⟩ := h.execute ok step faithful
  have keeps : Keeps s s' := rest ▸ keepsEmitter s s'.emitter
  exact ⟨after, keeps.extends, spare.still keeps.extends (fun v => by rw [rest]; rfl) fun id => by rw [rest]; rfl⟩

theorem State.Sustains.goesTo {target : Operand} (h : Sustains ρ start p queue due ahead s) (spare : s.Spare j n)
    (goes : s.operand j = .ok target) : target = ResourceId.operand s.geometry (.register n) := by
  have stands := operandStands h.formed (h.level j) spare.names
  rw [goes] at stands
  exact Except.ok.inj stands

theorem combineRequest {x y target : Operand} (h : Sustains ρ start p queue due ahead s) (spare : s.Spare j n)
    (stack : s.geometry.stack = X64.rsp) (emptied : op.divides = true → s.owner? (.register X64.rdx) = none)
    (first : p.read x = some (ρ a)) (second : p.read y = some (ρ b)) (word : op.onWords? (ρ a) (ρ b) = some (ρ result))
    (goes : s.operand j = .ok target) (ok : emit (.ternary op wordSize x wordSize y wordSize target) s = .ok () s') :
    ∃ p', Sustains ρ start p' queue due ahead s' ∧ Extends s s' ∧ s'.Spare j n ∧ p'.registers n = ρ result := by
  obtain rfl := h.goesTo spare goes
  have away : s.geometry.stack ≠ X64.rdx := by rw [stack]; decide
  have put := h.faithful.put spare.has spare.free spare.vacant (ρ result)
  obtain ⟨after, extend, spare⟩ := requestSustains h spare (Processor.stepCombine first second word) (put.settle away emptied) ok
  refine ⟨_, after, extend, spare, Option.some.inj (?_ : Processor.held _ s.geometry (.register n) = _)⟩
  rw [Processor.heldSettle _ _ away, if_neg]
  · simp [Processor.heldRegister, Processor.put, Processor.setRegister]
  · rintro ⟨-, other, same⟩
    cases same
    exact other rfl

theorem combinedSustains {front : List ReadId} {i₁ i₂ : SiteId} (machine : s.machine = X64.describe variant)
    (stack : s.geometry.stack = X64.rsp) (integer : op ∈ Ternary.integers)
    (h : Sustains ρ start p (front ++ due) (front ++ due) ahead s) (draws₁ : s.Draws a i₁) (draws₂ : s.Draws b i₂)
    (reader₁ : r₁ ∈ front ∧ s.reads.value r₁ = a) (reader₂ : r₂ ∈ front ∧ s.reads.value r₂ = b)
    (apart : ∀ r, RegisterSet.has (X64.clobbered op) r = true → ∀ k ∈ [i₂, i₁], s.resource? k ≠ some (.register r))
    (fresh : ahead result) (word : op.onWords? (ρ a) (ρ b) = some (ρ result))
    (ok : Compile.combined op a b result s = .ok j s') :
    ∃ p' n, Sustains ρ start p' (front ++ due) due ahead s' ∧ Extends s s' ∧ s'.Spare j n ∧ p'.registers n = ρ result := by
  have alive₁ : s.Live a := h.live ⟨r₁, List.mem_append_left _ reader₁.1, reader₁.2 ▸ selfMemRing s _⟩
  have alive₂ : s.Live b := h.live ⟨r₂, List.mem_append_left _ reader₂.1, reader₂.2 ▸ selfMemRing s _⟩
  obtain ⟨known₁, bound₁, -⟩ := h.drawn draws₁ alive₁
  obtain ⟨known₂, bound₂, -⟩ := h.drawn draws₂ alive₂
  simp only [Compile.combined, bindOk, sourceOfOk, whileFrozenOk, ensuringOk, sourceMaskOk, sourceOperandOk, operandOfOk,
    pureOk] at ok
  obtain ⟨_, s, ⟨source₁, rfl⟩, _, ⟨_, _, ⟨source₂, rfl⟩, _, _, ⟨⟩, claimed, u, claims, _, body, rfl⟩, rfl⟩ := ok
  obtain ⟨_, u, ⟨-, -, -, rfl⟩, _, u, ⟨-, -, -, rfl⟩, i, t, placed, x, t, ⟨k₁, drawn₁, operand₁, rfl⟩, body⟩ := body
  obtain ⟨y, t, ⟨k₂, drawn₂, operand₂, rfl⟩, target, t, ⟨goes, rfl⟩, ⟨⟩, w, emitted, rfl, rfl⟩ := body
  cases draws₁.source.symm.trans source₁
  rw [freezeSiteValue] at source₂
  cases draws₂.source.symm.trans source₂
  have here := mindsFreeze [i₂, i₁] s i₁
  have frozen : (s.freezeSite i₁).Frozen [i₁] := frozenFreeze s.frozenNil known₁
  have machine' : (s.freezeSite i₁).machine = X64.describe variant := by rw [freezeSiteRest]; exact machine
  have geometry' : (s.freezeSite i₁).geometry = s.geometry := by rw [freezeSiteRest]
  have reads' : (s.freezeSite i₁).reads = s.reads := by rw [freezeSiteRest]
  obtain ⟨q, upheld, minds, emptied, free⟩ := claimsSustain (h.freeze bound₁) frozen
    (here.isSite known₂) (by rw [here.toExtends.bound known₂, bound₂])
    (fun r has k inside => by rw [freezeSiteResource]; exact apart r has k inside)
    (whileFrozenOk.mpr (by rw [machine'] at claims; exact claims))
  have first := here.trans minds
  have reader : u.reads.value r₂ = b := by
    rw [first.reads.value r₂ (h.queued.isRead (List.mem_append_left _ reader₂.1)), reader₂.2]
  obtain ⟨q', furnishes⟩ := resultSiteFurnishes upheld
    ((minds.fewer fun k inside => List.mem_cons_of_mem _ inside).frozen frozen) reader₂.1 reader
    (first.draws List.mem_cons_self draws₂) fresh
    (by rw [machine']; exact ternaryOnRegisters integer) placed
  have destroyed : op.divides = true → t.owner? (.register X64.rdx) = none := fun divides => by
    refine (emptied.later furnishes.toExtends furnishes.freezes furnishes.vacant furnishes.upholds.faithful.tracked _ ?_).1
    rw [machine']
    exact dividesClobbers divides
  have drawn : ∀ v k, k ∈ [i₂, i₁] → s.Draws v k → s.Live v → ∀ k' y, (t.value v).source = some k' →
      t.operand k' = .ok y → q'.read y = some (ρ v) := by
    intro v k inside draws alive k' y source operand
    obtain ⟨source', word⟩ := furnishes.operands k inside v (first.draws inside draws)
      ((first.live h.formed upheld.formed draws.isValue).mpr alive)
    cases source.symm.trans source'
    rwa [State.wordAt, operand] at word
  have extend := first.toExtends.trans furnishes.toExtends
  have geometry : t.geometry.stack = X64.rsp := by rw [extend.geometry, stack]
  obtain ⟨n, spare, -⟩ := furnishes.spare
  obtain ⟨p', after, onward, spare, result⟩ := combineRequest furnishes.upholds spare geometry destroyed
    (drawn a i₁ (by simp) draws₁ alive₁ k₁ x drawn₁ operand₁) (drawn b i₂ (by simp) draws₂ alive₂ k₂ y drawn₂ operand₂)
    word goes emitted
  obtain ⟨after, thaws, value, owner⟩ := after.thawAll fun k (inside : k ∈ claimed) => by
    have before := furnishes.toExtends.trans onward
    exact ⟨before.isSite (free k inside).1, by rw [before.bound (free k inside).1, (free k inside).2]⟩
  have all := (extend.trans onward).trans thaws
  have last := extendsThaw (w.thawSites claimed) i₁
  refine ⟨p', n, after.thaw (by rw [all.bound known₁, bound₁]), all.trans last, ?_, result⟩
  exact spare.still (thaws.trans last) (fun v => by rw [thawSiteValue, value]) fun id => by rw [thawSiteOwner, owner]

theorem finishSustains {rs : List ReadId} (reads : (s.event e).reads = rs) (h : Sustains ρ start p (rs ++ due) due ahead s)
    (fresh : ahead result) (spare : s.Spare j n) (word : p.registers n = ρ result)
    (ok : (consumeReads e >>= fun _ => deliver result j) s = .ok () s') :
    Sustains ρ start p due due (fun v => ahead v ∧ v ≠ result) s' ∧ Abides s s' := by
  obtain ⟨⟨⟩, t, consumed, delivered⟩ := bindOk.mp ok
  obtain ⟨after, recedes⟩ := Sustains.consume (by rwa [reads]) consumed
  obtain ⟨after, abides⟩ := deliverSustains after fresh (spare.recede recedes) word delivered
  exact ⟨after, recedes.abides.trans abides⟩

theorem combineSustains (machine : s.machine = X64.describe variant) (stack : s.geometry.stack = X64.rsp)
    (integer : op ∈ Ternary.integers) (reads : (s.event e).reads = [r₁, r₂]) (first : s.reads.value r₁ = a)
    (second : s.reads.value r₂ = b) (demands₁ : s.Demands r₁ (.ofOperand (X64.ternarySources op).a))
    (demands₂ : s.Demands r₂ (.ofOperand (X64.ternarySources op).b))
    (h : Sustains ρ start p ([r₁, r₂] ++ due) ([r₁, r₂] ++ due) ahead s) (supplied : s.Supplied [r₁, r₂])
    (fresh : ahead result) (word : op.onWords? (ρ a) (ρ b) = some (ρ result))
    (ok : Compile.combine e ⟨op, wordSize, a, wordSize, b, wordSize, result⟩ s = .ok () s') :
    (∃ p', Sustains ρ start p' due due (fun v => ahead v ∧ v ≠ result) s') ∧ Abides s s' := by
  obtain ⟨i₁, draws₁, x₁, inside₁, serves₁⟩ := supplied.draws (r := r₁) (by simp)
  obtain ⟨i₂, draws₂, x₂, inside₂, serves₂⟩ := supplied.draws (r := r₂) (by simp)
  rw [first] at draws₁
  rw [second] at draws₂
  -- a source serves one of the two reads, and neither mask has a register that is destroyed
  have meets : ∀ k x, x ∈ [r₁, r₂] → s.Serves x k →
      (s.site k).satisfies s.geometry (.ofOperand (X64.ternarySources op).a) = true ∨
        (s.site k).satisfies s.geometry (.ofOperand (X64.ternarySources op).b) = true := by
    rintro k x inside ⟨own, _, _, kind, -, met⟩
    obtain ⟨_, _, kind₁⟩ := demands₁
    obtain ⟨_, _, kind₂⟩ := demands₂
    simp only [List.mem_cons, List.not_mem_nil, or_false] at inside
    rcases inside with rfl | rfl
    · cases kind.symm.trans kind₁
      exact .inl met
    · cases kind.symm.trans kind₂
      exact .inr met
  have apart : ∀ r, RegisterSet.has (X64.clobbered op) r = true → ∀ k ∈ [i₂, i₁], s.resource? k ≠ some (.register r) := by
    intro r destroyed k inside
    simp only [List.mem_cons, List.not_mem_nil, or_false] at inside
    rcases inside with rfl | rfl
    · exact clobberedApart destroyed (meets k x₂ inside₂ serves₂)
    · exact clobberedApart destroyed (meets k x₁ inside₁ serves₁)
  rw [combineDelivers] at ok
  obtain ⟨j, t, combined, finished⟩ := bindOk.mp ok
  obtain ⟨p', n, after, extend, spare, result⟩ := combinedSustains machine stack integer h draws₁ draws₂
    ⟨by simp, first⟩ ⟨by simp, second⟩ apart fresh word combined
  obtain ⟨last, abides⟩ := finishSustains ((congrArg Event.reads (extend.abides.event e)).trans reads) after fresh spare
    result finished
  exact ⟨⟨p', last⟩, extend.abides.trans abides⟩

def Compile.converted (op : Binary) (a result : ValueId) : Build SiteId := do
  let source ← sourceMask a
  let mask := (← get).machine.planBinaryResult op wordSize source wordSize
  let i ← resultSite a result (.ofOperand mask)
  let x ← sourceOperand a
  let target ← operandOf i
  emit (.binary op wordSize x wordSize target)
  return i

theorem convertDelivers (e : EventId) (op : Binary) (a result : ValueId) :
    Compile.convert e ⟨op, wordSize, a, wordSize, result⟩ =
      Compile.converted op a result >>= fun i => consumeReads e >>= fun _ => deliver result i := by
  simp only [Compile.convert, Compile.converted, bind_assoc, pure_bind]

theorem convertSustains {op : Binary} {r : ReadId} (machine : s.machine = X64.describe variant)
    (integer : op ∈ Binary.integers) (reads : (s.event e).reads = [r]) (reader : s.reads.value r = a)
    (h : Sustains ρ start p ([r] ++ due) ([r] ++ due) ahead s) (supplied : s.Supplied [r])
    (fresh : ahead result) (word : op.onWord? wordSize (ρ a) = some (ρ result))
    (ok : Compile.convert e ⟨op, wordSize, a, wordSize, result⟩ s = .ok () s') :
    (∃ p', Sustains ρ start p' due due (fun v => ahead v ∧ v ≠ result) s') ∧ Abides s s' := by
  obtain ⟨i, draws, -⟩ := supplied.draws (r := r) (by simp)
  rw [reader] at draws
  have alive : s.Live a := h.live ⟨r, by simp, reader ▸ selfMemRing s _⟩
  rw [convertDelivers] at ok
  obtain ⟨j, t, converted, finished⟩ := bindOk.mp ok
  simp only [Compile.converted, bindOk, sourceMaskOk, sourceOperandOk, operandOfOk, pureOk] at converted
  obtain ⟨_, s, ⟨-, -, -, rfl⟩, _, _, ⟨⟩, i', u, placed, x, u, ⟨k, source, operand, rfl⟩, target, u, ⟨goes, rfl⟩, ⟨⟩, w,
    emitted, rfl, rfl⟩ := converted
  rw [machine] at placed
  obtain ⟨q, furnishes⟩ := resultSiteFurnishes h s.frozenNil List.mem_cons_self reader draws fresh
    (binaryOnRegisters integer _) placed
  obtain ⟨source', held⟩ := furnishes.operands i (by simp) a draws alive
  cases source.symm.trans source'
  rw [State.wordAt, operand] at held
  obtain ⟨n, spare, -⟩ := furnishes.spare
  have upheld := furnishes.upholds
  obtain rfl := upheld.goesTo spare goes
  obtain ⟨after, onward, spare⟩ := requestSustains upheld spare (Processor.stepConvert held word)
    (upheld.faithful.put spare.has spare.free spare.vacant (ρ result)) emitted
  have extend := furnishes.toExtends.trans onward
  obtain ⟨last, abides⟩ := finishSustains ((congrArg Event.reads (extend.abides.event e)).trans reads) after fresh spare
    (by simp [Processor.put, Processor.setRegister]) finished
  exact ⟨⟨_, last⟩, extend.abides.trans abides⟩

end

end Lowering
