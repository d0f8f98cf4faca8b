import Mathlib.Data.Fin.VecNotation
import Lowering.Proofs.Sketching
/-!
Straight-line computations.

A client can compute a word from constants, registers, the operand stack and the locals by operations on whole words
and return it. However the values are moved about when the method is compiled, what the compiled method returns is
what the operations make of the words.
-/
namespace Lowering

open State Build Matrix

/-- A computation with `n` operands at hand, of which the one made last is number zero. -/
inductive Computation : Nat → Type where
  | leave {n : Nat} (v : Fin n) : Computation n
  | constant {n : Nat} (value : Int) (kind : ValueKind) (rest : Computation (n + 1)) : Computation n
  | register {n : Nat} (r : Register) (rest : Computation (n + 1)) : Computation n
  | push {n : Nat} (v : Fin n) (rest : Computation n) : Computation n
  | pop {n : Nat} (rest : Computation (n + 1)) : Computation n
  | store {n : Nat} (v : Fin n) (index : Nat) (rest : Computation n) : Computation n
  | load {n : Nat} (index : Nat) (rest : Computation (n + 1)) : Computation n
  | combine {n : Nat} (op : Ternary) (integer : op ∈ Ternary.integers) (a b : Fin n) (rest : Computation (n + 1)) :
    Computation n
  | convert {n : Nat} (op : Binary) (integer : op ∈ Binary.integers) (a : Fin n) (rest : Computation (n + 1)) :
    Computation n

namespace Computation

def registers : {n : Nat} → Computation n → List Register
  | _, leave _ => []
  | _, register r rest => r :: rest.registers
  | _, constant _ _ rest | _, pop rest | _, load _ rest | _, combine _ _ _ _ rest | _, convert _ _ _ rest => rest.registers
  | _, push _ rest | _, store _ _ rest => rest.registers

def describe : {n : Nat} → Computation n → (Fin n → ValueId) → Build Unit
  | _, leave v, h => Method.leave (some (h v))
  | _, constant value kind rest, h => do rest.describe (vecCons (← Method.constant value kind) h)
  | _, register r rest, h => do rest.describe (vecCons (← Method.register r) h)
  | _, push v rest, h => do
    Method.push 1 (h v)
    rest.describe h
  | _, pop rest, h => do rest.describe (vecCons (← Method.pop 1) h)
  | _, store v index rest, h => do
    Method.storeLocal 1 (h v) index
    rest.describe h
  | _, load index rest, h => do rest.describe (vecCons (← Method.loadLocal 1 index) h)
  | _, combine op _ a b rest, h => do rest.describe (vecCons (← Method.combine op wordSize (h a) (h b)) h)
  | _, convert op _ a rest, h => do rest.describe (vecCons (← Method.convert op wordSize wordSize (h a)) h)

/-- The word that the computation returns, from the words of the operands, of the stack and of the locals that were set. There
is none if it divides by zero, or takes a word where there is none. -/
def result (entry : Register → Word) : {n : Nat} → Computation n → (Fin n → Word) → List Word → (Nat → Option Word) → Option Word
  | _, leave v, words, _, _ => some (words v)
  | _, constant value _ rest, words, stack, locals => rest.result entry (vecCons (BitVec.ofInt 64 value) words) stack locals
  | _, register r rest, words, stack, locals => rest.result entry (vecCons (entry r) words) stack locals
  | _, push v rest, words, stack, locals => rest.result entry words (words v :: stack) locals
  | _, pop _, _, [], _ => none
  | _, pop rest, words, w :: stack, locals => rest.result entry (vecCons w words) stack locals
  | _, store v index rest, words, stack, locals =>
    rest.result entry words stack (Function.update locals index (some (words v)))
  | _, load index rest, words, stack, locals => do rest.result entry (vecCons (← locals index) words) stack locals
  | _, combine op _ a b rest, words, stack, locals => do
    rest.result entry (vecCons (← op.onWords? (words a) (words b)) words) stack locals
  | _, convert op _ a rest, words, stack, locals => do
    rest.result entry (vecCons (← op.onWord? wordSize (words a)) words) stack locals

end Computation

variable {s s' t u : State} {ρ σ : ValueId → Word} {start : Processor} {es ds : List EventId} {pending : List ValueId}
  {v w : ValueId} {e : EventId} {kind : EventKind} {uses : List (ValueId × SiteMask × Option ValueId)} {taken : Option Register}

structure State.Poised (variant : X64.Variant) (s : State) : Prop where
  machine : s.machine = X64.describe variant
  emitter : s.emitter = .recording {}
  geometry : s.geometry.stack = X64.rsp
  frame : (s.resources.slots.length + s.geometry.footer) * wordSize ≤ modulus 32
  numbered : s.resources.registers.length = s.machine.registerCount
  away : ∀ n, s.Free (.register n) → n ≠ X64.rsp ∧ n ≠ X64.rbp

structure State.Idles (s t : State) : Prop where
  machine : t.machine = s.machine
  emitter : t.emitter = s.emitter
  geometry : t.geometry = s.geometry
  resources : t.resources = s.resources

theorem State.Idles.trans (first : Idles s t) (second : Idles t s') : Idles s s' :=
  ⟨second.machine.trans first.machine, second.emitter.trans first.emitter, second.geometry.trans first.geometry,
    second.resources.trans first.resources⟩

theorem State.Houses.idles (h : Houses s t) : Idles s t := ⟨h.machine, h.emitter, h.geometry, h.resources⟩

theorem State.Poised.idle {variant : X64.Variant} (h : s.Poised variant) (idles : Idles s t) : t.Poised variant := by
  refine ⟨idles.machine.trans h.machine, idles.emitter.trans h.emitter, by rw [idles.geometry, h.geometry], ?_, ?_, fun n free => ?_⟩
  · rw [idles.resources, idles.geometry]
    exact h.frame
  · rw [idles.resources, idles.machine]
    exact h.numbered
  · rw [Free, idles.resources] at free
    exact h.away n free

/-! New values. -/

structure State.Gains (ρ σ : ValueId → Word) (start : Processor) (taken : Option Register) (v : ValueId) (s t : State) : Prop where
  sketched : ∃ es, Sketched σ start es [] t
  agree : ∀ w, s.IsValue w → σ w = ρ w
  known : t.IsValue v
  size : s.values.size ≤ t.values.size
  idles : Idles s t
  frames : t.frames = s.frames ∧ t.stack = s.stack ∧ t.locals = s.locals
  untaken : ∀ n, taken ≠ some n → s.Untaken n → t.Untaken n

namespace State

theorem unknownUpdate (ρ : ValueId → Word) (x : Word) (known : s.IsValue v) :
    Function.update ρ ⟨s.values.size⟩ x v = ρ v := by
  refine Function.update_of_ne ?_ ..
  rintro rfl
  exact Sketched.unknown s known

theorem knownNewValue (s : State) (valueKind : ValueKind) (known : s.IsValue v) : (s.newValue valueKind).2.IsValue v := by
  simp only [IsValue, State.newValue, Array.size_push] at known ⊢
  omega

theorem newValueAtGains (h : Sketched ρ start es [] s) (valueKind : ValueKind) {site : Site} {x : Word}
    (word : (∃ c n, site = .constant c ∧ s.promises.kind c = .resolved n ∧ x = BitVec.ofInt 64 n) ∨
      ∃ n, taken = some n ∧ site = .ofRegister n ∧ s.Untaken n ∧ start.registers n = x) :
    Gains ρ (Function.update ρ ⟨s.values.size⟩ x) start taken ⟨s.values.size⟩ s (s.newValueAt valueKind site).2 := by
  let u := (s.newValue valueKind).2
  have made := h.newValue valueKind
  have reworded : Sketched (Function.update ρ ⟨s.values.size⟩ x) start es [⟨s.values.size⟩] u :=
    made.reword fun w _ apart => Function.update_of_ne (fun same => apart (by simp [same])) ..
  obtain ⟨known, none⟩ := made.bare _ List.mem_cons_self
  obtain ⟨extra, owners, lodged⟩ : ∃ extra, (s.newValueAt valueKind site).2.registerValues = u.registerValues ++ extra ∧
      ((extra = [] ∧ ∃ c n, site = .constant c ∧ u.promises.kind c = .resolved n ∧
        Function.update ρ ⟨s.values.size⟩ x ⟨s.values.size⟩ = BitVec.ofInt 64 n) ∨
      extra = [⟨⟨s.values.size⟩, ⟨u.sites.size⟩⟩] ∧ ∃ n, site = .ofRegister n ∧ u.Untaken n ∧
        start.registers n = Function.update ρ ⟨s.values.size⟩ x ⟨s.values.size⟩) := by
    rw [Function.update_self]
    rcases word with ⟨c, n, rfl, kind, same⟩ | ⟨n, -, rfl, untaken, content⟩
    · exact ⟨[], (List.append_nil _).symm, .inl ⟨rfl, c, n, rfl, kind, same⟩⟩
    · exact ⟨_, rfl, .inr ⟨rfl, n, rfl, untaken, content⟩⟩
  have lodges : Lodges ⟨s.values.size⟩ site _ _ (s.newValueAt valueKind site).2 := State.lodges known none owners (by
    rcases word with ⟨c, n, rfl, -⟩ | ⟨n, -, rfl, -⟩ <;> rfl)
  refine ⟨⟨es, reworded.lodge lodges lodged⟩, fun w inside => unknownUpdate ρ x inside, ?_, ?_, ⟨lodges.machine, lodges.emitter, lodges.geometry, lodges.resources⟩, lodges.frames,
    fun n other vacant => ?_⟩
  · rwa [IsValue, lodges.size]
  · rw [lodges.size]
    simp [State.newValue]
  · obtain ⟨has, free, apart⟩ : u.Untaken n := vacant
    refine ⟨by rwa [lodges.resources], by rwa [Free, lodges.resources], fun o member => ?_⟩
    rw [lodges.owners] at member
    rcases List.mem_append.mp member with member | member
    · rw [(reworded.waits lodges o member).2.2]
      exact apart o member
    · rcases lodged with ⟨rfl, -⟩ | ⟨rfl, m, register, -⟩
      · cases member
      · rcases word with ⟨c, k, here, -⟩ | ⟨k, here, register', -⟩
        · rw [register] at here
          cases here
        · obtain rfl : m = k := by
            have same := register.symm.trans register'
            simp only [Site.ofRegister, Site.register.injEq, Option.some.injEq] at same
            exact same.2
          rw [List.mem_singleton.mp member, State.resource?, lodges.new, register]
          intro same
          exact other (by rw [here]; injection same with same; injection same with same; rw [same])

theorem constantGains (h : Sketched ρ start es [] s) {value : Int} {valueKind : ValueKind}
    (ok : Method.constant value valueKind s = .ok v t) : ∃ σ, Gains ρ σ start none v s t ∧ σ v = BitVec.ofInt 64 value := by
  obtain ⟨p, u, first, second⟩ := bindOk.mp ok
  obtain ⟨rfl, rfl⟩ := Prod.ext_iff.mp (modifyGetOk.mp first)
  obtain ⟨rfl, rfl⟩ := Prod.ext_iff.mp (modifyGetOk.mp second)
  have created := h.promise (.resolved value)
  have number : (s.createPromise (.resolved value)).2.promises.kind (s.createPromise (.resolved value)).1 = .resolved value := by
    simp [State.createPromise, PromiseTable.create, PromiseTable.kind, PromiseTable.size]
  have gains : Gains ρ _ start none _ _ _ := newValueAtGains created valueKind (.inl ⟨_, _, rfl, number, rfl⟩)
  exact ⟨_, ⟨gains.sketched, gains.agree, gains.known, gains.size, ⟨gains.idles.machine, gains.idles.emitter, gains.idles.geometry,
    gains.idles.resources⟩, gains.frames, gains.untaken⟩, Function.update_self ..⟩

theorem registerGains (h : Sketched ρ start es [] s) {n : Register} (untaken : s.Untaken n)
    (ok : Method.register n s = .ok v t) : ∃ σ, Gains ρ σ start (some n) v s t ∧ σ v = start.registers n := by
  obtain ⟨rfl, rfl⟩ := Prod.ext_iff.mp (modifyGetOk.mp ok)
  exact ⟨_, newValueAtGains h _ (.inr ⟨n, rfl, rfl, untaken, rfl⟩), Function.update_self ..⟩

/-! Operations. -/

theorem operationGains (h : Sketched ρ start es [] s) (valueKind : ValueKind) {x : Word} (on : kind.goesOn = true)
    (result : kind.result? = some ⟨s.values.size⟩) (known : ∀ u ∈ uses, s.IsValue u.1)
    (computes : ∀ ds e, Appended es kind uses (s.newValue valueKind).2 t ds e →
      t.Computes (Function.update ρ ⟨s.values.size⟩ x) e)
    (ok : Append.operation kind (fun e => uses.forM fun u => demand e u.1 u.2.1 u.2.2) (s.newValue valueKind).2 = .ok () t) :
    Gains ρ (Function.update ρ ⟨s.values.size⟩ x) start none ⟨s.values.size⟩ s t := by
  have reworded : Sketched (Function.update ρ ⟨s.values.size⟩ x) start es [⟨s.values.size⟩] (s.newValue valueKind).2 :=
    (h.newValue valueKind).reword fun w _ apart => Function.update_of_ne (fun same => apart (by simp [same])) ..
  obtain ⟨ds, e, appended⟩ := operationAppends reworded.threaded reworded.lined on
    (fun u member => knownNewValue s valueKind (known u member)) ok
  have houses := appended.houses
  refine ⟨⟨_, reworded.append appended result (fun u member same => ?_) (computes ds e appended)⟩,
    fun w inside => unknownUpdate ρ x inside, ?_, ?_, ⟨houses.machine, houses.emitter, houses.geometry, houses.resources⟩, ?_, fun n _ untaken => ?_⟩
  · exact Sketched.unknown s (same ▸ known u member)
  · rw [IsValue, houses.size]
    simp [State.newValue]
  · rw [houses.size]
    simp [State.newValue]
  · exact ⟨appended.frames.1, appended.frames.2.1, appended.frames.2.2.1⟩
  · obtain ⟨has, free, apart⟩ := untaken
    have same : ∀ i, t.resource? i = s.resource? i := fun i => by
      rw [State.resource?, houses.geometry, State.site, houses.sites]
      rfl
    refine ⟨by rw [houses.resources]; exact has, by rw [Free, houses.resources]; exact free, fun o member => ?_⟩
    rw [houses.waiting] at member
    rw [same]
    exact apart o member

variable {variant : X64.Variant}

theorem inlineTernary {op : Ternary} (integer : op ∈ Ternary.integers) : (X64.ternarySources op).helper = false := by
  simp only [Ternary.integers, List.mem_cons, List.not_mem_nil, or_false] at integer
  rcases integer with rfl | rfl | rfl | rfl | rfl | rfl | rfl | rfl | rfl | rfl | rfl <;> rfl

theorem withResultOk {valueKind : ValueKind} {act : ValueId → Build Unit} (ok : Method.withResult valueKind act s = .ok v t) :
    v = ⟨s.values.size⟩ ∧ act ⟨s.values.size⟩ (s.newValue valueKind).2 = .ok () t := by
  obtain ⟨r, u, first, ok⟩ := bindOk.mp ok
  obtain ⟨rfl, rfl⟩ := Prod.ext_iff.mp (modifyGetOk.mp first)
  obtain ⟨⟨⟩, w, acted, answer⟩ := bindOk.mp ok
  obtain ⟨rfl, rfl⟩ := pureOk.mp answer
  exact ⟨rfl, acted⟩

theorem combineGains (h : Sketched ρ start es [] s) (machine : s.machine = X64.describe variant) {op : Ternary}
    (integer : op ∈ Ternary.integers) (inline : Operation.ternary op ∉ variant.helpers) {a b : ValueId} {x : Word}
    (first : s.IsValue a) (second : s.IsValue b) (word : op.onWords? (ρ a) (ρ b) = some x)
    (ok : Method.combine op wordSize a b s = .ok v t) : ∃ σ, Gains ρ σ start none v s t ∧ σ v = x := by
  unfold Method.combine at ok
  rw [getBind, ite_self] at ok
  obtain ⟨rfl, acted⟩ := withResultOk ok
  generalize Method.combinedKind op (s.value a).kind (s.value b).kind = valueKind at acted
  unfold Append.combine at acted
  rw [getBind, show (s.newValue valueKind).2.machine = X64.describe variant from machine] at acted
  have direct : ((X64.describe variant).planTernary op wordSize wordSize wordSize).helper = false := by
    simp [X64.describe, inlineTernary integer, inline]
  simp only [direct, Bool.false_eq_true, if_false] at acted
  let plan := (X64.describe variant).planTernary op wordSize wordSize wordSize
  let uses : List (ValueId × SiteMask × Option ValueId) := [(a, .ofOperand plan.a, none),
    (b, .ofOperand plan.b, if (X64.describe variant).condensesTernary op then some ⟨s.values.size⟩ else none)]
  have demands : Append.operation (.combine ⟨op, wordSize, a, wordSize, b, wordSize, ⟨s.values.size⟩⟩)
      (fun e => uses.forM fun u => demand e u.1 u.2.1 u.2.2) (s.newValue valueKind).2 = .ok () t := by
    simpa only [uses, List.forM_eq_forM, List.forM_cons, List.forM_nil, bind_pure_unit] using acted
  refine ⟨_, operationGains h valueKind rfl rfl (fun u member => ?_) (fun ds e appended => ?_) demands, Function.update_self ..⟩
  · simp only [uses, List.mem_cons, List.not_mem_nil, or_false] at member
    rcases member with rfl | rfl
    · exact first
    · exact second
  · obtain ⟨r₁, rest, ⟨value₁, demands₁⟩, more, reads⟩ := List.forall₂_cons_left_iff.mp appended.reads
    obtain ⟨r₂, rest, ⟨value₂, demands₂⟩, last, rfl⟩ := List.forall₂_cons_left_iff.mp more
    obtain rfl := List.forall₂_nil_left_iff.mp last
    refine .combine integer appended.kind reads value₁ value₂ demands₁ demands₂ ?_
    rw [unknownUpdate ρ x first, unknownUpdate ρ x second, Function.update_self, word]

theorem convertGains (h : Sketched ρ start es [] s) (machine : s.machine = X64.describe variant) {op : Binary}
    (integer : op ∈ Binary.integers) (inline : Operation.binary op ∉ variant.helpers) {a : ValueId} {x : Word}
    (operand : s.IsValue a) (word : op.onWord? wordSize (ρ a) = some x)
    (ok : Method.convert op wordSize wordSize a s = .ok v t) : ∃ σ, Gains ρ σ start none v s t ∧ σ v = x := by
  unfold Method.convert at ok
  rw [getBind] at ok
  obtain ⟨rfl, acted⟩ := withResultOk ok
  generalize Method.convertedKind op (s.value a).kind = valueKind at acted
  unfold Append.convert at acted
  rw [getBind, show (s.newValue valueKind).2.machine = X64.describe variant from machine] at acted
  have direct : ((X64.describe variant).planBinary op wordSize wordSize).helper = false := by
    simp [X64.describe, inline]
  simp only [direct, Bool.false_eq_true, if_false] at acted
  let uses : List (ValueId × SiteMask × Option ValueId) := [(a, .ofOperand ((X64.describe variant).planBinary op wordSize wordSize).a,
    if (X64.describe variant).condensesBinary op then some ⟨s.values.size⟩ else none)]
  have demands : Append.operation (.convert ⟨op, wordSize, a, wordSize, ⟨s.values.size⟩⟩)
      (fun e => uses.forM fun u => demand e u.1 u.2.1 u.2.2) (s.newValue valueKind).2 = .ok () t := by
    simpa only [uses, List.forM_eq_forM, List.forM_cons, List.forM_nil, bind_pure_unit] using acted
  refine ⟨_, operationGains h valueKind rfl rfl (fun u member => ?_) (fun ds e appended => ?_) demands, Function.update_self ..⟩
  · rw [List.mem_singleton.mp member]
    exact operand
  · obtain ⟨r, rest, ⟨value, -⟩, more, reads⟩ := List.forall₂_cons_left_iff.mp appended.reads
    obtain rfl := List.forall₂_nil_left_iff.mp more
    refine .convert integer appended.kind reads value ?_
    rw [unknownUpdate ρ x operand, Function.update_self, word]

theorem withoutHomeGains (h : Sketched ρ start es [] s) {a : ValueId} (operand : s.IsValue a)
    (ok : Method.withoutHome a s = .ok v t) : ∃ σ, Gains ρ σ start none v s t ∧ σ v = ρ a := by
  unfold Method.withoutHome at ok
  rw [getBind] at ok
  split at ok
  · obtain ⟨rfl, rfl⟩ := pureOk.mp ok
    exact ⟨ρ, ⟨⟨es, h⟩, fun _ _ => rfl, operand, le_rfl, ⟨rfl, rfl, rfl, rfl⟩, ⟨rfl, rfl, rfl⟩, fun n _ untaken => untaken⟩, rfl⟩
  · generalize (s.value a).kind = valueKind at ok
    obtain ⟨rfl, acted⟩ := withResultOk ok
    have demands : Append.operation (.join a ⟨s.values.size⟩) (fun e => [(a, .any, some ⟨s.values.size⟩)].forM fun u =>
        demand e u.1 u.2.1 u.2.2) (s.newValue valueKind).2 = .ok () t := by
      simp only [List.forM_eq_forM, List.forM_cons, List.forM_nil, bind_pure_unit]
      exact acted
    refine ⟨_, operationGains h valueKind (x := ρ a) rfl rfl (fun u member => ?_) (fun ds e appended => ?_) demands,
      Function.update_self ..⟩
    · rw [List.mem_singleton.mp member]
      exact operand
    · obtain ⟨r, rest, ⟨value, -⟩, more, reads⟩ := List.forall₂_cons_left_iff.mp appended.reads
      obtain rfl := List.forall₂_nil_left_iff.mp more
      refine .join appended.kind reads value ?_
      rw [unknownUpdate ρ _ operand, Function.update_self]

/-! The operand stack and the locals. -/

structure Reframes (s t : State) : Prop where
  rest : t = { s with values := t.values, frames := t.frames, stack := t.stack, locals := t.locals }
  size : t.values.size = s.values.size
  value : ∀ v, (t.value v).reads = (s.value v).reads ∧ (t.value v).lastRead = (s.value v).lastRead ∧
    (t.value v).sites = (s.value v).sites

namespace Reframes

theorem refl (s : State) : Reframes s s := ⟨rfl, rfl, fun _ => ⟨rfl, rfl, rfl⟩⟩

theorem trans (first : Reframes s t) (second : Reframes t s') : Reframes s s' :=
  ⟨by rw [second.rest, first.rest], second.size.trans first.size, fun v => ⟨(second.value v).1.trans (first.value v).1,
    (second.value v).2.1.trans (first.value v).2.1, (second.value v).2.2.trans (first.value v).2.2⟩⟩

theorem isValue (h : Reframes s t) : t.IsValue v ↔ s.IsValue v := by rw [IsValue, h.size, IsValue]

theorem idles (h : Reframes s t) : Idles s t := by
  rw [h.rest]
  exact ⟨rfl, rfl, rfl, rfl⟩

theorem untaken (h : Reframes s t) {n : Register} (untaken : s.Untaken n) : t.Untaken n := by
  rw [h.rest]
  exact untaken

theorem sketched (h : Reframes s t) (sketched : Sketched ρ start es [] s) : Sketched ρ start es [] t := by
  have sites : ∀ v, (t.value v).sites = (s.value v).sites := fun v => (h.value v).2.2
  have fields : t.site = s.site ∧ t.registerValues = s.registerValues ∧ t.promises = s.promises ∧ t.resources = s.resources ∧
      t.resource? = s.resource? ∧ t.IsSite = s.IsSite := by
    rw [h.rest]
    exact ⟨rfl, rfl, rfl, rfl, rfl, rfl⟩
  obtain ⟨site, waiting, promises, resources, resource, isSite⟩ := fields
  have pauses : Pauses s t := by
    refine ⟨by rw [h.rest]; exact .still rfl rfl rfl rfl rfl, by rw [h.rest], by rw [h.rest], by rw [h.rest],
      fun v => ⟨(h.value v).1, (h.value v).2.1⟩⟩
  refine sketched.pause pauses ⟨fun v i inside => ?_, fun o member => ?_, ⟨fun v => ?_, fun v w i first second => ?_⟩, ?_⟩
    (fun v i inside => ?_) (fun v known => h.isValue.mpr known) (fun v _ none _ => by rw [sites, none])
    (fun v inside unmade _ => ?_) (by simp)
  · rw [sites] at inside
    rw [site, promises, waiting, resources]
    exact (sketched.enters.words v i inside).imp_right fun ⟨n, there, member, has, unreserved, word⟩ =>
      ⟨n, there, member, has, by rwa [Free, resources], word⟩
  · rw [waiting] at member
    rw [sites, site]
    exact sketched.enters.waits o member
  · rw [sites]
    exact sketched.enters.once.each v
  · rw [sites] at first second
    exact sketched.enters.once.apart v w i first second
  · rw [waiting, resource]
    exact sketched.enters.apart
  · rw [sites] at inside
    rw [isSite]
    exact sketched.listed v i inside
  · rw [sites]
    exact sketched.housed v (h.isValue.mp inside) unmade List.not_mem_nil

end Reframes

def Heaps (ρ : ValueId → Word) (s : State) : Option StackId → List Word → Prop
  | top, [] => top = none
  | top, x :: words => ∃ n v, top = some n ∧ n.index < s.frames.nodes.size ∧ (s.frames.node n).value = some v ∧ s.IsValue v ∧
    ρ v = x ∧ Heaps ρ s (s.frames.node n).next words

theorem Heaps.congr {words : List Word} : ∀ {top : Option StackId}, Heaps ρ s top words →
    (∀ n : StackId, n.index < s.frames.nodes.size → n.index < t.frames.nodes.size ∧ t.frames.node n = s.frames.node n) →
    (∀ v, s.IsValue v → t.IsValue v ∧ σ v = ρ v) → Heaps σ t top words := by
  induction words with
  | nil => exact fun h _ _ => h
  | cons x words ih =>
    rintro top ⟨n, v, rfl, inside, value, known, word, rest⟩ nodes values
    obtain ⟨inside', node⟩ := nodes n inside
    obtain ⟨known', word'⟩ := values v known
    exact ⟨n, v, rfl, inside', by rw [node, value], known', word'.trans word, by rw [node]; exact ih rest nodes values⟩

structure Recalls (ρ : ValueId → Word) {n : Nat} (h : Fin n → ValueId) (words : Fin n → Word) (stack : List Word)
    (locals : Nat → Option Word) (s : State) : Prop where
  operands : ∀ i, s.IsValue (h i) ∧ ρ (h i) = words i
  stack : Heaps ρ s s.stack stack
  locals : ∀ (i : Nat) v, (s.frames.locals s.locals)[i]?.join = some v → s.IsValue v ∧ locals i = some (ρ v)

variable {n : Nat} {handles : Fin n → ValueId} {words : Fin n → Word} {stack : List Word} {locals : Nat → Option Word}

namespace Recalls

theorem gain (h : s.Recalls ρ handles words stack locals) (gains : Gains ρ σ start taken v s t) :
    t.Recalls σ handles words stack locals := by
  obtain ⟨frames, stack', locals'⟩ := gains.frames
  have known : ∀ w, s.IsValue w → t.IsValue w ∧ σ w = ρ w := fun w inside => ⟨inside.trans_le gains.size, gains.agree w inside⟩
  refine ⟨fun i => ?_, ?_, fun i w here => ?_⟩
  · obtain ⟨inside, word⟩ := h.operands i
    exact ⟨(known _ inside).1, (known _ inside).2.trans word⟩
  · rw [stack']
    refine h.stack.congr (fun m inside => ?_) known
    rw [frames]
    exact ⟨inside, rfl⟩
  · rw [frames, locals'] at here
    obtain ⟨inside, word⟩ := h.locals i w here
    exact ⟨(known w inside).1, by rw [(known w inside).2, word]⟩

theorem cons (h : s.Recalls ρ handles words stack locals) (known : s.IsValue v) :
    s.Recalls ρ (vecCons v handles) (vecCons (ρ v) words) stack locals :=
  ⟨Fin.cases ⟨known, rfl⟩ fun i => h.operands i, h.stack, h.locals⟩

end Recalls

theorem topOk {node : StackNode} (ok : Method.top s = .ok node t) :
    t = s ∧ ∃ n, s.stack = some n ∧ node = s.frames.node n := by
  unfold Method.top at ok
  rw [getBind] at ok
  cases here : s.stack with
  | none => simp [here] at ok
  | some n =>
    simp only [here] at ok
    obtain ⟨rfl, rfl⟩ := pureOk.mp ok
    exact ⟨rfl, n, rfl, rfl⟩

theorem popWordOk (ok : Method.popWord s = .ok () t) :
    ∃ n, s.stack = some n ∧ t = { s with stack := (s.frames.node n).next } := by
  obtain ⟨node, u, first, ok⟩ := bindOk.mp ok
  obtain ⟨rfl, n, here, rfl⟩ := topOk first
  refine ⟨n, here, ?_⟩
  cases value : (u.frames.node n).value with
  | none =>
    simp only [value] at ok
    exact modifyOk.mp ok
  | some v =>
    simp only [value, getBind] at ok
    split at ok
    · obtain ⟨_, _, failed, -⟩ := bindOk.mp ok
      cases failed
    · exact modifyOk.mp ok

theorem popRecalls (h : s.Recalls ρ handles words stack locals) (ok : Method.pop 1 s = .ok v t) :
    ∃ x rest, stack = x :: rest ∧ Reframes s t ∧ t.IsValue v ∧ ρ v = x ∧ t.Recalls ρ handles words rest locals := by
  obtain ⟨node, u, first, ok⟩ := bindOk.mp ok
  obtain ⟨rfl, n, here, rfl⟩ := topOk first
  obtain ⟨⟨⟩, w, dropped, answer⟩ := bindOk.mp ok
  obtain ⟨⟨⟩, w', popped, last⟩ := bindOk.mp dropped
  obtain ⟨m, here', rfl⟩ := popWordOk popped
  obtain rfl : m = n := Option.some.inj (here'.symm.trans here)
  obtain ⟨-, rfl⟩ := pureOk.mp last
  have heap := h.stack
  rw [here] at heap
  cases stack with
  | nil => cases heap
  | cons x rest =>
    obtain ⟨k, v', same, -, value, known, word, below⟩ := heap
    obtain rfl : m = k := Option.some.inj same
    rw [value] at answer
    obtain ⟨rfl, rfl⟩ := pureOk.mp answer
    refine ⟨x, rest, rfl, ⟨rfl, rfl, fun _ => ⟨rfl, rfl, rfl⟩⟩, known, word, h.operands, ?_, h.locals⟩
    exact below.congr (fun _ inside => ⟨inside, rfl⟩) fun _ inside => ⟨inside, rfl⟩

theorem reframesHome (s : State) (v : ValueId) (home : Nat) :
    Reframes s (s.modifyValue v fun d => { d with home := some home }) := by
  refine ⟨rfl, by simp [modifyValue], fun w => ?_⟩
  rw [valueModify]
  split
  · rename_i here
    rw [here.1]
    exact ⟨rfl, rfl, rfl⟩
  · exact ⟨rfl, rfl, rfl⟩

theorem pushValueRecalls (h : s.Recalls ρ handles words stack locals) (known : s.IsValue v) :
    Reframes s (after (Method.pushValue v) s) ∧ (after (Method.pushValue v) s).Recalls ρ handles words (ρ v :: stack) locals := by
  let u : State := { s with
    stack := some (s.frames.push (some v) s.stack).1, frames := (s.frames.push (some v) s.stack).2 }
  have state : after (Method.pushValue v) s =
      u.modifyValue v fun d => { d with home := some (Method.stackSlot s (s.frames.depth s.stack)) } := rfl
  have first : Reframes s u := ⟨rfl, rfl, fun _ => ⟨rfl, rfl, rfl⟩⟩
  have last := reframesHome u v (Method.stackSlot s (s.frames.depth s.stack))
  have whole := first.trans last
  rw [state]
  have node : ∀ m : StackId, m.index < s.frames.nodes.size → u.frames.node m = s.frames.node m := fun m inside => by
    simp [u, FrameTable.node, FrameTable.push, Array.getElem?_push, Nat.ne_of_lt inside]
  have new : u.frames.node ⟨s.frames.nodes.size⟩ = ⟨s.frames.depth s.stack, some v, s.stack⟩ := by
    simp [u, FrameTable.node, FrameTable.push]
  refine ⟨whole, fun i => ?_, ?_, fun i w here => ?_⟩
  · exact ⟨whole.isValue.mpr (h.operands i).1, (h.operands i).2⟩
  · refine ⟨⟨s.frames.nodes.size⟩, v, rfl, ?_, ?_, whole.isValue.mpr known, rfl, ?_⟩
    · show s.frames.nodes.size < (s.frames.nodes.push _).size
      simp
    · show (u.frames.node _).value = _
      rw [new]
    · show Heaps ρ _ (u.frames.node _).next stack
      rw [new]
      refine h.stack.congr (fun m inside => ⟨?_, node m inside⟩) fun w inside => ⟨whole.isValue.mpr inside, rfl⟩
      show m.index < (s.frames.nodes.push _).size
      simp
      omega
  · obtain ⟨inside, word⟩ := h.locals i w here
    exact ⟨whole.isValue.mpr inside, word⟩

theorem localSlotOk {index slot : Nat} (ok : Method.localSlot 1 index s = .ok slot t) : slot = index ∧ t = s := by
  unfold Method.localSlot at ok
  rw [getBind] at ok
  split at ok
  · cases ok
  · obtain ⟨rfl, rfl⟩ := pureOk.mp ok
    exact ⟨rfl, rfl⟩

theorem loadRecalls (h : s.Recalls ρ handles words stack locals) {index : Nat} (ok : Method.loadLocal 1 index s = .ok v t) :
    t = s ∧ s.IsValue v ∧ locals index = some (ρ v) := by
  obtain ⟨slot, u, first, found⟩ := bindOk.mp ok
  obtain ⟨rfl, rfl⟩ := localSlotOk first
  rw [getBind] at found
  cases here : (u.frames.locals u.locals)[slot]?.join with
  | none => simp [here] at found
  | some w =>
    simp only [here] at found
    obtain ⟨rfl, rfl⟩ := pureOk.mp found
    exact ⟨rfl, h.locals _ w here⟩

theorem copyLocalsRecalls (h : s.Recalls ρ handles words stack locals) :
    Reframes s (after Method.copyLocals s) ∧ (after Method.copyLocals s).Recalls ρ handles words stack locals ∧
      (after Method.copyLocals s).locals.index < (after Method.copyLocals s).frames.arrays.size := by
  have state : after Method.copyLocals s = { s with
    locals := (s.frames.copyLocals s.locals).1, frames := (s.frames.copyLocals s.locals).2 } := rfl
  rw [state]
  have same : (s.frames.copyLocals s.locals).2.locals (s.frames.copyLocals s.locals).1 = s.frames.locals s.locals := by
    simp [FrameTable.copyLocals, FrameTable.newLocals, FrameTable.locals]
  refine ⟨⟨rfl, rfl, fun _ => ⟨rfl, rfl, rfl⟩⟩, ⟨h.operands, ?_, ?_⟩, ?_⟩
  · exact h.stack.congr (fun m inside => ⟨inside, rfl⟩) fun w inside => ⟨inside, rfl⟩
  · intro i v here
    exact h.locals i v (same ▸ here)
  · simp [FrameTable.copyLocals, FrameTable.newLocals]

theorem setLocalRecalls (h : s.Recalls ρ handles words stack locals) (known : s.IsValue v) (own : s.locals.index < s.frames.arrays.size)
    (index : Nat) : Reframes s (after (Method.setLocal index v) s) ∧
      (after (Method.setLocal index v) s).Recalls ρ handles words stack (Function.update locals index (some (ρ v))) := by
  let u : State := { s with frames := s.frames.setLocal s.locals index (some v) }
  have state : after (Method.setLocal index v) s = u.modifyValue v fun d => { d with home := some (s.frameIndex index) } := rfl
  have first : Reframes s u := ⟨rfl, rfl, fun _ => ⟨rfl, rfl, rfl⟩⟩
  have whole := first.trans (reframesHome u v (s.frameIndex index))
  rw [state]
  have set : u.frames.locals s.locals = (s.frames.locals s.locals).set index (some v) := by
    simp [u, FrameTable.locals, FrameTable.setLocal, own, Array.getElem_modify]
  refine ⟨whole, fun i => ⟨whole.isValue.mpr (h.operands i).1, (h.operands i).2⟩, ?_, fun i w here => ?_⟩
  · exact h.stack.congr (fun m inside => ⟨inside, rfl⟩) fun w inside => ⟨whole.isValue.mpr inside, rfl⟩
  · change (u.frames.locals s.locals)[i]?.join = some w at here
    rw [set, List.getElem?_set] at here
    split at here
    · rename_i same
      subst same
      split at here
      · obtain rfl : v = w := by simpa using here
        exact ⟨whole.isValue.mpr known, Function.update_self ..⟩
      · cases here
    · rename_i apart
      obtain ⟨inside, word⟩ := h.locals i w here
      exact ⟨whole.isValue.mpr inside, by rw [Function.update_of_ne (Ne.symm apart), word]⟩

/-! The whole computation. -/

structure Portrays (variant : X64.Variant) (start : Processor) (registers : List Register) {n : Nat} (handles : Fin n → ValueId)
    (words : Fin n → Word) (stack : List Word) (locals : Nat → Option Word) (s : State) : Prop where
  known : ∃ ρ es, Sketched ρ start es [] s ∧ s.Recalls ρ handles words stack locals
  poised : s.Poised variant
  untaken : ∀ r ∈ registers, s.Untaken r

variable {registers : List Register} {x : Word}

namespace Portrays

theorem gain (taken : Option Register) {later : List Register}
    (h : s.Portrays variant start registers handles words stack locals)
    (gains : ∀ ρ es, Sketched ρ start es [] s → s.Recalls ρ handles words stack locals →
      ∃ σ, Gains ρ σ start taken v s t ∧ σ v = x)
    (others : ∀ r ∈ later, r ∈ registers ∧ taken ≠ some r) :
    t.Portrays variant start later (vecCons v handles) (vecCons x words) stack locals := by
  obtain ⟨ρ, es, sketched, recalls⟩ := h.known
  obtain ⟨σ, gained, rfl⟩ := gains ρ es sketched recalls
  obtain ⟨es', sketched'⟩ := gained.sketched
  exact ⟨⟨σ, es', sketched', (recalls.gain gained).cons gained.known⟩, h.poised.idle gained.idles,
    fun r member => gained.untaken r (others r member).2 (h.untaken r (others r member).1)⟩

theorem constant (h : s.Portrays variant start registers handles words stack locals) {value : Int} {valueKind : ValueKind}
    (ok : Method.constant value valueKind s = .ok v t) :
    t.Portrays variant start registers (vecCons v handles) (vecCons (BitVec.ofInt 64 value) words) stack locals :=
  h.gain none (fun _ _ sketched _ => constantGains sketched ok) fun _ member => ⟨member, nofun⟩

theorem register {r : Register} (h : s.Portrays variant start (r :: registers) handles words stack locals)
    (once : r ∉ registers) (ok : Method.register r s = .ok v t) :
    t.Portrays variant start registers (vecCons v handles) (vecCons (start.registers r) words) stack locals :=
  h.gain (some r) (fun _ _ sketched _ => registerGains sketched (h.untaken r List.mem_cons_self) ok) fun _ member =>
    ⟨List.mem_cons_of_mem _ member, fun same => once (Option.some.inj same ▸ member)⟩

theorem combine (h : s.Portrays variant start registers handles words stack locals) {op : Ternary}
    (integer : op ∈ Ternary.integers) (inline : Operation.ternary op ∉ variant.helpers) {a b : Fin n}
    (word : op.onWords? (words a) (words b) = some x) (ok : Method.combine op wordSize (handles a) (handles b) s = .ok v t) :
    t.Portrays variant start registers (vecCons v handles) (vecCons x words) stack locals := by
  refine h.gain none (fun ρ es sketched recalls => ?_) ?_
  · obtain ⟨first, left⟩ := recalls.operands a
    obtain ⟨second, right⟩ := recalls.operands b
    exact combineGains sketched h.poised.machine integer inline first second (by rw [left, right, word]) ok
  · exact fun _ member => ⟨member, nofun⟩

theorem convert (h : s.Portrays variant start registers handles words stack locals) {op : Binary}
    (integer : op ∈ Binary.integers) (inline : Operation.binary op ∉ variant.helpers) {a : Fin n}
    (word : op.onWord? wordSize (words a) = some x) (ok : Method.convert op wordSize wordSize (handles a) s = .ok v t) :
    t.Portrays variant start registers (vecCons v handles) (vecCons x words) stack locals := by
  refine h.gain none (fun ρ es sketched recalls => ?_) ?_
  · obtain ⟨operand, same⟩ := recalls.operands a
    exact convertGains sketched h.poised.machine integer inline operand (by rw [same, word]) ok
  · exact fun _ member => ⟨member, nofun⟩

theorem push (h : s.Portrays variant start registers handles words stack locals) {a : Fin n}
    (ok : Method.push 1 (handles a) s = .ok () t) :
    t.Portrays variant start registers handles words (words a :: stack) locals := by
  obtain ⟨ρ, es, sketched, recalls⟩ := h.known
  obtain ⟨v, u, copied, pushed⟩ := bindOk.mp ok
  obtain ⟨operand, same⟩ := recalls.operands a
  obtain ⟨σ, gains, word⟩ := withoutHomeGains sketched operand copied
  obtain ⟨es', sketched'⟩ := gains.sketched
  obtain ⟨reframes, recalls'⟩ := pushValueRecalls (recalls.gain gains) gains.known
  rw [afterOk pushed] at reframes recalls'
  rw [word, same] at recalls'
  exact ⟨⟨σ, es', reframes.sketched sketched', recalls'⟩, h.poised.idle (gains.idles.trans reframes.idles),
    fun r member => reframes.untaken (gains.untaken r nofun (h.untaken r member))⟩

theorem pop (h : s.Portrays variant start registers handles words (x :: stack) locals) (ok : Method.pop 1 s = .ok v t) :
    t.Portrays variant start registers (vecCons v handles) (vecCons x words) stack locals := by
  obtain ⟨ρ, es, sketched, recalls⟩ := h.known
  obtain ⟨y, rest, split, reframes, known, word, recalls'⟩ := popRecalls recalls ok
  cases split
  exact ⟨⟨ρ, es, reframes.sketched sketched, word ▸ recalls'.cons known⟩, h.poised.idle reframes.idles,
    fun r member => reframes.untaken (h.untaken r member)⟩

theorem store (h : s.Portrays variant start registers handles words stack locals) {a : Fin n} {index : Nat}
    (ok : Method.storeLocal 1 (handles a) index s = .ok () t) :
    t.Portrays variant start registers handles words stack (Function.update locals index (some (words a))) := by
  obtain ⟨ρ, es, sketched, recalls⟩ := h.known
  obtain ⟨slot, u, found, stored⟩ := bindOk.mp ok
  obtain ⟨rfl, rfl⟩ := localSlotOk found
  obtain ⟨⟨⟩, w, copied, stored⟩ := bindOk.mp stored
  obtain ⟨first, recalls₁, own⟩ := copyLocalsRecalls recalls
  rw [afterOk copied] at first recalls₁ own
  obtain ⟨v, w', given, set⟩ := bindOk.mp stored
  obtain ⟨operand, same⟩ := recalls₁.operands a
  obtain ⟨σ, gains, word⟩ := withoutHomeGains (first.sketched sketched) operand given
  obtain ⟨es', sketched'⟩ := gains.sketched
  obtain ⟨frames, -, locals'⟩ := gains.frames
  obtain ⟨last, recalls₂⟩ := setLocalRecalls (recalls₁.gain gains) gains.known (by rwa [frames, locals']) slot
  rw [afterOk set] at last recalls₂
  rw [word, same] at recalls₂
  exact ⟨⟨σ, es', last.sketched sketched', recalls₂⟩, 
    h.poised.idle ((first.idles.trans gains.idles).trans last.idles),
    fun r member => last.untaken (gains.untaken r nofun (first.untaken (h.untaken r member)))⟩

theorem load (h : s.Portrays variant start registers handles words stack locals) {index : Nat}
    (ok : Method.loadLocal 1 index s = .ok v t) :
    ∃ x, locals index = some x ∧ t.Portrays variant start registers (vecCons v handles) (vecCons x words) stack locals := by
  obtain ⟨ρ, es, sketched, recalls⟩ := h.known
  obtain ⟨rfl, known, word⟩ := loadRecalls recalls ok
  exact ⟨ρ v, word, ⟨ρ, es, sketched, recalls.cons known⟩, h.poised, h.untaken⟩

end Portrays

structure Concludes (variant : X64.Variant) (ρ : ValueId → Word) (start : Processor) (es : List EventId) (e : EventId) (v : ValueId)
    (s : State) : Prop where
  threaded : Threaded (es ++ [e]) s
  lined : s.Lined ((es ++ [e]).flatMap fun e => (s.event e).reads)
  calculates : s.Calculates ρ es
  enters : s.Enters ρ start s.registerValues
  made : ∀ v, s.MadeBy es v → s.IsValue v ∧ (s.value v).sites = []
  housed : ∀ v, s.IsValue v → ¬ s.MadeBy es v → (s.value v).sites ≠ []
  told : ∃ d, s.instruction? s.ip = some d ∧ d.lastEvent.isSome
  kind : (s.event e).kind = .leave (some v)
  reads : ∃ r, (s.event e).reads = [r] ∧ s.reads.value r = v ∧ s.Demands r (.register X64.rax)
  poised : s.Poised variant

theorem leaveConcludes (h : Sketched ρ start es [] s) (poised : s.Poised variant) (known : s.IsValue v)
    (ok : Method.leave (some v) s = .ok () t) : ∃ es e, Concludes variant ρ start es e v t := by
  have demands : Append.operation (.leave (some v)) (fun e => [(v, .register X64.rax, none)].forM fun u =>
      demand e u.1 u.2.1 u.2.2) s = .ok () t := by
    obtain ⟨e, u, created, ok⟩ := bindOk.mp ok
    have machine' : u.machine = X64.describe variant := (createAnnexes created).houses.machine.trans poised.machine
    refine bindOk.mpr ⟨e, u, created, ?_⟩
    obtain ⟨⟨⟩, w, demanded, appended⟩ := bindOk.mp ok
    refine bindOk.mpr ⟨⟨⟩, w, ?_, appended⟩
    simp only [getBind, machine'] at demanded
    simp only [List.forM_eq_forM, List.forM_cons, List.forM_nil, bind_pure_unit]
    exact demanded
  obtain ⟨ds, e, appended⟩ := operationAppends h.threaded h.lined rfl (fun u member => by
    rw [List.mem_singleton.mp member]
    exact known) demands
  obtain ⟨calculates, enters, made⟩ := h.appends appended
  obtain ⟨r, rest, ⟨value, demanded⟩, more, reads⟩ := List.forall₂_cons_left_iff.mp appended.reads
  obtain rfl := List.forall₂_nil_left_iff.mp more
  have isValue : ∀ w, t.IsValue w ↔ s.IsValue w := fun w => by rw [IsValue, appended.houses.size, IsValue]
  refine ⟨es ++ ds, e, appended.threaded, appended.lined, calculates, enters, fun w there => ?_, fun w inside absent => ?_,
    appended.told, appended.kind, ⟨r, reads, value, demanded⟩, poised.idle appended.houses.idles⟩
  · rw [isValue, appended.houses.listed]
    exact h.made w ((made w).mp there)
  · rw [appended.houses.listed]
    exact h.housed w ((isValue w).mp inside) (fun there => absent ((made w).mpr there)) List.not_mem_nil

theorem describeConcludes {n : Nat} (c : Computation n) (ternary : ∀ op ∈ Ternary.integers, Operation.ternary op ∉ variant.helpers)
    (binary : ∀ op ∈ Binary.integers, Operation.binary op ∉ variant.helpers) : ∀ {s : State} {handles : Fin n → ValueId}
    {words : Fin n → Word} {stack : List Word} {locals : Nat → Option Word},
    s.Portrays variant start c.registers handles words stack locals → c.registers.Nodup → c.describe handles s = .ok () t →
    c.result start.registers words stack locals = some x → ∃ ρ es e v, Concludes variant ρ start es e v t ∧ ρ v = x := by
  induction c with
  | leave v =>
    intro s handles words stack locals h _ ok result
    obtain ⟨ρ, es, sketched, recalls⟩ := h.known
    obtain ⟨known, word⟩ := recalls.operands v
    obtain ⟨es, e, concludes⟩ := leaveConcludes sketched h.poised known ok
    exact ⟨ρ, es, e, _, concludes, word.trans (Option.some.inj result)⟩
  | constant value kind rest ih =>
    intro s handles words stack locals h once ok result
    obtain ⟨v, u, made, ok⟩ := bindOk.mp ok
    exact ih (h.constant made) once ok result
  | register r rest ih =>
    intro s handles words stack locals h once ok result
    obtain ⟨fresh, once⟩ := List.nodup_cons.mp once
    obtain ⟨v, u, made, ok⟩ := bindOk.mp ok
    exact ih (h.register fresh made) once ok result
  | push v rest ih =>
    intro s handles words stack locals h once ok result
    obtain ⟨⟨⟩, u, pushed, ok⟩ := bindOk.mp ok
    exact ih (h.push pushed) once ok result
  | pop rest ih =>
    intro s handles words stack locals h once ok result
    obtain ⟨v, u, popped, ok⟩ := bindOk.mp ok
    cases stack with
    | nil => cases result
    | cons y stack => exact ih (h.pop popped) once ok result
  | store v index rest ih =>
    intro s handles words stack locals h once ok result
    obtain ⟨⟨⟩, u, stored, ok⟩ := bindOk.mp ok
    exact ih (h.store stored) once ok result
  | load index rest ih =>
    intro s handles words stack locals h once ok result
    obtain ⟨v, u, loaded, ok⟩ := bindOk.mp ok
    obtain ⟨y, found, h⟩ := h.load loaded
    obtain ⟨z, same, result⟩ := Option.bind_eq_some_iff.mp result
    obtain rfl : y = z := Option.some.inj (found.symm.trans same)
    exact ih h once ok result
  | combine op integer a b rest ih =>
    intro s handles words stack locals h once ok result
    obtain ⟨v, u, made, ok⟩ := bindOk.mp ok
    obtain ⟨y, word, result⟩ := Option.bind_eq_some_iff.mp result
    exact ih (h.combine integer (ternary op integer) word made) once ok result
  | convert op integer a rest ih =>
    intro s handles words stack locals h once ok result
    obtain ⟨v, u, made, ok⟩ := bindOk.mp ok
    obtain ⟨y, word, result⟩ := Option.bind_eq_some_iff.mp result
    exact ih (h.convert integer (binary op integer) word made) once ok result

theorem concludesReturns {handler : Option Int} {limitOffset : Nat} (h : Concludes variant ρ start es e v s) (drafted : s.Drafted)
    (ok : Compile.method handler limitOffset s = .ok () t) : start.outcome t.emitter.log = some (ρ v) := by
  obtain ⟨machine, emitter, stack, frame, numbered, away⟩ := h.poised
  obtain ⟨d, found, last⟩ := h.told
  obtain ⟨r, reads, reader, demands⟩ := h.reads
  have queue : (es ++ [e]).flatMap (fun e => (s.event e).reads) = es.flatMap (fun e => (s.event e).reads) ++ [r] := by
    rw [List.flatMap_append, List.flatMap_cons, List.flatMap_nil, List.append_nil, reads]
  obtain ⟨⟨⟩, u, entered, ok⟩ := bindOk.mp ok
  have queued := h.lined.queued
  rw [queue] at queued
  obtain ⟨⟨p, upheld⟩, first⟩ := prologueSustains drafted found last emitter h.enters away stack frame numbered queued h.made
    h.housed entered
  have isRead : ∀ x ∈ es, ∀ r ∈ (s.event x).reads, s.reads.IsRead r := fun x member r inside =>
    queued.isRead (List.mem_append_left _ (List.mem_flatMap.mpr ⟨x, member, inside⟩))
  have scheduled : Compile.eventsFrom u u.events.size u.firstEvent = es ++ [e] := by
    obtain ⟨w, ensured, steady⟩ := prologueSteady entered
    obtain ⟨-, rfl⟩ : () = () ∧ s = w := by simpa [ensureNothing found last] using ensured
    exact eventsScheduled (h.threaded.scheduled.calm steady.calm)
  rw [getBind, scheduled] at ok
  simp only [List.forM_eq_forM, List.forM_append, List.forM_cons, List.forM_nil, bind_pure_unit] at ok
  obtain ⟨⟨⟩, w, ran, left⟩ := bindOk.mp ok
  have upheld' : u.Sustains ρ start p (es.flatMap (fun e => (u.event e).reads) ++ [r])
      (es.flatMap (fun e => (u.event e).reads) ++ [r]) (u.MadeBy es) := by
    simp only [first.event]
    exact upheld.congr fun v => MadeBy.abide first
  obtain ⟨⟨q, final⟩, second⟩ := runSustains es (h.threaded.straight.abide first) (first.machine.trans machine)
    (by rw [first.geometry, stack]) (h.calculates.abide first isRead) upheld' ran
  have all := first.trans second
  refine leaveReturns (h.threaded.straight.abide all) (by rw [all.event, h.kind]) (by rw [all.event, reads]) ?_
    (demands.abide all) final left
  rw [all.reads.value r (queued.isRead (List.mem_append_right _ List.mem_cons_self)), reader]

/-! The start of the instruction. -/

theorem visitRootsOk {ip : Nat} (ok : Method.visitRoots ip s = .ok () t) : t = { s with roots := t.roots } := by
  unfold Method.visitRoots at ok
  rw [getBind] at ok
  cases visited : s.roots.visit ip with
  | error => simp [visited] at ok
  | ok d =>
    simp only [visited] at ok
    rw [modifyOk.mp ok]

theorem recordFrameOk (ok : Method.recordFrame s = .ok () t) : t = { s with events := t.events } ∧ s.Calm t ∧
    ∀ x, (t.event x).successors = (s.event x).successors ∧ (t.event x).junction = (s.event x).junction ∧
      (t.event x).kind = (s.event x).kind ∧ (t.event x).reads = (s.event x).reads := by
  have calm := Method.calmRecordFrame.holds ok
  have state := modifyOk.mp ok
  obtain here | ⟨p, here⟩ := s.predecessor.eq_none_or_eq_some
  · simp only [here] at state
    subst state
    exact ⟨rfl, calm, fun x => ⟨rfl, rfl, rfl, rfl⟩⟩
  · simp only [here] at state
    subst state
    exact ⟨rfl, calm, fun x => ⟨modifyEventField s p x Event.successors fun _ => rfl,
      modifyEventField s p x Event.junction fun _ => rfl, modifyEventField s p x Event.kind fun _ => rfl,
      modifyEventField s p x Event.reads fun _ => rfl⟩⟩

theorem startOk {ip : Nat} {entry : Instruction} (subroutine : s.subroutine = none) (found : s.instruction? s.ip = some entry)
    (bare : entry.lastEvent = none) (ok : Method.startInstruction ip s = .ok () t) :
    ∃ u w, appendDummy s = .ok () u ∧ Method.recordFrame u = .ok () w ∧ t = { w with
      subroutine := none, ip := ip, roots := t.roots
      instructions := w.instructions.modify (ip + 1) fun _ => some { stack := w.stack, locals := w.locals } } := by
  have here : instructionAt s.ip s = .ok entry s := by rw [foundInstruction, found]
  unfold Method.startInstruction at ok
  dsimp only at ok
  rw [getBind] at ok
  split at ok
  · obtain ⟨_, _, failed, -⟩ := bindOk.mp ok
    cases failed
  rw [getBind] at ok
  split at ok
  · obtain ⟨_, _, failed, -⟩ := bindOk.mp ok
    cases failed
  obtain ⟨⟨⟩, u, ensured, ok⟩ := bindOk.mp ok
  obtain ⟨⟨⟩, w, recorded, ok⟩ := bindOk.mp ok
  have dummied : appendDummy s = .ok () u := by
    unfold ensureEvent at ensured
    rw [getBind] at ensured
    obtain ⟨d, v, asked, ensured⟩ := bindOk.mp ensured
    rw [here] at asked
    cases asked
    rwa [bare, Option.isNone_none, if_pos rfl] at ensured
  have none : w.subroutine = none := by
    obtain ⟨_, _, d, v, w', created, linked, rfl⟩ := appendDummyOk dummied
    rw [(recordFrameOk recorded).1]
    have rest := congrArg State.subroutine ((createAnnexes created).trans (linkAnnexes linked)).rest
    exact rest.trans subroutine
  refine ⟨u, w, dummied, recorded, ?_⟩
  rw [getBind, modifyBind, none, Option.isSome_none, if_neg (by decide)] at ok
  rw [visitRootsOk ok]

structure Blank (s : State) : Prop where
  tables : s.values = #[] ∧ s.sites = #[] ∧ s.reads = {} ∧ s.events = #[] ∧ s.links = #[] ∧ s.forks = #[] ∧ s.registerValues = []
  place : s.firstEvent = none ∧ s.lastEvent = none ∧ s.predecessor = none ∧ s.fork = none ∧ s.subroutine = none
  entry : ∃ i, s.instruction? s.ip = some i ∧ i.lastEvent = none
  bounds : ∀ p, some p ∈ s.bounds → p = (none, none)
  stack : s.stack = none
  locals : ∀ x ∈ s.frames.locals s.locals, x = none

theorem Blank.threaded (h : s.Blank) : Threaded [] s := by
  obtain ⟨-, -, -, events, links, forks, -⟩ := h.tables
  obtain ⟨firstEvent, lastEvent, predecessor, fork, -⟩ := h.place
  have event : ∀ e, s.event e = default := fun e => by simp [State.event, events]
  have link : ∀ l, s.link l = default := fun l => by simp [State.link, links]
  refine ⟨⟨firstEvent, lastEvent, by simp, List.nodup_nil, by simp, fun e _ => ?_, by simp, fun _ => by simp [links], by simp,
    fun p member => ?_, by simp [forks]⟩, ⟨fun e => ?_, fun e => ?_, fun e => ?_, fun e => ?_, fun e => ?_, fun l => ?_⟩,
    predecessor, fun e _ => ?_, fork⟩
  · rw [event]; exact ⟨rfl, rfl, rfl⟩
  · rw [h.bounds p member]; simp
  · rw [event]; exact Nat.zero_le _
  · rw [event]; exact Nat.zero_le _
  · rw [event]; rfl
  · rw [event]; rfl
  · rw [event]; rfl
  · rw [link]; exact ⟨rfl, rfl⟩
  · rw [event]; rfl

theorem startPortrays {ip : Nat} (blank : s.Blank) (poised : s.Poised variant) (untaken : ∀ r ∈ registers, s.Untaken r)
    (ok : Method.startInstruction ip s = .ok () t) :
    t.Portrays variant start registers ![] ![] [] fun _ => none := by
  obtain ⟨entry, found, bare⟩ := blank.entry
  obtain ⟨values, sites, table, -, -, -, waiting⟩ := blank.tables
  obtain ⟨u, w, dummied, recorded, state⟩ := startOk blank.place.2.2.2.2 found bare ok
  obtain ⟨d, threaded, -, annexes, kind, reads⟩ := dummyAppends blank.threaded dummied
  obtain ⟨records, calm, same⟩ := recordFrameOk recorded
  have threaded' : Threaded [d] w := threaded.calm calm (by rw [records]) fun x => ⟨(same x).1, (same x).2.1, (same x).2.2.1⟩
  have strung : Threaded [d] t := by
    rw [state]
    refine threaded'.rebound rfl rfl rfl rfl fun p member => ?_
    obtain ⟨i, inside, here⟩ := Array.mem_map.mp member
    dsimp only at inside
    rcases memModify inside with old | ⟨j, old, rfl⟩
    · exact threaded'.scheduled.bounded p (Array.mem_map.mpr ⟨i, old, here⟩)
    · cases Option.some.inj here
      exact ⟨by simp, by simp⟩
  have event : t.event d = w.event d := by rw [state]; rfl
  have kind' : (t.event d).kind = .dummy := by rw [event, (same d).2.2.1, kind]
  have reads' : (t.event d).reads = [] := by rw [event, (same d).2.2.2, reads]
  have fields : t.values = s.values ∧ t.sites = s.sites ∧ t.registerValues = s.registerValues ∧ t.frames = s.frames ∧
      t.resource? = s.resource? := by
    rw [state, records, annexes.rest]
    exact ⟨rfl, rfl, rfl, rfl, rfl⟩
  have frame : t.stack = s.stack ∧ t.locals = s.locals := by
    rw [state, records, annexes.rest]
    exact ⟨rfl, rfl⟩
  have idles : Idles s t := by
    rw [state, records, annexes.rest]
    exact ⟨rfl, rfl, rfl, rfl⟩
  obtain ⟨values', sites', waiting', frames, resource⟩ := fields
  rw [values] at values'
  rw [waiting] at waiting'
  have unknown : ∀ v, ¬ t.IsValue v := fun v known => by simp [IsValue, values'] at known
  have value : ∀ v, t.value v = default := fun v => t.valueOutside (unknown v)
  have made : ∀ v, ¬ t.MadeBy [d] v := fun v => MadeBy.idle fun e member => by
    rw [List.mem_singleton.mp member]
    exact ⟨kind', reads'⟩
  refine ⟨⟨fun _ => 0#64, [d], ⟨strung, ⟨fun v => ?_, fun v => ?_⟩, ?_, ⟨fun v i inside => ?_, by simp [waiting'], ⟨fun v => ?_,
    fun v w i inside => ?_⟩, by simp [waiting']⟩, fun v i inside => ?_, fun v own => absurd own (made v),
    fun v known => absurd known (unknown v), by simp, by simp⟩, ⟨fun i => i.elim0, ?_, fun i v here => ?_⟩⟩, poised.idle idles,
    fun r member => ?_⟩
  · simp only [List.flatMap_cons, List.flatMap_nil, reads', List.append_nil, value]
    exact rfl
  · simp only [List.flatMap_cons, List.flatMap_nil, reads', List.append_nil, value]
    rfl
  · exact ⟨by simpa using .dummy kind' reads', List.pairwise_singleton _ _, by simp [reads']⟩
  · rw [value] at inside
    cases inside
  · rw [value]
    exact List.nodup_nil
  · rw [value] at inside
    cases inside
  · rw [value] at inside
    cases inside
  · rw [frame.1, blank.stack]
    rfl
  · rw [frames, frame.2] at here
    cases found : (s.frames.locals s.locals)[i]? with
    | none => simp [found] at here
    | some x => simp [found, blank.locals x (List.mem_of_getElem? found)] at here
  · obtain ⟨has, free, apart⟩ := untaken r member
    refine ⟨by rwa [idles.resources], by rwa [Free, idles.resources], ?_⟩
    rw [waiting', ]
    simp

end State

theorem Computation.drafts {n : Nat} (c : Computation n) : ∀ handles, (c.describe handles).Drafts := by
  have kept : ∀ {α : Type} {act : Build α}, (discard act).Drafts → act.Drafts := fun drafts =>
    ⟨fun s => by rw [← afterDiscarded]; exact drafts.keeps s⟩
  induction c with
  | leave v => exact fun h => ClientCall.drafts (c := .leave (some (h v))) trivial trivial
  | constant value kind rest ih =>
    exact fun h => .bind (kept (ClientCall.drafts (c := .constant value kind) trivial trivial)) fun v => ih _
  | register r rest ih => exact fun h => .bind (kept (ClientCall.drafts (c := .register r) trivial trivial)) fun v => ih _
  | push v rest ih => exact fun h => .bind (ClientCall.drafts (c := .push 1 (h v)) trivial trivial) fun _ => ih _
  | pop rest ih => exact fun h => .bind (kept (ClientCall.drafts (c := .pop 1) trivial trivial)) fun v => ih _
  | store v index rest ih =>
    exact fun h => .bind (ClientCall.drafts (c := .storeLocal 1 (h v) index) trivial trivial) fun _ => ih _
  | load index rest ih =>
    intro h
    refine .bind (.bind ?_ fun slot => .bind .get fun s => ?_) fun v => ih _
    · exact .bind .get fun s => .ite (.bind .throw fun _ => .pure) .pure
    · cases (s.frames.locals s.locals)[slot]?.join with
      | none => exact .throw
      | some v => exact .pure
  | combine op integer a b rest ih =>
    exact fun h => .bind (kept (ClientCall.drafts (c := .combine op wordSize (h a) (h b)) trivial trivial)) fun v => ih _
  | convert op integer a rest ih =>
    exact fun h => .bind (kept (ClientCall.drafts (c := .convert op wordSize wordSize (h a)) trivial trivial)) fun v => ih _

namespace X64

variable {variant : Variant} {settings : Settings} {helpers : Option HelperAddress}

def started (variant : Variant) (settings : Settings) (helpers : Option HelperAddress)
    (codeLength parameterFootprint localFootprint frameSize : Nat) : State :=
  (fresh (describe variant) settings (.recording {}) helpers).start codeLength parameterFootprint localFootprint frameSize

variable {codeLength parameterFootprint localFootprint frameSize : Nat}

theorem startedBlank : (started variant settings helpers codeLength parameterFootprint localFootprint frameSize).Blank := by
  have instructions : (started variant settings helpers codeLength parameterFootprint localFootprint frameSize).instructions =
      #[some { stack := none, locals := ⟨1⟩ }] ++ Array.replicate codeLength none := rfl
  refine ⟨⟨rfl, rfl, rfl, rfl, rfl, rfl, rfl⟩, ⟨rfl, rfl, rfl, rfl, rfl⟩, ⟨{ stack := none, locals := ⟨1⟩ }, ?_, rfl⟩,
    fun p member => ?_, rfl, fun x member => ?_⟩
  · have place : (started variant settings helpers codeLength parameterFootprint localFootprint frameSize).ip = -1 := rfl
    rw [instruction?, instructions, place]
    simp
  · rw [bounds, instructions] at member
    simpa using member
  · have own : (started variant settings helpers codeLength parameterFootprint localFootprint frameSize).frames.locals ⟨1⟩ =
        List.replicate localFootprint none := rfl
    exact List.eq_of_mem_replicate (own ▸ member)

theorem startedPoised (frame : ((started variant settings helpers codeLength parameterFootprint localFootprint
    frameSize).totalFrameSize + variant.footer) * wordSize ≤ modulus 32) :
    (started variant settings helpers codeLength parameterFootprint localFootprint frameSize).Poised variant := by
  have slots : (started variant settings helpers codeLength parameterFootprint localFootprint frameSize).resources.slots.length =
      (started variant settings helpers codeLength parameterFootprint localFootprint frameSize).totalFrameSize := by
    refine (List.length_map ..).trans (List.length_range.trans ?_)
    rfl
  refine ⟨rfl, rfl, rfl, ?_, rfl, fun n free => ?_⟩
  · rw [slots]
    exact frame
  · have reserved : n < 32 → (describe variant).reserved n = false := fun inside =>
      (freeFresh inside).mp (show (fresh (describe variant) settings (.recording {}) helpers).Free (.register n) from free)
    constructor <;> rintro rfl <;> simpa [describe] using reserved (by decide)

/- What straight-line code computes from words is what the compiled method returns. -/
theorem computationsReturnTheirWord {ip limitOffset : Nat} {handler : Option Int} {s t u : State} {w : Word} (c : Computation 0)
    (ternary : ∀ op ∈ Ternary.integers, Operation.ternary op ∉ variant.helpers)
    (binary : ∀ op ∈ Binary.integers, Operation.binary op ∉ variant.helpers) (distinct : c.registers.Nodup)
    (unreserved : ∀ r ∈ c.registers, r < 32 ∧ (describe variant).reserved r = false)
    (frame : ((started variant settings helpers codeLength parameterFootprint localFootprint frameSize).totalFrameSize +
      variant.footer) * wordSize ≤ modulus 32)
    (begun : Method.startInstruction ip (started variant settings helpers codeLength parameterFootprint localFootprint frameSize) =
      .ok () s) (described : c.describe ![] s = .ok () t) (compiled : Compile.method handler limitOffset t = .ok () u)
    (start : Processor) (result : c.result start.registers ![] [] (fun _ => none) = some w) :
    start.outcome u.emitter.log = some w := by
  have portrays : s.Portrays variant start c.registers ![] ![] [] fun _ => none :=
    startPortrays startedBlank (startedPoised frame) (fun r member => ?_) begun
  · obtain ⟨ρ, es, e, v, concludes, rfl⟩ := describeConcludes c ternary binary portrays distinct described result
    refine concludesReturns concludes ?_ compiled
    have fresh := draftedFresh (describe variant) settings (.recording {}) helpers
    have sized := (draftsStart codeLength parameterFootprint localFootprint frameSize fresh).drafted
    have started := (((ClientCall.drafts (c := .startInstruction ip) trivial trivial).holds begun) sized).drafted
    exact (((c.drafts ![]).holds described) started).drafted
  · obtain ⟨inside, free⟩ := unreserved r member
    have vacant : (fresh (describe variant) settings (.recording {}) helpers).Free (.register r) := (freeFresh inside).mpr free
    refine ⟨?_, vacant, fun o waiting => ?_⟩
    · simpa [started, State.start, ResourceTable.Has, ResourceTable.setFrame, fresh, State.empty, ResourceTable.ofRegisters,
        ResourceTable.registerNumbers, describe] using inside
    · cases waiting

/-- Divides what rdi holds by what rsi holds, and adds three. The quotient goes by way of the stack, the number by way of a
local. -/
def dividing : Computation 0 :=
  .register rdi <| .register rsi <| .combine .divide (by decide) 0 1 <| .push 0 <| .constant 3 .general <| .store 0 0 <|
    .pop <| .load 0 <| .combine .add (by decide) 0 1 <| .leave 0

theorem dividingReturnsQuotient : ∃ s t u, Method.startInstruction 0 (started {} {} none 1 0 1 4) = .ok () s ∧
    dividing.describe ![] s = .ok () t ∧ Compile.method none 0 t = .ok () u ∧
    Processor.numbered.outcome u.emitter.log = some (BitVec.ofNat 64 (7 / 6 + 3)) := by
  obtain ⟨⟨⟩, u, ok, -⟩ : Reaches (do
      Method.startInstruction 0
      dividing.describe ![]
      Compile.method none 0) (started {} {} none 1 0 1 4) fun _ => True := by decide +kernel
  obtain ⟨⟨⟩, s, begun, ok⟩ := bindOk.mp ok
  obtain ⟨⟨⟩, t, described, compiled⟩ := bindOk.mp ok
  exact ⟨s, t, u, begun, described, compiled, computationsReturnTheirWord dividing (by simp) (by simp) (by decide) (by decide)
    (by decide) begun described compiled Processor.numbered (by decide +kernel)⟩

end X64

end Lowering
