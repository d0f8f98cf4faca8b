import Lowering.Proofs.Loosening
import Lowering.Proofs.Overwriting
import Lowering.Proofs.Execution
import Lowering.Proofs.Client
/-!
What a bounds check does when it is carried out.

An index in a register is compared twice, with zero and with the length, as a number of 32 bits. Whether a
known index is negative is decided when the check is compiled, and on all of its 64 bits. The two agree on
the indexes whose sign is that of their low 32 bits.
-/
namespace Lowering

open State Build

def Request.IsMove (q : Request) : Prop := ∃ a b, q = .binary .move wordSize a wordSize b

namespace Processor

def takes? (p : Processor) (op : Ternary) (size : Nat) (a b : Operand) : Option Bool := do
  op.taken? size (← p.read a).toInt (← p.read b).toInt

/-- The addresses that are called until the code returns. A jump goes forward to its target, and what lies
before that is skipped. What is called comes back and leaves everything as it was. -/
def calls (p : Processor) : Option CodeTarget → List Request → Option (List Int)
  | none, [] => some []
  | some _, [] => none
  | some target, q :: rest =>
    if q = .bind target then p.calls none rest else p.calls (some target) rest
  | none, .leave _ _ :: _ => some []
  | none, .unary .call _ (.constant (.immediate h)) :: rest => (h :: ·) <$> p.calls none rest
  | none, .ternary op size a bSize b cSize c :: rest =>
    match op.isBranch, c with
    | true, .constant (.label target) => do
      if ← p.takes? op size a b then p.calls (some target) rest else p.calls none rest
    | _, _ => do (← p.step (.ternary op size a bSize b cSize c)).calls none rest
  | none, q :: rest => do (← p.step q).calls none rest

variable {p : Processor} {target : CodeTarget} {log rest : List Request}

theorem callsHandler (h : Int) : p.calls none (.unary .call wordSize (.immediate h) :: rest) = (h :: ·) <$> p.calls none rest := by
  simp [calls, Operand.immediate]

theorem callsBind : p.calls none (.bind target :: rest) = p.calls none rest := by simp [calls, step]

theorem callsFrom (apart : .bind target ∉ log) :
    p.calls (some target) (log ++ .bind target :: rest) = p.calls none rest := by
  induction log with
  | nil => simp [calls]
  | cons q log ih =>
    rw [List.cons_append, calls, if_neg fun same => apart (List.mem_cons.mpr (.inl same.symm))]
    exact ih fun later => apart (List.mem_cons_of_mem _ later)

theorem callsBranch {op : Ternary} {a b : Operand} {size bSize : Nat} {taken : Bool} (branch : op.isBranch = true)
    (takes : p.takes? op size a b = some taken) :
    p.calls none (.ternary op size a bSize b wordSize (.label target) :: rest) =
      if taken then p.calls (some target) rest else p.calls none rest := by
  simp [calls, branch, takes, Operand.label]

end Processor

def Word.int (w : Word) : Int := signed 32 w.toInt

theorem Word.intOfInt (c : Int) : Word.int (BitVec.ofInt 64 c) = signed 32 c := by
  rw [Word.int, BitVec.toInt_ofInt]
  exact Int.bmod_bmod_of_dvd (by decide)

theorem takesLess {p : Processor} {a b : Operand} {x y : Word} (first : p.read a = some x) (second : p.read b = some y) :
    p.takes? .jumpIfLess 4 a b = some (decide (Word.int y < Word.int x)) := by
  rw [Processor.takes?, first, second]
  rfl

theorem takesGreater {p : Processor} {a b : Operand} {x y : Word} (first : p.read a = some x)
    (second : p.read b = some y) : p.takes? .jumpIfGreater 4 a b = some (decide (Word.int y > Word.int x)) := by
  rw [Processor.takes?, first, second]
  rfl

variable {s s' t u : State} {e : EventId} {b : BoundsCheckEvent} {i k : SiteId} {a : Operand} {base : Register} {v : ValueId}
  {p : Processor} {x length : Word} {c : Int} {q : Request} {l l' : List Request} {negative : Option PromiseId}

structure State.Speaks (l : List Request) (s t : State) : Prop where
  rest : t = { s with promises := t.promises, resources := t.resources, emitter := t.emitter }
  kind : t.promises.kind = s.promises.kind
  promises : s.promises.size ≤ t.promises.size
  records : t.Records
  log : t.emitter.log = s.emitter.log ++ l

namespace State.Speaks

theorem trans (first : s.Speaks l t) (second : t.Speaks l' u) : s.Speaks (l ++ l') u :=
  ⟨by rw [second.rest, first.rest], second.kind.trans first.kind, first.promises.trans second.promises, second.records,
    by rw [second.log, first.log, List.append_assoc]⟩

theorem value (h : s.Speaks l t) (v : ValueId) : t.value v = s.value v := by
  rw [h.rest]
  rfl

theorem site (h : s.Speaks l t) (i : SiteId) : t.site i = s.site i := by
  rw [h.rest]
  rfl

theorem operand (h : s.Speaks l t) (i : SiteId) : t.operand i = s.operand i := by
  simp only [State.operand, h.site, constantOf, h.kind]

theorem emit (records : s.Records) (ok : emit q s = .ok () t) : s.Speaks [q] t := by
  obtain ⟨rest, records', log⟩ := emitRecords records ok
  refine ⟨?_, by rw [rest], by rw [rest], records', log⟩
  rw [rest]

theorem promise (records : s.Records) : s.Speaks [] (s.createPromise .code).2 := by
  refine ⟨rfl, ?_, by simp [createPromise, PromiseTable.create, PromiseTable.size], records, by simp [createPromise]⟩
  funext p
  by_cases inside : p.index < s.promises.promises.length
  · simp [createPromise, PromiseTable.create, PromiseTable.kind, List.getElem?_append_left inside]
  · simp only [createPromise, PromiseTable.create, PromiseTable.kind, List.getElem?_append_right (Nat.not_lt.mp inside),
      List.getElem?_eq_none (Nat.not_lt.mp inside)]
    cases p.index - s.promises.promises.length <;> rfl

theorem frozen (h : (s.freezeSite i).Speaks l t) : s.Speaks l (t.thawSite i) := by
  have kind := h.kind
  have promises := h.promises
  have log := h.log
  have rest := h.rest
  rw [freezeSiteRest] at kind promises log rest
  refine ⟨?_, ?_, ?_, h.records.quiet (emitterThaw i), by rw [emitterThaw, log]⟩
  · rw [thawSiteEq, rest]
    rfl
  · rw [thawSiteEq]
    exact kind
  · rw [thawSiteEq]
    exact promises

end State.Speaks

namespace Compile

def lengthAt (b : BoundsCheckEvent) (base : Register) : Operand := .memory { base, offset := signed 32 b.lengthOffset }

def lengthRequests (b : BoundsCheckEvent) (a : Operand) (base : Register) (negative : Option PromiseId) (next : PromiseId) :
    List Request :=
  .ternary .jumpIfGreater 4 a 4 (lengthAt b base) wordSize (.label (.promise next)) ::
    (negative.toList.map (.bind <| .promise ·) ++ [.unary .call wordSize (.immediate b.handler), .bind (.promise next)])

theorem checkSignSpeaks {negative : PromiseId} (records : s.Records) (source : (s.value b.index).source = some i)
    (operand : s.operand i = .ok a) (ok : checkSign b.index s = .ok negative t) :
    s.Speaks [.ternary .jumpIfLess 4 (.immediate 0) 4 a wordSize (.label (.promise negative))] t ∧
      negative.index < t.promises.size := by
  rw [checkSign, modifyGetBind] at ok
  have promised := State.Speaks.promise records
  have below : (s.createPromise .code).1.index < (s.createPromise .code).2.promises.size := by
    simp [createPromise, PromiseTable.create, PromiseTable.size]
  generalize (s.createPromise .code).2 = u at ok promised below
  obtain ⟨a', u', sourced, ok⟩ := bindOk.mp ok
  obtain ⟨i', u'', found, placed⟩ := bindOk.mp sourced
  obtain ⟨source', rfl⟩ := sourceOfOk.mp found
  obtain ⟨operand', rfl⟩ := operandOfOk.mp placed
  rw [promised.value, source] at source'
  cases source'
  rw [promised.operand, operand] at operand'
  cases operand'
  obtain ⟨⟨⟩, u', emitted, same⟩ := bindOk.mp ok
  obtain ⟨rfl, rfl⟩ := pureOk.mp same
  have jumped := State.Speaks.emit promised.records emitted
  exact ⟨promised.trans jumped, Nat.lt_of_lt_of_le below jumped.promises⟩

theorem checkLengthSpeaks (records : s.Records) (object : (s.value b.object).source = some k)
    (register : (s.site k).number? = some base) (source : (s.value b.index).source = some i)
    (operand : s.operand i = .ok a) (ok : checkLength b negative s = .ok () t) :
    ∃ next : PromiseId, s.promises.size ≤ next.index ∧ s.Speaks (lengthRequests b a base negative next) t := by
  obtain ⟨k', u, found, ok⟩ := bindOk.mp ok
  obtain ⟨object', same⟩ := sourceOfOk.mp found
  rw [same] at ok
  rw [object] at object'
  cases object'
  obtain ⟨base', u, held, ok⟩ := bindOk.mp ok
  obtain ⟨register', same⟩ := registerOfNumber held
  rw [same] at ok
  rw [register] at register'
  cases register'
  rw [modifyGetBind] at ok
  have promised := State.Speaks.promise records
  refine ⟨(s.createPromise .code).1, le_rfl, ?_⟩
  generalize (s.createPromise .code).2 = u at ok promised
  generalize (s.createPromise .code).1 = next at ok ⊢
  obtain ⟨i', u', found, ok⟩ := bindOk.mp ok
  obtain ⟨source', rfl⟩ := sourceOfOk.mp found
  rw [promised.value, source] at source'
  cases source'
  obtain ⟨⟨⟩, w, kept, ok⟩ := bindOk.mp ok
  obtain ⟨w', compared, rfl⟩ := whileFrozenOk.mp kept
  obtain ⟨a', w'', placed, jumped⟩ := bindOk.mp compared
  obtain ⟨operand', rfl⟩ := operandOfOk.mp placed
  rw [operandFreeze, promised.operand, operand] at operand'
  cases operand'
  have compares := State.Speaks.emit (promised.records.quiet (by rw [freezeSiteRest])) jumped
  have until_ := promised.trans compares.frozen
  have bound : ∀ {s t : State} {target : CodeTarget}, s.Records → Compile.bind target s = .ok () t → s.Speaks [.bind target] t :=
    fun records ok => .emit records ok
  cases negative with
  | none =>
    obtain ⟨⟨⟩, w₁, called, last⟩ := bindOk.mp ok
    have calls := State.Speaks.emit until_.records called
    exact (until_.trans calls).trans (bound calls.records last)
  | some p =>
    obtain ⟨⟨⟩, w₁, first, ok⟩ := bindOk.mp ok
    obtain ⟨⟨⟩, w₂, called, last⟩ := bindOk.mp ok
    have binds := bound until_.records first
    have calls := State.Speaks.emit binds.records called
    exact ((until_.trans binds).trans calls).trans (bound calls.records last)

theorem callsNegative {next n : PromiseId} :
    p.calls (some (.promise n)) (lengthRequests b a base (some n) next) = some [b.handler] := by
  have skips : p.calls (some (.promise n)) (lengthRequests b a base (some n) next) =
      p.calls none [.unary .call wordSize (.immediate b.handler), .bind (.promise next)] :=
    @Processor.callsFrom _ _ [_] _ (by simp)
  rw [skips, Processor.callsHandler, Processor.callsBind]
  rfl

theorem callsLength {next : PromiseId} (index : p.read a = some x) (kept : p.read (lengthAt b base) = some length)
    (apart : ∀ n ∈ negative, n ≠ next) :
    p.calls none (lengthRequests b a base negative next) = some (if x.int < length.int then [] else [b.handler]) := by
  rw [lengthRequests, Processor.callsBranch rfl (takesGreater index kept)]
  by_cases inside : x.int < length.int
  · have skips := @Processor.callsFrom p (.promise next)
      (negative.toList.map (.bind <| .promise ·) ++ [.unary .call wordSize (.immediate b.handler)]) [] <| by
      simpa using fun same => apart next same rfl
    rw [if_pos (by simpa using inside), if_pos inside]
    rw [List.append_assoc] at skips
    exact skips
  · rw [if_neg (by simpa using inside), if_neg inside]
    cases negative with
    | none =>
      simp only [Option.toList, List.map_nil, List.nil_append]
      rw [Processor.callsHandler, Processor.callsBind]
      rfl
    | some n =>
      simp only [Option.toList, List.map_cons, List.map_nil, List.cons_append, List.nil_append]
      rw [Processor.callsBind, Processor.callsHandler, Processor.callsBind]
      rfl

end Compile

/-- The check of an index, wherever it is, calls the handler unless the index is at least zero and below the
length, all as numbers of 32 bits. A known index must have the sign that it has as such a number. -/
theorem checksAsInt (records : s.Records) (object : (s.value b.object).source = some k)
    (register : (s.site k).number? = some base) (kept : p.read (Compile.lengthAt b base) = some length)
    (source : (s.value b.index).source = some i) (operand : s.operand i = .ok a)
    (index : p.read a = some (BitVec.ofInt 64 c))
    (known : ∀ n, s.knownNumber? b.index = some n → n = c ∧ (c < 0 ↔ signed 32 c < 0))
    (ok : Compile.boundsCheck e b s = .ok () t) :
    ∃ checks moves, t.emitter.log = s.emitter.log ++ checks ++ moves ∧ (∀ q ∈ moves, q.IsMove) ∧
      p.calls none checks = some (if 0 ≤ signed 32 c ∧ signed 32 c < length.int then [] else [b.handler]) := by
  have consumed : ∀ {u : State} {checks : List Request}, s.Speaks checks u → (do
      consumeRead (some e) b.object
      consumeRead (some e) b.index : Build Unit) u = .ok () t →
      ∃ moves, t.emitter.log = s.emitter.log ++ checks ++ moves ∧ ∀ q ∈ moves, q.IsMove := by
    intro u checks speaks ran
    have moves : ∀ x y, (Request.binary .move wordSize x wordSize y).IsMove := fun x y => ⟨x, y, rfl⟩
    obtain ⟨⟨⟩, w, first, later⟩ := bindOk.mp ran
    have uttered := uttersConsumeRead moves speaks.records first
    obtain ⟨l, log, all⟩ := (uttered.trans (uttersConsumeRead moves uttered.records later)).log
    exact ⟨l, by rw [log, speaks.log], all⟩
  have int : Word.int (BitVec.ofInt 64 c) = signed 32 c := Word.intOfInt c
  rw [Compile.boundsCheck, getBind] at ok
  cases number : s.knownNumber? b.index with
  | some n =>
    obtain ⟨rfl, sign⟩ := known n number
    simp only [number] at ok
    split at ok
    · rename_i negative
      obtain ⟨⟨⟩, u, called, ok⟩ := bindOk.mp ok
      obtain ⟨moves, log, all⟩ := consumed (.emit records called) ok
      refine ⟨_, moves, log, all, ?_⟩
      rw [if_neg fun inside => absurd (sign.mp negative) (Int.not_lt.mpr inside.1), Processor.callsHandler]
      rfl
    · rename_i positive
      obtain ⟨⟨⟩, u, checked, ok⟩ := bindOk.mp ok
      obtain ⟨next, -, speaks⟩ := Compile.checkLengthSpeaks records object register source operand checked
      obtain ⟨moves, log, all⟩ := consumed speaks ok
      refine ⟨_, moves, log, all, ?_⟩
      rw [Compile.callsLength index kept (by simp), int]
      have least : 0 ≤ signed 32 n := Int.not_lt.mp fun below => positive (sign.mpr below)
      simp [least]
  | none =>
    simp only [number] at ok
    obtain ⟨n, u, signed_, ok⟩ := bindOk.mp ok
    obtain ⟨⟨⟩, u', checked, ok⟩ := bindOk.mp ok
    obtain ⟨compares, below⟩ := Compile.checkSignSpeaks records source operand signed_
    obtain ⟨next, above, speaks⟩ := Compile.checkLengthSpeaks compares.records
      (by rw [compares.value]; exact object) (by rw [compares.site]; exact register)
      (by rw [compares.value]; exact source) (by rw [compares.operand]; exact operand) checked
    obtain ⟨moves, log, all⟩ := consumed (compares.trans speaks) ok
    refine ⟨_, moves, log, all, ?_⟩
    have zero : p.read (.immediate 0) = some (BitVec.ofInt 64 0) := rfl
    rw [List.singleton_append, Processor.callsBranch rfl (takesLess zero index), int, Word.intOfInt]
    by_cases negative : signed 32 c < 0
    · rw [if_pos (by simpa [signed] using negative), Compile.callsNegative,
        if_neg fun inside => absurd negative (Int.not_lt.mpr inside.1)]
    · rw [if_neg (by simpa [signed] using negative), Compile.callsLength index kept, int]
      · simp [Int.not_lt.mp negative]
      · rintro m member rfl
        cases member
        exact absurd below (Nat.not_lt.mpr above)

/-- An object in a register, and an index at a site, both read by an event. -/
def State.indexing (index : Site) : State :=
  let s := (State.empty (X64.describe {}) {} (.recording {})).start 1 0 0 4
  { s with
    values := #[{ kind := .general, next := ⟨0⟩, reads := some ⟨0⟩, sites := [⟨0⟩], source := some ⟨0⟩ },
      { kind := .general, next := ⟨1⟩, reads := some ⟨1⟩, sites := [⟨1⟩], source := some ⟨1⟩ }]
    sites := #[.ofRegister X64.rdi, index]
    reads := ⟨#[⟨⟨0⟩, some ⟨0⟩, .single .any none none⟩, ⟨⟨1⟩, some ⟨0⟩, .single .any none none⟩]⟩
    promises := (s.promises.create (.resolved 3)).2 }

def Processor.checking (index length : Word) : Processor :=
  ⟨fun r => if r = X64.rsi then index else 0#64, fun _ => some length⟩

/-- The third element is checked, where it is known which one it is. -/
theorem threeIsChecked : ∃ t checks moves,
    Compile.boundsCheck ⟨0⟩ ⟨⟨0⟩, 8, ⟨1⟩, 4096⟩ (indexing (.constant ⟨0⟩)) = .ok () t ∧
      t.emitter.log = (indexing (.constant ⟨0⟩)).emitter.log ++ checks ++ moves ∧ (∀ q ∈ moves, q.IsMove) ∧
        (Processor.checking 3 2).calls none checks = some (if 0 ≤ signed 32 3 ∧ signed 32 3 < Word.int 2 then [] else [4096]) := by
  have base : ((indexing (.constant ⟨0⟩)).site ⟨0⟩).number? = some X64.rdi := rfl
  have length : (Processor.checking 3 2).read (Compile.lengthAt ⟨⟨0⟩, 8, ⟨1⟩, 4096⟩ X64.rdi) = some 2 := rfl
  obtain ⟨⟨⟩, t, ok⟩ : Succeeds (Compile.boundsCheck ⟨0⟩ ⟨⟨0⟩, 8, ⟨1⟩, 4096⟩) (indexing (.constant ⟨0⟩)) := by decide +kernel
  obtain ⟨checks, moves, emitted⟩ := checksAsInt (i := ⟨1⟩) (k := ⟨0⟩) (a := .immediate 3) (c := 3)
    (p := .checking 3 2) ⟨_, rfl⟩ rfl base length rfl rfl rfl (fun n known => ⟨by cases known; rfl, by decide⟩) ok
  exact ⟨t, checks, moves, ok, emitted⟩

def ClientCall.checking (index : ClientCall) : List ClientCall :=
  [.start 1 0 0 2, .startInstruction 0, .register X64.rdi, index, .checkBounds ⟨0⟩ 8 ⟨1⟩ 4096, .leave none, .compile none 0]

/- As a number of 32 bits the index is negative. Its 64 bits are not, so a length of ten is taken to be above it. -/
theorem wideIndexPasses :
    (Processor.checking (BitVec.ofInt 64 (2 ^ 31)) 10).calls none
        (described (ClientCall.checking (.constant (2 ^ 31) .general))).emitter.log = some [] ∧
      (Processor.checking (BitVec.ofInt 64 (2 ^ 31)) 10).calls none
        (described (ClientCall.checking (.register X64.rsi))).emitter.log = some [4096] ∧
      ¬ (0 ≤ signed 32 (2 ^ 31)) := by
  decide +kernel

end Lowering
