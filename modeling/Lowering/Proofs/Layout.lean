import Lowering.Method.Finish
import Lowering.Proofs.Client
import Lowering.Proofs.Decoding
import Lowering.Proofs.Precedence
/-!
Where the words of a finished method are.

Promises get their values from one layout: the code, and from the next word boundary on the pool.
The patches and the pool are filled in afterwards, each from the value that its promise got, so an
address that was given out for a pool word is where the word is.
-/
namespace Lowering

open Build State

variable {α β : Type} {s s' t : State}

/-! Words in code. -/

def wordAt (code : List UInt8) (offset : Nat) : List UInt8 := (code.drop offset).take wordSize

theorem wordAtEq {code code' : List UInt8} {offset offset' : Nat}
    (same : ∀ i < wordSize, code'[offset' + i]? = code[offset + i]?) :
    wordAt code' offset' = wordAt code offset := by
  refine List.ext_getElem? fun i => ?_
  simp only [wordAt, List.getElem?_take, List.getElem?_drop]
  split
  · exact same i ‹_›
  · rfl

namespace Method

variable {code code' : List UInt8} {offset : Nat} {value : Int}

theorem writeWordLength (inside : offset + wordSize ≤ code.length) :
    (writeWord code offset value).length = code.length := by
  simp only [writeWord, List.length_append, List.length_take, List.length_drop, littleEndianLength]
  omega

theorem writeWordElsewhere (inside : offset + wordSize ≤ code.length) {i : Nat}
    (outside : i < offset ∨ offset + wordSize ≤ i) : (writeWord code offset value)[i]? = code[i]? := by
  have width : (code.take offset ++ littleEndian wordSize value).length = offset + wordSize := by
    simp only [List.length_append, List.length_take, littleEndianLength]
    omega
  rcases outside with before | behind
  · rw [writeWord, List.append_assoc, List.getElem?_append_left (by simp; omega), List.getElem?_take_of_lt before]
  · rw [writeWord, List.getElem?_append_right (by omega), width, List.getElem?_drop, Nat.add_sub_cancel' behind]

theorem writeWordThere (inside : offset + wordSize ≤ code.length) :
    wordAt (writeWord code offset value) offset = littleEndian wordSize value := by
  have width : (code.take offset).length = offset := by
    rw [List.length_take]
    omega
  rw [wordAt, writeWord, List.append_assoc, List.drop_append_of_le_length width.ge,
    List.drop_of_length_le width.le, List.nil_append,
    List.take_append_of_le_length (littleEndianLength ..).ge,
    List.take_of_length_le (littleEndianLength ..).le]

/-! Filling in the patches. -/

def Apart (p q : Patch) : Prop := p.offset + wordSize ≤ q.offset ∨ q.offset + wordSize ≤ p.offset

instance (p q : Patch) : Decidable (Apart p q) := inferInstanceAs (Decidable (_ ∨ _))

theorem resolvedOk {p : PromiseId} {v : Int} (ok : resolved p s = .ok v s') :
    s' = s ∧ s.promises.value? p = some v := by
  rw [resolved, getBind] at ok
  cases found : s.promises.value? p with
  | none => simp [found] at ok
  | some w =>
    rw [found] at ok
    obtain ⟨rfl, rfl⟩ := pureOk.mp ok
    exact ⟨rfl, rfl⟩

theorem applyPatchOk {p : Patch} (ok : applyPatch code p s = .ok code' s') :
    s' = s ∧ p.offset + wordSize ≤ code.length ∧
      ∃ v, s.promises.value? p.promise = some v ∧ code' = writeWord code p.offset v := by
  simp only [applyPatch, bindOk] at ok
  obtain ⟨v, t, found, ok⟩ := ok
  obtain ⟨rfl, found⟩ := resolvedOk found
  split at ok
  · simp at ok
  · obtain ⟨rfl, rfl⟩ := pureOk.mp ok
    exact ⟨rfl, by omega, v, found, rfl⟩

theorem patchesOk {patches : List Patch} (ok : patches.foldlM applyPatch code s = .ok code' s') :
    s' = s ∧ code'.length = code.length ∧
      (∀ i, (∀ p ∈ patches, i < p.offset ∨ p.offset + wordSize ≤ i) → code'[i]? = code[i]?) ∧
      (patches.Pairwise Apart → ∀ p ∈ patches, ∃ v, s.promises.value? p.promise = some v ∧
        wordAt code' p.offset = littleEndian wordSize v) := by
  induction patches generalizing code with
  | nil =>
    obtain ⟨rfl, rfl⟩ := pureOk.mp ok
    exact ⟨rfl, rfl, fun _ _ => rfl, fun _ => by simp⟩
  | cons p rest ih =>
    rw [List.foldlM_cons, bindOk] at ok
    obtain ⟨first, t, patched, ok⟩ := ok
    obtain ⟨rfl, inside, v, found, rfl⟩ := applyPatchOk patched
    obtain ⟨rfl, length, elsewhere, filled⟩ := ih ok
    refine ⟨rfl, length.trans (writeWordLength inside), fun i outside => ?_, fun apart q member => ?_⟩
    · rw [elsewhere i fun q later => outside q (List.mem_cons_of_mem _ later),
        writeWordElsewhere inside (outside p List.mem_cons_self)]
    · obtain ⟨away, others⟩ := List.pairwise_cons.mp apart
      rcases List.mem_cons.mp member with rfl | later
      · refine ⟨v, found, ?_⟩
        refine Eq.trans ?_ (writeWordThere inside)
        refine wordAtEq fun i small => elsewhere _ fun p later => ?_
        rcases away p later with before | behind
        · exact .inl (by omega)
        · exact .inr (by omega)
      · exact filled others q later

theorem poolOk {pool : List PromiseId} {values : List Int} (ok : pool.mapM resolved s = .ok values s') :
    s' = s ∧ pool.map s.promises.value? = values.map some := by
  induction pool generalizing values with
  | nil =>
    obtain ⟨rfl, rfl⟩ := pureOk.mp ok
    exact ⟨rfl, rfl⟩
  | cons p rest ih =>
    simp only [List.mapM_cons, bindOk, pureOk] at ok
    obtain ⟨v, t, found, others, u, later, rfl, rfl⟩ := ok
    obtain ⟨rfl, found⟩ := resolvedOk found
    obtain ⟨rfl, same⟩ := ih later
    exact ⟨rfl, by rw [List.map_cons, found, same, List.map_cons]⟩

end Method

theorem wordOfPool (values : List Int) {i : Nat} {v : Int} (here : values[i]? = some v) :
    wordAt (values.flatMap (littleEndian wordSize)) (wordSize * i) = littleEndian wordSize v := by
  induction values generalizing i with
  | nil => simp at here
  | cons w rest ih =>
    rw [List.flatMap_cons]
    cases i with
    | zero =>
      cases here
      rw [wordAt, Nat.mul_zero, List.drop_zero, List.take_append_of_le_length (littleEndianLength ..).ge,
        List.take_of_length_le (littleEndianLength ..).le]
    | succ i =>
      rw [← ih here]
      refine wordAtEq fun k small => ?_
      have behind : wordSize * (i + 1) + k = wordSize + (wordSize * i + k) := by
        rw [Nat.mul_succ]
        omega
      rw [behind, List.getElem?_append_right (by rw [littleEndianLength]; omega), littleEndianLength,
        Nat.add_sub_cancel_left]

theorem poolLength (values : List Int) :
    (values.flatMap (littleEndian wordSize)).length = wordSize * values.length := by
  simp [List.length_flatMap, littleEndianLength, Nat.mul_comm]

theorem roundUpLeast (n : Nat) : IsLeast {k | n ≤ k ∧ wordSize ∣ k} (roundUp n wordSize) := by
  constructor
  · exact ⟨by simp only [roundUp, wordSize]; omega, Nat.dvd_mul_left ..⟩
  · rintro k ⟨above, d, rfl⟩
    simp only [roundUp, wordSize] at above ⊢
    omega

/-! Values of promises. -/

/-- The value that a promise gets, which is the one it has if it has one. -/
def Promise.outcome (l : CodeLayout) (p : PromiseId) (d : Promise) : Except Error Int :=
  match d.value with
  | some v => .ok v
  | none => l.value p d.kind

theorem resolvedFrom {l : CodeLayout} {i : Nat} {ps : List Promise}
    (done : (PromiseTable.resolveFrom l i ps).error = none) {j : Nat} {d : Promise}
    (here : ps[j]? = some d) : ∃ v, d.outcome l ⟨i + j⟩ = .ok v ∧
      (PromiseTable.resolveFrom l i ps).promises[j]?.bind (·.value) = some v := by
  induction ps generalizing i j with
  | nil => simp at here
  | cons p rest ih =>
    have later : ∀ {j : Nat}, (PromiseTable.resolveFrom l (i + 1) rest).error = none →
        rest[j]? = some d → ∃ v, d.outcome l ⟨i + (j + 1)⟩ = .ok v ∧
          (PromiseTable.resolveFrom l (i + 1) rest).promises[j]?.bind (·.value) = some v := by
      intro j done here
      rw [Nat.add_comm j, ← Nat.add_assoc]
      exact ih done here
    cases known : p.value with
    | some v =>
      simp only [PromiseTable.resolveFrom, known] at done ⊢
      cases j with
      | zero =>
        cases here
        exact ⟨v, by rw [Promise.outcome, known], known⟩
      | succ j => exact later done here
    | none =>
      simp only [PromiseTable.resolveFrom, known] at done ⊢
      cases given : l.value ⟨i⟩ p.kind with
      | error e => simp [given] at done
      | ok v =>
        simp only [given] at done ⊢
        cases j with
        | zero =>
          cases here
          exact ⟨v, by rw [Promise.outcome, known]; exact given, rfl⟩
        | succ j => exact later done here

theorem resolveAllGives {l : CodeLayout} {t : PromiseTable} (done : (t.resolveAll l).error = none)
    {p : PromiseId} {d : Promise} (here : t.promises[p.index]? = some d) :
    ∃ v, d.outcome l p = .ok v ∧ PromiseTable.value? ⟨(t.resolveAll l).promises⟩ p = some v := by
  have given := resolvedFrom done here
  rwa [Nat.zero_add] at given

/-! Finishing. -/

structure CompiledMethod.Consistent (m : CompiledMethod) (machine : MachineCode)
    (pool : List PromiseId) (promises : PromiseTable) : Prop where
  size : m.codeSize = machine.bytes.length
  kept : ∀ i < m.codeSize, (∀ p ∈ machine.patches, i < p.offset ∨ p.offset + wordSize ≤ i) →
    m.code[i]? = machine.bytes[i]?
  patched : ∀ p ∈ machine.patches, ∃ v, promises.value? p.promise = some v ∧
    wordAt m.code p.offset = littleEndian wordSize v
  poolStart : IsLeast {k | m.codeSize ≤ k ∧ wordSize ∣ k} m.poolOffset
  pooled : ∀ (i : Nat) p, pool[i]? = some p → ∃ v, promises.value? p = some v ∧
    wordAt m.code (m.poolOffset + wordSize * i) = littleEndian wordSize v
  ended : m.code.length = m.poolOffset + wordSize * pool.length

namespace Method

theorem poolPromiseOk {q p : PromiseId} (ok : poolPromise q s = .ok p t) :
    t.promises.promises[p.index]? = some ⟨.pool s.pool.length, none, []⟩ := by
  obtain ⟨rfl, rfl⟩ := Prod.mk.injEq .. ▸ modifyGetOk.mp ok
  simp [PromiseTable.size]

theorem poolWordOk {value : Int} {p : PromiseId} (ok : poolWord value s = .ok p t) :
    t.promises.promises[s.promises.size]? = some ⟨.resolved value, some value, []⟩ ∧
      t.promises.promises[p.index]? = some ⟨.pool s.pool.length, none, []⟩ := by
  rw [poolWord, modifyGetBind] at ok
  refine ⟨?_, poolPromiseOk (s := (s.createPromise (.resolved value)).2) ok⟩
  obtain ⟨rfl, rfl⟩ := Prod.mk.injEq .. ▸ modifyGetOk.mp ok
  simp [createPromise, PromiseTable.create, PromiseTable.size]

theorem instructionAddressOk {ip : Nat} {p : PromiseId} (ok : instructionAddress ip s = .ok p t) :
    t.promises.promises[p.index]? = some ⟨.machineIp ip, none, []⟩ := by
  obtain ⟨rfl, rfl⟩ := Prod.mk.injEq .. ▸ modifyGetOk.mp ok
  simp [PromiseTable.size]

theorem resolvePromisesOk {l : CodeLayout} (ok : resolvePromises l s = .ok ⟨⟩ s') :
    s' = { s with promises := ⟨(s.promises.resolveAll l).promises⟩ } ∧
      (s.promises.resolveAll l).error = none := by
  simp only [resolvePromises, getBind, modifyBind] at ok
  cases failed : (s.promises.resolveAll l).error with
  | none =>
    rw [failed] at ok
    exact ⟨(pureOk.mp ok).2.symm, rfl⟩
  | some e => simp [failed] at ok

theorem buildFrameMapsOk {base : Int} {table : FrameMapTable} (ok : buildFrameMaps base s = .ok table s') :
    s'.promises = s.promises := by
  simp only [buildFrameMaps, modifyBind, getBind] at ok
  generalize (s.tracedCalls.foldl (fun l c => l.attach c.trace c.address c.argumentIndex) s.roots).solve
    s.settings = solved at ok
  obtain ⟨passes, roots⟩ := solved
  cases passes with
  | error e => cases throwOk.mp ok
  | ok n =>
    simp only [modifyBind] at ok
    generalize roots.table s.promises base = built at ok
    cases built with
    | error e => cases throwOk.mp ok
    | ok t =>
      rw [← (pureOk.mp ok).2]
      rfl

theorem finishOk {base : Int} {m : CompiledMethod} {machine : MachineCode}
    (emitted : s.emitter.finish = .ok machine)
    (inside : ∀ p ∈ machine.patches, p.offset + wordSize ≤ machine.bytes.length)
    (apart : machine.patches.Pairwise Apart) (ok : finish base s = .ok m s') :
    (s.promises.resolveAll ⟨base, machine.bytes.length, machine.targets⟩).error = none ∧
      s'.promises = ⟨(s.promises.resolveAll ⟨base, machine.bytes.length, machine.targets⟩).promises⟩ ∧
      m.base = base ∧ m.poolOffset = roundUp machine.bytes.length wordSize ∧
      m.Consistent machine s.pool s'.promises := by
  simp only [finish, getBind, emitted, bindOk, modifyOk, pureOk] at ok
  obtain ⟨⟨⟩, t, resolves, code, _, filled, values, _, pooled, maps, u, built, ⟨⟩, _, rfl, rfl, rfl⟩ := ok
  obtain ⟨rfl, done⟩ := resolvePromisesOk resolves
  obtain ⟨rfl, length, elsewhere, patched⟩ := patchesOk filled
  obtain ⟨rfl, same⟩ := poolOk pooled
  have promises : (u.count fun x => x.countMethod machine.bytes.length).promises =
      ⟨(s.promises.resolveAll ⟨base, machine.bytes.length, machine.targets⟩).promises⟩ :=
    buildFrameMapsOk built
  set start := roundUp machine.bytes.length wordSize
  have least : IsLeast {k | machine.bytes.length ≤ k ∧ wordSize ∣ k} start := roundUpLeast _
  have above : machine.bytes.length ≤ start := least.1.1
  have counted : values.length = s.pool.length := by simpa using (congrArg List.length same).symm
  have width : code.length = start + wordSize * s.pool.length := by
    rw [length, List.length_append, List.length_replicate]
    change _ + (start - machine.bytes.length + s.pool.length * wordSize) = _
    rw [Nat.mul_comm wordSize]
    omega
  have front : (code.take start).length = start := by
    rw [List.length_take]
    omega
  have early : ∀ i < start, (code.take start ++ values.flatMap (littleEndian wordSize))[i]? = code[i]? := by
    intro i before
    rw [List.getElem?_append_left (by omega), List.getElem?_take_of_lt before]
  refine ⟨done, promises, rfl, rfl, rfl, fun i small outside => ?_, fun p member => ?_, least,
    fun i p here => ?_, ?_⟩
  · change (code.take start ++ _)[i]? = _
    rw [early i (small.trans_le above), elsewhere i outside, List.getElem?_append_left small]
  · obtain ⟨v, found, there⟩ := patched apart p member
    refine ⟨v, promises ▸ found, there ▸ wordAtEq fun i small => early _ ?_⟩
    have := inside p member
    omega
  · have found := congrArg (·[i]?) same
    simp only [List.getElem?_map, here, Option.map_some] at found
    cases there : values[i]? with
    | none => simp [there] at found
    | some v =>
      rw [there] at found
      refine ⟨v, promises ▸ Option.some.inj found, ?_⟩
      rw [← wordOfPool values there]
      refine wordAtEq fun k small => ?_
      change (code.take start ++ _)[start + wordSize * i + k]? = _
      rw [List.getElem?_append_right (by omega), front, Nat.add_assoc, Nat.add_sub_cancel_left]
  · change (code.take start ++ _).length = start + _
    rw [List.length_append, front, poolLength, counted]

end Method

/-! Promises that were given out. -/

theorem afterDiscard {x : Build α} {a : α} (ok : x s = .ok a t) : after (discard x) s = t := by
  have discarded : (discard x) s = .ok PUnit.unit t := discardOk.mpr ⟨a, ok⟩
  exact afterOk discarded

theorem appendedAppend (before after : List ClientCall) :
    s.appended (before ++ after) = s.appended before ++ (s.history before).appended after := by
  induction before generalizing s with
  | nil => rfl
  | cons c rest ih => rw [List.cons_append, appended, ih, appended, List.append_assoc]; rfl

namespace CompiledMethod

variable {m : CompiledMethod} {promises : PromiseTable} {start : State} {calls before rest : List ClientCall}
  {c : ClientCall}

structure Holds (m : CompiledMethod) (promises : PromiseTable) (p : PromiseId) (slot : Nat) (value : Int) :
    Prop where
  address : promises.value? p = some (m.base + (m.poolOffset + wordSize * slot : Nat))
  word : wordAt m.code (m.poolOffset + wordSize * slot) = littleEndian wordSize value

structure Resolves (m : CompiledMethod) (targets : TargetMap) (start : State) (calls : List ClientCall)
    (promises : PromiseTable) : Prop where
  poolPromise : ∀ before rest q p t, calls = before ++ .poolPromise q :: rest →
    Method.poolPromise q (start.history before) = .ok p t →
      ∃ value, promises.value? q = some value ∧ m.Holds promises p (start.appended before).length value
  poolWord : ∀ before rest value p t, calls = before ++ .poolWord value :: rest →
    Method.poolWord value (start.history before) = .ok p t →
      m.Holds promises p (start.appended before).length value
  instructionAddress : ∀ before rest ip p t, calls = before ++ .instructionAddress ip :: rest →
    Method.instructionAddress ip (start.history before) = .ok p t →
      ∃ o : Nat, targets.find? (.ip ip) = some o ∧ promises.value? p = some (m.base + o)

end CompiledMethod

theorem promiseLasts {start : State} {before rest : List ClientCall} {c : ClientCall} {p : Nat} {d : Promise}
    (housed : start.outline.Housed fun _ => False)
    (here : (after c.run (start.history before)).promises.promises[p]? = some d) :
    (start.history (before ++ c :: rest)).promises.promises[p]? = some d := by
  have first := historyKeeps before undeclaredNone housed
  have then_ := c.step (fun _ => id) first.housed
  have last := historyKeeps rest undeclaredNone then_.housed
  rw [historyAppend]
  obtain ⟨more, same⟩ : (after c.run (start.history before)).promises.promises <+:
      ((after c.run (start.history before)).history rest).promises.promises := last.later.promises
  change ((after c.run (start.history before)).history rest).promises.promises[p]? = some d
  rw [← same, List.getElem?_append_left (List.getElem?_eq_some_iff.mp here).1]
  exact here

theorem appendedHere {start : State} {before rest : List ClientCall} {c : ClientCall} {q : PromiseId}
    (appends : c.appends (start.history before) = [q]) :
    (start.appended (before ++ c :: rest))[(start.appended before).length]? = some q := by
  rw [appendedAppend, appended, appends]
  simp

theorem finishedIsConsistent {machine : Description} {settings : Settings} {emitter : Emitter}
    {helpers : Option HelperAddress} {calls : List ClientCall} {base : Int} {m : CompiledMethod}
    {code : MachineCode}
    (emitted : ((fresh machine settings emitter helpers).history calls).emitter.finish = .ok code)
    (inside : ∀ p ∈ code.patches, p.offset + wordSize ≤ code.bytes.length)
    (apart : code.patches.Pairwise Method.Apart)
    (ok : Method.finish base ((fresh machine settings emitter helpers).history calls) = .ok m s') :
    m.base = base ∧
      m.Consistent code ((fresh machine settings emitter helpers).appended calls) s'.promises ∧
      m.Resolves code.targets (fresh machine settings emitter helpers) calls s'.promises := by
  obtain ⟨done, promises, rfl, start, consistent⟩ := Method.finishOk emitted inside apart ok
  have housed := housedFresh machine settings emitter helpers
  have pool : ∀ calls, ((fresh machine settings emitter helpers).history calls).pool =
      (fresh machine settings emitter helpers).appended calls := fun calls =>
    (historyKeeps calls undeclaredNone housed).pool
  rw [pool] at consistent
  have gives : ∀ (p : PromiseId) (d : Promise),
      ((fresh machine settings emitter helpers).history calls).promises.promises[p.index]? = some d →
      ∃ v, d.outcome ⟨m.base, code.bytes.length, code.targets⟩ p = .ok v ∧ s'.promises.value? p = some v :=
    fun p d here => promises ▸ resolveAllGives done here
  -- a pool word of either kind
  have holds : ∀ before rest c q p, calls = before ++ c :: rest →
      c.appends ((fresh machine settings emitter helpers).history before) = [q] →
      (after c.run ((fresh machine settings emitter helpers).history before)).promises.promises[p.index]? =
        some ⟨.pool ((fresh machine settings emitter helpers).history before).pool.length, none, []⟩ →
      ∃ value, s'.promises.value? q = some value ∧
        m.Holds s'.promises p ((fresh machine settings emitter helpers).appended before).length value := by
    rintro before rest c q p rfl appends here
    obtain ⟨value, known, word⟩ := consistent.pooled _ q (appendedHere appends)
    obtain ⟨v, outcome, address⟩ := gives p _ (promiseLasts housed here)
    refine ⟨value, known, ?_, word⟩
    simp only [Promise.outcome, CodeLayout.value, Except.ok.injEq, pool] at outcome
    rw [address, ← outcome, start, Nat.mul_comm wordSize]
    rfl
  refine ⟨rfl, consistent, fun before rest q p t split asked => ?_,
    fun before rest value p t split asked => ?_, fun before rest ip p t split asked => ?_⟩
  · exact holds before rest _ q p split rfl (afterDiscard asked ▸ Method.poolPromiseOk asked)
  · obtain ⟨w, known, held⟩ :=
      holds before rest _ _ p split rfl (afterDiscard asked ▸ (Method.poolWordOk asked).2)
    subst split
    obtain ⟨v, outcome, given⟩ := gives _ _ (promiseLasts housed (afterDiscard asked ▸ (Method.poolWordOk asked).1))
    cases outcome
    cases known.symm.trans given
    exact held
  · subst split
    obtain ⟨v, outcome, given⟩ :=
      gives p _ (promiseLasts housed (afterDiscard asked ▸ Method.instructionAddressOk asked))
    simp only [Promise.outcome, CodeLayout.value, CodeLayout.offset] at outcome
    cases found : code.targets.find? (.ip ip) with
    | none =>
      rw [found] at outcome
      cases outcome
    | some o =>
      rw [found] at outcome
      cases outcome
      exact ⟨o, rfl, given⟩

/-- A method that loads a word from its pool, where the address of its code is kept as well. -/
def ClientCall.pooling : List ClientCall :=
  [.start 1 0 0 0, .startInstruction 0, .poolWord 0x12345678, .address ⟨1⟩, .load .move 8 ⟨0⟩ 8,
    .instructionAddress 0, .poolPromise ⟨2⟩, .leave (some ⟨1⟩), .compile none 0]

theorem pooledIsConsistent : ∃ (code : MachineCode) (m : CompiledMethod) (s' : State),
    (blank.history ClientCall.pooling).emitter.finish = .ok code ∧
      code.patches = [⟨24, ⟨1⟩⟩] ∧ code.bytes.length = 48 ∧
      Method.finish 4096 (blank.history ClientCall.pooling) = .ok m s' ∧
      m.Consistent code [⟨0⟩, ⟨2⟩] s'.promises ∧
      m.Resolves code.targets blank ClientCall.pooling s'.promises := by
  obtain ⟨m, s', ok⟩ : Succeeds (Method.finish 4096) (blank.history ClientCall.pooling) := by
    decide +kernel
  have checked : (match (blank.history ClientCall.pooling).emitter.finish with
      | .ok code => decide (code.patches = [⟨24, ⟨1⟩⟩] ∧ code.bytes.length = 48)
      | .error _ => false) = true := by decide +kernel
  cases emitted : (blank.history ClientCall.pooling).emitter.finish with
  | error e => simp [emitted] at checked
  | ok code =>
    obtain ⟨patches, length⟩ : code.patches = [⟨24, ⟨1⟩⟩] ∧ code.bytes.length = 48 := by
      simpa [emitted] using checked
    have appended : blank.appended ClientCall.pooling = [⟨0⟩, ⟨2⟩] := by decide +kernel
    have ends := finishedIsConsistent emitted (by simp [patches, length, wordSize])
      (by simp [patches]) ok
    exact ⟨code, m, s', rfl, patches, length, ok, appended ▸ ends.2.1, ends.2.2⟩

end Lowering
