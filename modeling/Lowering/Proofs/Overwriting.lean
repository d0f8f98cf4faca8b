import Lowering.Proofs.Reserving
import Lowering.Proofs.Borrowing
/-!
Operations in place.

The result of an operation goes to a new site or takes the place of the operand that is read last. Only in
the second case can it go to a register that is set aside, and then the operand is in that register. An
index in such a register is extended in place. Nothing else that is compiled writes one.
-/
namespace Lowering

open State Build

variable {α β : Type} {s s' t u : State} {named : Register → Prop} {reading : Prop} {v w : ValueId} {i j : SiteId}
  {n : Register} {e : EventId} {x : Build α} {P : α → State → Prop}

/-! Work that answers what is asked for. -/

theorem yieldsMap {g : α → β} {P : β → State → Prop} (yields : x.Yields named reading s fun a t => P (g a) t) :
    (g <$> x).Yields named reading s P := by
  refine ⟨?_, fun b t ok => ?_⟩
  · have respected := yields.respects
    simp only [after, Functor.map, EStateM.map] at respected ⊢
    cases ran : x s <;> rw [ran] at respected <;> exact respected
  · obtain ⟨a, ran, rfl⟩ := mapOk.mp ok
    exact yields.result a t ran

theorem yieldsEnsuring {g : State → State} (yields : x.Yields named reading s P) (tame : ∀ t : State, t.Tame (g t))
    (keeps : ∀ a t, P a t → P a (g t)) : (ensuring x g).Yields named reading s P := by
  refine ⟨?_, fun a t ok => ?_⟩
  · rw [afterEnsuring]
    exact yields.respects.trans ((tame _).respects yields.respects.guarded)
  · obtain ⟨t', ran, rfl⟩ := ensuringOk.mp ok
    exact keeps a t' (yields.result a t' ran)

theorem yieldsFrozen (guarded : s.Guarded named)
    (yields : (s.freezeSite i).Guarded named → x.Yields named reading (s.freezeSite i) P)
    (keeps : ∀ a t, P a t → P a (t.thawSite i)) : (whileFrozen i x).Yields named reading s P := by
  have frozen : s.Respects named reading (s.freezeSite i) := (tameFreeze s i).respects guarded
  refine yieldsBind ((respectsModify fun s => tameFreeze s i).keeps s guarded) fun _ t ran _ => ?_
  cases modifyOk.mp ran
  exact yieldsEnsuring (yields frozen.guarded) (fun t => tameThaw t i) keeps

theorem respectsForM {f : α → Build PUnit} {Q : State → α → Prop} {xs : List α} (guarded : s.Guarded named)
    (start : ∀ x ∈ xs, Q s x) (stays : ∀ {s t : State} x, s.Respects named reading t → Q s x → Q t x)
    (round : ∀ {s : State} x, s.Guarded named → Q s x → s.Respects named reading (after (f x) s)) :
    s.Respects named reading (after (xs.forM f) s) := by
  induction xs generalizing s with
  | nil => exact .refl guarded
  | cons x rest ih =>
    refine respectsBind (round x guarded (start x List.mem_cons_self)) fun _ t _ respected => ?_
    exact ih respected.guarded fun y member => stays y respected (start y (List.mem_cons_of_mem _ member))

/-! Sources and operands. -/

theorem tameLive (v : ValueId) : Within State.Tame (live v) := .modifyGet fun _ => tameIsLive v

theorem tameSourceOf (v : ValueId) : Within State.Tame (sourceOf v) := by
  refine .bind .get fun s => ?_
  split
  · exact .pure
  · exact .throw

theorem tameSourceOperand (v : ValueId) : Within State.Tame (sourceOperand v) :=
  .bind (tameSourceOf v) tameOperandOf

theorem tameSourceMask (v : ValueId) : Within State.Tame (sourceMask v) :=
  .bind (tameSourceOf v) fun _ => .bind .get fun _ => .pure

theorem tameRegisterOf (i : SiteId) (fault : InvariantFault) : Within State.Tame (registerOf i fault) := by
  refine .bind .get fun s => ?_
  split
  · exact .pure
  · exact .throw

theorem tameFollowingRead (v : ValueId) : Within State.Tame (followingRead? v) := by
  have aliases : ∀ vs : List ValueId, Within State.Tame (modifyGet (·.firstPending vs) : Build _) :=
    fun vs => .modifyGet fun _ => tameFirstPending vs
  unfold followingRead?
  refine .bind .get fun s => ?_
  dsimp only
  split
  · exact aliases _
  · split
    · exact .throw
    · exact .bind (.modifyGet fun _ => tamePending _) fun _ => .ite .pure (aliases _)

theorem tameHold (i : SiteId) : Within State.Tame (hold i) :=
  .bind (.modify fun s => tameFreeze s i) fun _ => .pure

theorem tameUnreachable (e : EventId) : Within State.Tame (unreachable e) := by
  refine .bind .get fun s => ?_
  split
  · exact .pure
  · exact .throw

theorem respectsSource {source : Option SiteId} (guarded : s.Guarded named) (allows : ∀ i, source = some i → s.Allows named i) :
    s.Respects named False (s.modifyValue v fun d => { d with source }) :=
  respectsModifyValue guarded (fun _ => .inl) (fun _ => .inl) (fun i chosen => .inr (allows i chosen)) False.elim

theorem chooseSourcesRespects (reads : List ReadId) : (chooseSources reads).Respects named False := by
  induction reads with
  | nil => exact .pure
  | cons r rest ih =>
    constructor
    intro s guarded
    have source : (readSource? r).Yields named False s fun found t => ∀ i, found = some i → t.Allows named i := by
      refine yieldsGet ?_
      split
      · have settled : (settle r true 0).Yields named False _ fun i t => t.Allows named i := settleYields guarded
        refine yieldsMap ⟨settled.respects, fun i t ran j same => ?_⟩
        cases same
        exact settled.result i t ran
      · exact yieldsPure guarded nofun
    refine respectsBind source.respects fun found t ran settled => ?_
    rw [afterModify]
    have chosen := respectsSource (v := t.reads.value r) settled.guarded (source.result found t ran)
    refine chosen.trans ?_
    cases found with
    | none => exact ih.keeps _ chosen.guarded
    | some i => exact ih.frozen.keeps _ chosen.guarded

/-! Consuming reads. -/

theorem bequeathRespects (v : ValueId) : (bequeath v).Respects named reading := by
  constructor
  intro s guarded
  refine respectsBind ((respectsModifyGet fun _ => tameLeaveRing v).keeps s guarded) fun heir t _ left => ?_
  rw [afterGet, afterModify]
  have tame : t.Tame (t.modifyValue v fun d => { d with sites := [] }) :=
    tameModifyValue t v (fun _ _ inside => absurd inside List.not_mem_nil) (fun _ => rfl) fun _ => rfl
  have cleared : t.Respects named reading (t.modifyValue v fun d => { d with sites := [] }) := tame.respects left.guarded
  refine cleared.trans (respectsForM (Q := State.Allows named) cleared.guarded (fun i member => ?_)
    (fun i respected => respected.allows) fun {s} i guarded allows => ?_)
  · exact cleared.allows (left.guarded.listed v i (List.mem_reverse.mp member))
  · rw [afterModify]
    have released : s.Respects named reading (s.release i) := (tameRelease s i).respects guarded
    refine released.trans ?_
    refine respectsBind (acquireRespects released.guarded (released.isSite allows.known)) fun _ t _ acquired => ?_
    exact respectsEnlist acquired.guarded (acquired.allows (released.allows allows))

theorem consumeReadRespects (e : Option EventId) (v : ValueId) : (consumeRead e v).Respects named reading := by
  unfold consumeRead
  refine .bind .get fun s => ?_
  split
  · exact .throw
  · have rest : ∀ next : Option ReadId, (do
        modify (·.modifyValue v fun d => { d with reads := next })
        if !(← modifyGet (·.isPending next)) then
          if ← live v then bequeath v else modify (·.clearSites v) : Build Unit).Respects named reading := by
      intro next
      refine .bind (respectsModify fun s => tameModifyValue s v (fun _ _ h => h) (fun _ => rfl) fun _ => rfl) fun _ => ?_
      refine .bind (respectsModifyGet fun _ => tamePending next) fun pending => .ite ?_ .pure
      refine .bind (tameLive v).respects fun alive => ?_
      exact .ite (bequeathRespects v) (respectsModify fun _ => tameClear v)
    refine .ite (.bind .throw fun _ => ?_) ?_
    all_goals
      split
      · exact .throw
      · exact rest _

theorem consumeReadsRespects (e : EventId) : (consumeReads e).Respects named reading :=
  .bind .get fun _ => .forM fun _ => .bind .get fun _ => consumeReadRespects ..

/-! Results. -/

def State.Takes (named : Register → Prop) (v : ValueId) (i : SiteId) (s : State) : Prop :=
  s.Allows named i ∧ (s.Writable i ∨ (s.value v).source = some i)

theorem State.Takes.respected (takes : s.Takes named v i) (respected : s.Respects named True t) : t.Takes named v i := by
  refine ⟨respected.allows takes.1, ?_⟩
  by_cases aside : s.StandsAside i
  · have source := takes.2.resolve_left fun writable => (writableIff takes.1.known).mp writable aside
    exact .inr (respected.source trivial v i source aside)
  · exact .inl (respected.allows ((writableIff takes.1.known).mpr aside))

theorem State.Takes.tame (takes : s.Takes named v i) (tame : s.Tame t) : t.Takes named v i := by
  refine ⟨tame.allows takes.1, takes.2.imp tame.allows fun source => ?_⟩
  rw [tame.source]
  exact source

theorem resultSiteYields (v result : ValueId) (mask : SiteMask) (guarded : s.Guarded named) :
    (resultSite v result mask).Yields named True s fun i t => t.Takes named v i := by
  refine yieldsBind ((tameFollowingRead v).respects.keeps s guarded) fun next _ _ asked => ?_
  refine yieldsBind ((tameSourceOf v).respects.keeps _ asked.guarded) fun source t found _ => yieldsGet ?_
  obtain ⟨chosen, rfl⟩ := sourceOfOk.mp found
  have takes : t.Takes named v source := ⟨asked.guarded.sources v source chosen, .inr chosen⟩
  have yield : ∀ (w : ValueId) (i : SiteId) (u : State), u.Guarded named → u.Takes named v i → (do
      modify fun s => (s.removeSite w i).freezeSite i
      return i : Build SiteId).Yields named True u fun i t => t.Takes named v i := by
    intro w i u guarded takes
    have tame : ∀ s : State, s.Tame ((s.removeSite w i).freezeSite i) := fun s => (tameRemove s w i).trans (tameFreeze _ i)
    refine yieldsBind ((respectsModify tame).keeps u guarded) fun _ u' ran removed => ?_
    cases modifyOk.mp ran
    exact yieldsPure removed.guarded (takes.tame (tame u))
  dsimp only
  split
  · cases next with
    | none => exact yield v source t asked.guarded takes
    | some next =>
      dsimp only
      split
      · have moves : (discard (whileFrozen source (relocate next false 0)) : Build PUnit).Respects named True :=
          .discard (relocateRespects next false 0).frozen
        refine yieldsBind (moves.keeps t asked.guarded) fun _ u _ moved => ?_
        exact yield v source u moved.guarded (takes.respected moved)
      · exact yield v source t asked.guarded takes
  · have fresh : (whileFrozen source do
        let r ← probe result mask
        let i ← chooseSite r true 0 none
        place result i
        return i : Build SiteId).Yields named True t fun i t => t.Writable i := by
      refine yieldsFrozen asked.guarded (fun frozen => ?_) fun _ t writable => (tameThaw t source).allows writable
      refine yieldsBind ((tameProbe ..).respects.keeps _ frozen) fun r u _ probed => ?_
      refine yieldsBind ((tameChooseSite ..).respects.keeps u probed.guarded) fun i u' ran chosen => ?_
      have writable := chooseSiteWritable ran
      refine yieldsBind (placeRespects chosen.guarded (State.Writable.allows writable)) fun _ _ _ placed => ?_
      exact yieldsPure placed.guarded (placed.allows writable)
    refine yieldsBind fresh.respects fun i u ran made => ?_
    have writable := fresh.result i u ran
    exact yield result i u made.guarded ⟨State.Writable.allows writable, .inl writable⟩

theorem deliverRespects {result : ValueId} (guarded : s.Guarded named) (allows : s.Allows named i) :
    s.Respects named reading (after (deliver result i) s) := by
  rw [deliver, afterModify]
  have thawed : s.Respects named reading (s.thawSite i) := (tameThaw s i).respects guarded
  refine thawed.trans (respectsBind ((tameLive result).respects.keeps _ thawed.guarded) fun alive t _ asked => ?_)
  split
  · exact placeRespects asked.guarded (asked.allows (thawed.allows allows))
  · exact .refl asked.guarded

theorem State.Respects.weaken (h : s.Respects named True t) : s.Respects named reading t :=
  { h with source := fun _ => h.source trivial }

namespace Compile

theorem sparesTakes {q : Request} {a b : Operand} (takes : s.Takes named v i) (source : (s.value v).source = some j)
    (operand : s.operand j = .ok a) (target : s.operand i = .ok b) (overwritten : q.overwritten? = some a)
    (goes : ∀ c, q.destination? = some c → c = b) : q.Spares named s.SetsAside := by
  intro n aside destination
  cases goes _ destination
  have number := numberOfOperand target
  refine ⟨?_, takes.1.within number aside⟩
  have same := takes.2.resolve_left fun writable => writable.2 n number aside
  rw [source] at same
  cases same
  rw [operand] at target
  cases target
  exact overwritten

theorem combineRespects (e : EventId) (c : CombineEvent) : (combine e c).Respects named True := by
  have claims : ∀ mask, (claimRegisters mask).Respects named True := by
    refine fun mask => .bind .get fun s => .mapM fun r => .bind (evictRespects ..) fun _ => ?_
    exact .bind (respectsModifyGet fun s => tameNewSite s _) fun i => (tameHold i).respects
  constructor
  intro s guarded
  refine respectsBind ((tameSourceOf _).respects.keeps s guarded) fun first s _ found => ?_
  have places : (whileFrozen first do
      let second ← sourceOf c.second
      let machine := (← get).machine
      let claimed ← whileFrozen second (claimRegisters (machine.clobbers c.op c.resultSize))
      Build.ensuring (do
        let a ← sourceMask c.first
        let b ← sourceMask c.second
        let mask := machine.planTernaryResult c.op c.firstSize a c.secondSize b c.resultSize
        let i ← resultSite c.second c.result (.ofOperand mask)
        let a ← sourceOperand c.first
        let b ← sourceOperand c.second
        let target ← operandOf i
        emit (.ternary c.op c.firstSize a c.secondSize b c.resultSize target)
        return i) (·.thawSites claimed) : Build SiteId).Yields named True s fun i t => t.Allows named i := by
    refine yieldsFrozen found.guarded (fun frozen => ?_) fun i t allows => (tameThaw t first).allows allows
    refine yieldsBind ((tameSourceOf _).respects.keeps _ frozen) fun second t _ found => yieldsGet ?_
    refine yieldsBind ((claims _).frozen.keeps t found.guarded) fun claimed t _ emptied => ?_
    refine yieldsEnsuring ?_ (fun t => tameThawAll claimed) fun i t allows => (tameThawAll claimed).allows allows
    refine yieldsBind ((tameSourceMask _).respects.keeps t emptied.guarded) fun a t _ asked => ?_
    refine yieldsBind ((tameSourceMask _).respects.keeps t asked.guarded) fun b t _ asked => ?_
    have made := fun mask => resultSiteYields c.second c.result mask asked.guarded
    refine yieldsBind (made _).respects fun i t ran placed => ?_
    have takes := (made _).result i t ran
    refine yieldsBind ((tameSourceOperand _).respects.keeps t placed.guarded) fun a t _ asked => ?_
    have takes := takes.respected asked
    refine yieldsBind ((tameSourceOperand _).respects.keeps t asked.guarded) fun b u second _ => ?_
    obtain ⟨j, _, chosen, operand⟩ := bindOk.mp second
    obtain ⟨source, rfl⟩ := sourceOfOk.mp chosen
    obtain ⟨operand, rfl⟩ := operandOfOk.mp operand
    refine yieldsBind ((tameOperandOf i).respects.keeps u asked.guarded) fun b u target _ => ?_
    obtain ⟨target, rfl⟩ := operandOfOk.mp target
    refine yieldsBind (respectsEmit asked.guarded ?_) fun _ t _ emitted => ?_
    · refine sparesTakes takes source operand target rfl fun c goes => ?_
      simp only [Request.destination?] at goes
      split at goes <;> cases goes
      rfl
    · exact yieldsPure emitted.guarded (emitted.allows takes.1)
  refine respectsBind places.respects fun i t ran placed => ?_
  refine respectsBind ((consumeReadsRespects e).keeps t placed.guarded) fun _ u _ consumed => ?_
  exact deliverRespects consumed.guarded (consumed.allows (places.result i t ran))

theorem convertRespects (e : EventId) (c : ConvertEvent) : (convert e c).Respects named True := by
  constructor
  intro s guarded
  refine respectsBind ((tameSourceMask _).respects.keeps s guarded) fun source s _ asked => ?_
  rw [afterGet]
  have made := fun mask => resultSiteYields c.value c.result mask asked.guarded
  refine respectsBind (made _).respects fun i t ran placed => ?_
  have takes := (made _).result i t ran
  refine respectsBind ((tameSourceOperand _).respects.keeps t placed.guarded) fun a u first _ => ?_
  obtain ⟨j, _, chosen, operand⟩ := bindOk.mp first
  obtain ⟨source, rfl⟩ := sourceOfOk.mp chosen
  obtain ⟨operand, rfl⟩ := operandOfOk.mp operand
  refine respectsBind ((tameOperandOf i).respects.keeps u placed.guarded) fun b u target _ => ?_
  obtain ⟨target, rfl⟩ := operandOfOk.mp target
  refine respectsBind (respectsEmit placed.guarded ?_) fun _ t _ emitted => ?_
  · exact sparesTakes takes source operand target rfl fun c goes => (Option.some.inj goes).symm
  · refine respectsBind ((consumeReadsRespects e).keeps t emitted.guarded) fun _ u _ consumed => ?_
    exact deliverRespects consumed.guarded (consumed.allows (emitted.allows takes.1))

/-! Copies. -/

theorem copyThroughRespects {c : Copy} {source target : SiteId} {onward store : Bool} (guarded : s.Guarded named)
    (writable : s.Writable target) :
    s.Respects named reading (after (copyThroughRegister c source target onward store) s) := by
  rw [copyThroughRegister, afterModify, afterGet]
  have removed : s.Respects named reading (s.removeSite c.dst target) := (tameRemove ..).respects guarded
  refine removed.trans ?_
  generalize s.removeSite c.dst target = s at removed
  refine respectsBind ((respectsModifyGet fun s => tameNewSite s _).keeps s removed.guarded) fun i t ran made => ?_
  have open_ : t.Writable i := by
    rw [modifyGetOk, Prod.ext_iff] at ran
    obtain ⟨rfl, rfl⟩ := ran
    refine ⟨by simp [IsSite, newSite], fun n number => ?_⟩
    rw [siteNewSelf] at number
    cases number
  refine respectsBind (respectsFrozen made.guarded fun frozen => ?_) fun _ u _ copied => ?_
  · have open_ := (tameFreeze t source).allows open_
    refine respectsBind (placeRespects frozen (State.Writable.allows open_)) fun _ u _ placed => ?_
    refine respectsFrozen placed.guarded fun frozen => respectsEmitBetween frozen ?_
    exact (tameFreeze u i).allows (placed.allows open_)
  · have writable := copied.allows (made.allows (removed.allows writable))
    split
    · refine respectsBind (placeRespects copied.guarded (State.Writable.allows writable)) fun _ u' _ placed => ?_
      refine respectsBind (respectsFrozen placed.guarded fun frozen => respectsEmitBetween frozen ?_) fun _ u _ moved => ?_
      · exact (tameFreeze u' i).allows (placed.allows writable)
      · split
        · exact (tameRemove ..).respects moved.guarded
        · exact .refl moved.guarded
    · exact .refl copied.guarded

theorem copyToRespects {c : Copy} {source target : SiteId} {store : Bool} (guarded : s.Guarded named)
    (writable : s.Writable target) : s.Respects named reading (after (copyTo c source target store) s) := by
  rw [copyTo, afterGet]
  dsimp only
  split
  · refine respectsBind (respectsFrozen guarded fun frozen => placeRespects frozen
      ((tameFreeze s source).allows (State.Writable.allows writable))) fun _ t _ placed => ?_
    refine respectsFrozen placed.guarded fun frozen => ?_
    have writable := (tameFreeze t target).allows (placed.allows writable)
    rw [afterGet]
    split
    · exact respectsFrozen frozen fun both => respectsEmitBetween both ((tameFreeze _ source).allows writable)
    · exact copyThroughRespects frozen writable
  · exact .refl guarded

theorem copyRespects (c : Copy) : (copy c).Respects named reading := by
  constructor
  intro s guarded
  refine respectsBind ((respectsModifyGet fun _ => tameLiveRead _).keeps s guarded) fun read s _ asked => ?_
  have go : ∀ (t : State) (target : SiteId), t.Guarded named → t.Writable target → t.Respects named reading (after (do
      let source ← sourceOf c.src
      copyTo c source target read.isNone
      if read.isNone then modify (·.removeSite c.dst target) : Build Unit) t) := by
    intro t target guarded writable
    refine respectsBind ((tameSourceOf _).respects.keeps t guarded) fun source t _ found => ?_
    refine respectsBind (copyToRespects found.guarded (found.allows writable)) fun _ u _ copied => ?_
    split
    · exact (tameRemove ..).respects copied.guarded
    · exact .refl copied.guarded
  rw [afterGet]
  cases stored : (s.value c.dst).target with
  | some target =>
    obtain ⟨known, memory⟩ := asked.guarded.targets c.dst target stored
    exact go s target asked.guarded (allowsMemory known memory)
  | none =>
    cases read with
    | none => exact .refl asked.guarded
    | some r =>
      refine respectsBind ((tameChooseSite ..).respects.keeps s asked.guarded) fun target t ran chosen => ?_
      exact go t target chosen.guarded (chooseSiteWritable ran)

theorem aliasMoveRespects (src dst : ValueId) : (aliasMove src dst).Respects named reading := by
  have finish : (do
      modify (·.joinRing src dst)
      let source ← sourceOf src
      modify fun s =>
        if (s.site source).isVolatile s.geometry then s.removeSite src source else s
      : Build Unit).Respects named reading := by
    refine .bind (respectsModify fun _ => tameJoinRing ..) fun _ => .bind (tameSourceOf _).respects fun source => ?_
    refine respectsModify fun s => ?_
    split
    · exact tameRemove ..
    · exact .refl s
  unfold aliasMove
  refine .bind (respectsModifyGet fun _ => tameLiveRead _) fun read => ?_
  split
  · refine .bind (respectsModifyGet fun _ => tameChooseSource ..) fun found => .bind .get fun s => ?_
    exact .ite (.bind (.discard (relocateRespects ..)) fun _ => finish) finish
  · exact finish

theorem moveRespects (e : EventId) (m : MoveEvent) : (move e m).Respects named reading := by
  have finish : (consumeReads e).Respects named reading := consumeReadsRespects e
  refine .bind (tameSourceMask _).respects fun source => .bind .get fun s => .ite (.ite ?_ ?_) ?_
  · exact .bind (copyRespects _) fun _ => finish
  · exact .bind (tameLive _).respects fun _ => .ite (.bind (aliasMoveRespects ..) fun _ => finish) finish
  · exact .bind (copyRespects _) fun _ => finish

/-! Memory words. -/

theorem registerOfNumber {fault : InvariantFault} (ok : registerOf i fault s = .ok n t) :
    (s.site i).number? = some n ∧ t = s := by
  rw [registerOf, getBind] at ok
  cases number : (s.site i).number? with
  | none => simp [number] at ok
  | some m =>
    simp only [number, pureOk] at ok
    exact ⟨congrArg some ok.1, ok.2.symm⟩

theorem memoryRespects (e : EventId) (m : MemoryEvent) : (memory e m).Respects named True := by
  have finish : ∀ ref : MemoryRef, (placeMemory m ref).Respects named True := by
    refine fun ref => ⟨fun s guarded => ?_⟩
    refine respectsBind ((respectsModifyGet fun s => tameNewSite s _).keeps s guarded) fun i t ran made => ?_
    rw [modifyGetOk, Prod.ext_iff] at ran
    have known : t.IsSite i := by
      obtain ⟨rfl, rfl⟩ := ran
      simp [IsSite, newSite]
    have memory : (t.site i).kind = .memory := by
      obtain ⟨rfl, rfl⟩ := ran
      rw [siteNewSelf]
      rfl
    rw [afterModify]
    have targets : t.Respects named True (t.modifyValue m.result fun d => { d with target := some i }) := by
      refine respectsModifyValue made.guarded (fun _ => .inl) (fun j target => ?_) (fun _ => .inl) fun _ _ chosen _ => chosen
      cases target
      exact .inr ⟨known, memory⟩
    exact targets.trans (placeRespects targets.guarded (targets.allows (State.Writable.allows (allowsMemory known memory))))
  have consumed : ∀ ref : MemoryRef, (finishMemory e m ref).Respects named True := by
    intro ref
    unfold finishMemory
    split
    · exact .bind (consumeReadRespects ..) fun _ => finish ref
    · exact finish ref
  constructor
  intro s guarded
  unfold memory
  rw [afterGet]
  dsimp only
  split
  · refine respectsBind ((tameSourceOf _).respects.keeps s guarded) fun i t found _ => ?_
    obtain ⟨source, rfl⟩ := sourceOfOk.mp found
    refine respectsBind ((tameRegisterOf ..).map.respects.keeps t guarded) fun index u ran _ => ?_
    obtain ⟨r, register, rfl⟩ := mapOk.mp ran
    obtain ⟨number, rfl⟩ := registerOfNumber register
    have within : u.SetsAside r → named r := (guarded.sources _ i source).2 r number
    refine respectsBind ((tameSourceOf _).respects.keeps u guarded) fun i t _ found => ?_
    refine respectsBind ((tameRegisterOf ..).respects.keeps t found.guarded) fun base t' _ based => ?_
    refine respectsBind ((consumeReadRespects ..).keeps t' based.guarded) fun _ v _ used => ?_
    refine respectsBind (respectsEmit used.guarded fun n aside goes => ?_) fun _ v _ extended => ?_
    · cases goes
      exact ⟨rfl, within ((found.aside r).mp ((based.aside r).mp ((used.aside r).mp aside)))⟩
    · exact (consumed _).keeps v extended.guarded
  · refine respectsBind (.refl guarded) fun index t ran _ => ?_
    obtain ⟨rfl, rfl⟩ := pureOk.mp ran
    refine (Within.bind (tameSourceOf _).respects fun i => ?_).keeps s guarded
    exact .bind (tameRegisterOf ..).respects fun base => .bind (consumeReadRespects ..) fun _ => consumed _

/-! Control flow. -/

theorem placeAtRespects {site : Site} (guarded : s.Guarded named)
    (within : ∀ n, site.number? = some n → s.SetsAside n → named n) :
    s.Respects named reading (after (placeAt v site) s) := by
  refine respectsBind ((respectsModifyGet fun s => tameNewSite s _).keeps s guarded) fun i t ran made => ?_
  refine placeRespects made.guarded ?_
  rw [modifyGetOk, Prod.ext_iff] at ran
  obtain ⟨rfl, rfl⟩ := ran
  refine ⟨by simp [IsSite, newSite], fun n number => ?_⟩
  rw [siteNewSelf] at number
  exact within n number

theorem numberCopy (site : Site) : site.copy.number? = none := by
  cases site with
  | register mask number => cases number <;> rfl
  | constant p => rfl
  | address p => rfl
  | memory m acquired => rfl

theorem placeCopyRespects (v : ValueId) (site : Site) : (placeAt v site.copy).Respects named reading :=
  ⟨fun _ guarded => placeAtRespects guarded fun n number => by rw [numberCopy] at number; cases number⟩

theorem placeResultRespects (v : ValueId) :
    (do placeAt v (.ofRegister (← get).machine.result) : Build Unit).Respects named reading :=
  ⟨fun _ guarded => placeAtRespects guarded fun n number _ => by cases number; exact guarded.result⟩

theorem placeFrameRespects (v : ValueId) (g : FrameGeometry) (index : Nat) :
    (placeAt v (.frame g index)).Respects named reading :=
  ⟨fun _ guarded => placeAtRespects guarded nofun⟩

theorem bindTargetRespects (c : CodeTarget) : (bind c).Respects named reading := emitRespects rfl

theorem holdSurrogateRespects (v : Option ValueId) : (holdSurrogate v).Respects named reading := by
  cases v with
  | none => exact .pure
  | some v =>
    exact .bind (tameSourceOf v).respects fun i => .bind (tameRegisterOf ..).respects fun _ =>
      .bind (.discard (tameHold i).respects) fun _ => .pure

theorem thawSurrogateRespects (v : Option ValueId) : (thawSurrogate v).Respects named reading := by
  cases v with
  | none => exact .pure
  | some v => exact .bind (tameSourceOf v).respects fun i => respectsModify fun s => tameThaw s i

theorem traceCallRespects (c : CallEvent) : (traceCall c).Respects named reading := by
  unfold traceCall
  split
  · exact .pure
  · exact .bind (respectsModifyGet fun _ => tamePromise _) fun p =>
      .bind (bindTargetRespects _) fun _ => respectsModify fun _ => tameRest rfl rfl rfl rfl rfl rfl

theorem cleanFrameRespects (e : EventId) (popIndex : Nat) : (cleanFrame e popIndex).Respects named reading :=
  .bind (respectsModify fun _ => tameFoldl fun _ v => tameClean v popIndex) fun _ => consumeReadsRespects e

def finishCall (e : EventId) (c : CallEvent) : Build Unit := do
  traceCall c
  if c.tail then
    thawSurrogate c.returnAddress
    thawSurrogate c.framePointer
  else restoreArguments c
  cleanFrame e c.popIndex
  if c.resultSize > 0 then
    if ← live c.result then placeAt c.result (.ofRegister (← get).machine.result)

theorem finishCallRespects (e : EventId) (c : CallEvent) : (finishCall e c).Respects named reading := by
  have finish : (do
      cleanFrame e c.popIndex
      if c.resultSize > 0 then
        if ← live c.result then placeAt c.result (.ofRegister (← get).machine.result)
      : Build Unit).Respects named reading := by
    refine .bind (cleanFrameRespects ..) fun _ => .ite ?_ .pure
    exact .bind (tameLive _).respects fun _ => .ite (placeResultRespects _) .pure
  refine .bind (traceCallRespects c) fun _ => .ite ?_ (.bind ?_ fun _ => finish)
  · exact .bind (thawSurrogateRespects _) fun _ => .bind (thawSurrogateRespects _) fun _ => finish
  · exact .bind .get fun s => .ite (emitRespects rfl) .pure

theorem dropFrameRespects (c : CallEvent) : (dropFrame c).Respects named reading :=
  .bind (holdSurrogateRespects _) fun _ => .bind (holdSurrogateRespects _) fun _ => .bind .get fun _ => emitRespects rfl

theorem callRespects (e : EventId) (c : CallEvent) : (call e c).Respects named reading := by
  have rest : (do
      emit (.unary (callOperation c) wordSize (← sourceOperand c.address))
      finishCall e c : Build Unit).Respects named reading :=
    .bind (tameSourceOperand _).respects fun a => .bind (emitRespects rfl) fun _ => finishCallRespects e c
  exact .ite (.bind (dropFrameRespects c) fun _ => rest) rest

theorem leaveRespects (e : EventId) : (leave e).Respects named reading :=
  .bind (consumeReadsRespects e) fun _ => .bind (tameUnreachable e).respects fun _ =>
    .ite (.bind .get fun _ => emitRespects rfl) .pure

theorem destinationOfBranch {op : Ternary} (branches : op.isBranch = true) {aSize bSize cSize : Nat} {a b c : Operand} :
    (Request.ternary op aSize a bSize b cSize c).destination? = none := by
  simp [Request.destination?, branches]

theorem compareAndBranchRespects {b : BranchEvent} (branches : b.op.isBranch = true) :
    (compareAndBranch b).Respects named reading := by
  refine .bind (tameSourceOf _).respects fun first => .bind (tameSourceOf _).respects fun second => ?_
  refine .bind (tameSourceOf _).respects fun address => ?_
  refine Build.Respects.frozen (Build.Respects.frozen (Build.Respects.frozen ?_))
  exact .bind (tameOperandOf _).respects fun _ => .bind (tameOperandOf _).respects fun _ =>
    .bind (tameOperandOf _).respects fun _ => emitRespects (destinationOfBranch branches)

theorem branchRespects (e : EventId) {b : BranchEvent} (branches : b.op.isBranch = true) :
    (branch e b).Respects named reading := by
  have finish : (consumeReads e).Respects named reading := consumeReadsRespects e
  unfold branch
  refine .bind (tameUnreachable e).respects fun dead => .ite (.bind .get fun s => ?_) finish
  dsimp only
  split
  · exact .bind (tameSourceOperand _).respects fun _ => .bind (emitRespects rfl) fun _ => finish
  · exact finish
  · exact .bind (compareAndBranchRespects branches) fun _ => finish

theorem jumpRespects (e : EventId) (j : JumpEvent) : (jump e j).Respects named reading := by
  have finish : (do
      consumeReads e
      if j.cleanLocals then
        modify fun s => (s.frames.values none s.locals).foldl (fun s v => s.cleanValue v 0) s
      : Build Unit).Respects named reading :=
    .bind (consumeReadsRespects e) fun _ =>
      .ite (respectsModify fun _ => tameFoldl fun _ v => tameClean v 0) .pure
  refine .bind (tameUnreachable e).respects fun _ => .ite ?_ finish
  exact .bind (tameSourceOperand _).respects fun _ => .bind (emitRespects rfl) fun _ => finish

theorem checkLengthRespects (b : BoundsCheckEvent) (negative : Option PromiseId) :
    (checkLength b negative).Respects named reading := by
  have finish : ∀ next : PromiseId, (do
      emit (.unary .call wordSize (.immediate b.handler))
      bind (.promise next) : Build Unit).Respects named reading :=
    fun next => .bind (emitRespects rfl) fun _ => bindTargetRespects _
  unfold checkLength
  refine .bind (tameSourceOf _).respects fun i => .bind (tameRegisterOf ..).respects fun base => ?_
  refine .bind (respectsModifyGet fun _ => tamePromise _) fun next => .bind (tameSourceOf _).respects fun index => ?_
  refine .bind (Build.Respects.frozen ?_) fun _ => ?_
  · exact .bind (tameOperandOf _).respects fun _ => emitRespects (destinationOfBranch rfl)
  · split
    · exact .bind (bindTargetRespects _) fun _ => finish next
    · exact finish next

theorem boundsCheckRespects (e : EventId) (b : BoundsCheckEvent) : (boundsCheck e b).Respects named reading := by
  have finish : (do
      consumeRead (some e) b.object
      consumeRead (some e) b.index : Build Unit).Respects named reading :=
    .bind (consumeReadRespects ..) fun _ => consumeReadRespects ..
  unfold boundsCheck
  refine .bind .get fun s => ?_
  dsimp only
  split
  · exact .ite (.bind (emitRespects rfl) fun _ => finish) (.bind (checkLengthRespects ..) fun _ => finish)
  · refine .bind ?_ fun negative => .bind (checkLengthRespects ..) fun _ => finish
    exact .bind (respectsModifyGet fun _ => tamePromise _) fun p => .bind (tameSourceOperand _).respects fun a =>
      .bind (emitRespects (destinationOfBranch rfl)) fun _ => .pure

theorem eventRespects (e : EventId) : (event e).Respects named True := by
  constructor
  intro s guarded
  rw [event, afterGet]
  cases kind : (s.event e).kind with
  | call c => exact (callRespects e c).keeps s guarded
  | leave v => exact (leaveRespects e).keeps s guarded
  | move m => exact (moveRespects e m).keeps s guarded
  | combine c => exact (combineRespects e c).keeps s guarded
  | convert c => exact (convertRespects e c).keeps s guarded
  | branch b => exact (branchRespects e (guarded.branches e b kind)).keeps s guarded
  | jump j => exact (jumpRespects e j).keeps s guarded
  | memory m => exact (memoryRespects e m).keeps s guarded
  | boundsCheck b => exact (boundsCheckRespects e b).keeps s guarded
  | barrier op => exact (emitRespects rfl).keeps s guarded
  | frameSite v index =>
    refine (Within.bind (tameLive v).respects fun _ => .ite (.bind .get fun _ => ?_) .pure).keeps s guarded
    exact placeFrameRespects ..
  | join v copy =>
    exact (Within.bind (respectsModify fun _ => tameJoinRing ..) fun _ => consumeReadRespects ..).keeps s guarded
  | saveLocals => exact (consumeReadsRespects e).keeps s guarded
  | dummy => exact .refl guarded

end Compile

end Lowering
