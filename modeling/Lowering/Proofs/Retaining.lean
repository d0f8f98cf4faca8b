import Lowering.Proofs.Overwriting
import Lowering.Proofs.Appending
/-!
Methods and the registers that are set aside.

On the path into an event values are brought to copies of sites, which are open: no copy stands for a
register until it is acquired. So along a whole method a register that is set aside is only written in
place of an operand.
-/
namespace Lowering

open State Build

variable {α : Type} {s s' t : State} {named : Register → Prop} {reading : Prop} {v : ValueId} {i : SiteId} {e : EventId}

/-! Steps that bring nothing anywhere. -/

theorem tameModifyEvent (e : EventId) {f : Event → Event} (kind : ∀ d, (f d).kind = d.kind) :
    s.Tame (s.modifyEvent e f) := by
  refine ⟨rfl, rfl, le_rfl, fun _ _ => rfl, fun _ => .rfl, fun _ _ h => h, fun _ _ h => h, fun _ => rfl, fun _ => rfl,
    fun e' => ?_⟩
  rw [eventModify]
  split
  · rename_i here
    rw [kind, here.1]
  · rfl

theorem tameTakePaths (f : ForkId) : s.Tame (s.takePaths f) := by
  refine tameFoldl fun t p => ?_
  have taken : t.Tame { t with reads := (t.reads.takePath p.2).2 } := tameReads
  have headed := tameModifyValue { t with reads := (t.reads.takePath p.2).2 } p.1
    (f := fun d => { d with reads := (t.reads.takePath p.2).1 }) (fun _ _ h => h) (fun _ => rfl) fun _ => rfl
  exact (taken.trans headed).trans (tameSweep p.1)

theorem tameAimStub (stubs : List (Option (ValueId × ReadId))) (slot : ValueId × Nat) : s.Tame (aimStub stubs s slot) := by
  unfold aimStub
  split
  · exact .refl s
  · split
    · exact .refl s
    · dsimp only
      split
      · exact (tameLiveRead _).trans tameReads
      · exact tameLiveRead _

theorem tameAimStubs (s : State) (l : LinkId) : s.Tame (s.aimStubs l) := by
  refine (tameFoldl fun _ slot => tameAimStub _ slot).trans (tameFoldl fun t p => ?_)
  dsimp only
  split
  · exact .refl t
  · exact tameReads

theorem tameVacateResources (fuel : Nat) (s : State) : s.Tame (State.vacateResources fuel s) := by
  induction fuel generalizing s with
  | zero => exact .refl s
  | succ fuel ih =>
    unfold State.vacateResources
    split
    · exact .refl s
    · rename_i id o _
      exact ((tameClear o.value).trans (tameVacate _ id)).trans (ih _)

theorem tameVacateFrame (e : EventId) : s.Tame (s.vacateFrame e) :=
  (tameFoldl fun _ v => tameClear v).trans (tameVacateResources ..)

theorem tameRestoreRings (snapshots : List Snapshot) : s.Tame (s.restoreRings snapshots) :=
  (tameFoldl fun _ (n : Snapshot) => tameLeaveRing n.value).trans (tameFoldl fun _ _ => tameNext ..)

theorem tameShares {j : JunctionId} (shares : Shares j s s') : s.Tame s' := by
  refine .trans (t := { s with events := s'.events }) ⟨rfl, rfl, le_rfl, fun _ _ => rfl, fun _ => .rfl, fun _ _ h => h,
    fun _ _ h => h, fun _ => rfl, fun _ => rfl, fun e => ?_⟩ (by rw [← shares.rest]; exact .refl s')
  rcases shares.event e with same | ⟨-, given⟩
  · exact congrArg Event.kind same
  · have kind := congrArg Event.kind given
    exact kind

theorem tameOpenTable (e : EventId) : s.Tame (s.openTable e) := by
  unfold openTable
  split
  · exact .refl s
  · refine .trans ?_ (tameShares (shareShares _ _ _))
    exact tameRest rfl rfl rfl rfl rfl rfl

theorem tameNewValue (s : State) (kind : ValueKind) : s.Tame (s.newValue kind).2 := by
  have value : ∀ v, (s.newValue kind).2.value v = s.value v ∨
      s.value v = default ∧ (s.newValue kind).2.value v = { kind, next := v } := by
    intro v
    simp only [State.value, newValue, Array.getD_eq_getD_getElem?, Array.getElem?_push]
    by_cases new : v.index = s.values.size
    · obtain ⟨n⟩ := v
      cases new
      exact .inr (by simp)
    · exact .inl (by simp [new])
  refine ⟨rfl, rfl, le_rfl, fun _ _ => rfl, fun _ => .rfl, fun _ _ h => h, fun v i inside => ?_, fun v => ?_, fun v => ?_,
    fun _ => rfl⟩
  all_goals rcases value v with same | ⟨none, made⟩
  · rwa [same] at inside
  · rw [made] at inside
    cases inside
  · rw [same]
  · rw [none, made]
    rfl
  · rw [same]
  · rw [none, made]
    rfl

theorem tameCaptureSnapshots (e : EventId) : s.Tame (s.captureSnapshots e) := by
  unfold captureSnapshots
  dsimp only
  split
  · exact .refl s
  · exact tameModifyEvent e fun _ => rfl

namespace Compile

/-! Entering an event. -/

theorem bindStartRespects (e : EventId) : (bindStart e).Respects named reading := by
  refine .bind .get fun s => .ite .pure (.bind (instructionWithin _) fun i => .ite .pure ?_)
  refine .bind (.bind (.discard (instructionWithin _)) fun _ => ?_) fun _ => bindTargetRespects _
  exact respectsModify fun _ => tameRest rfl rfl rfl rfl rfl rfl

theorem followLinkRespects (l : LinkId) : (followLink l).Respects named reading := by
  refine .bind (respectsModify fun s => ?_) fun _ => .bind .get fun s => .forM fun p => ?_
  · split
    · exact tameTakePaths _
    · exact .refl s
  · exact .bind .get fun s => .ite (consumeReadRespects ..) .pure

theorem restoreSnapshotsRespects (e : EventId) (snapshots : List Snapshot) :
    (restoreSnapshots e snapshots).Respects named reading := by
  refine .bind (respectsModify fun s => (tameRestoreRings snapshots).trans (tameVacateFrame e)) fun _ => ?_
  refine .forM fun n => .bind (tameLive _).respects fun alive => .bind .get fun s => ?_
  exact .ite (.forM fun _ => placeCopyRespects ..) .pure

theorem adoptTableRespects (e : EventId) (j : JunctionId) : (adoptTable e j).Respects named reading := by
  refine .bind (respectsModify fun _ => tameVacateFrame e) fun _ => .bind .get fun s => .forM fun p => .bind .get fun s => ?_
  split
  · exact .pure
  · exact .bind (tameLive p.1).respects fun alive => .ite (placeCopyRespects ..) .pure

theorem enterRespects (e : EventId) : (enter e).Respects named reading := by
  unfold enter
  refine .bind .get fun s => ?_
  split
  · exact .pure
  · refine .bind (followLinkRespects _) fun _ => .bind .get fun s => ?_
    have isolated : (modify (·.isolateFrame) : Build Unit).Respects named reading :=
      respectsModify fun _ => tameFoldl fun _ => tameIsolate
    refine .ite (.ite (restoreSnapshotsRespects ..) .pure) ?_
    refine .bind (respectsModify fun _ => tameFoldl tameAimStubs) fun _ => ?_
    split
    · exact .bind (adoptTableRespects ..) fun _ => isolated
    · exact isolated

/-! Paths that are brought to agree. -/

theorem settleRespects (r : ReadId) (strict : Bool) (reserve : Nat) : (settle r strict reserve).Respects named reading :=
  ⟨fun _ guarded => (settleYields guarded).respects⟩

theorem conformSlotRespects (j : JunctionId) (c : Conformed) (slot : FrameElement) :
    (conformSlot j c slot).Respects named reading := by
  have emptied : ∀ (v : ValueId) (site : Site), (do
      let i ← modifyGet (·.newSite site.copy)
      place v i
      modify (·.removeSite v i)
      return { c with frozen := c.frozen ++ [← hold i] } : Build Conformed).Respects named reading := by
    refine fun v site => ⟨fun s guarded => ?_⟩
    have made : s.Respects named reading (s.newSite site.copy).2 := (tameNewSite s site.copy).respects guarded
    refine respectsBind made fun i t ran _ => ?_
    rw [modifyGetOk, Prod.ext_iff] at ran
    obtain ⟨rfl, rfl⟩ := ran
    have allows : (s.newSite site.copy).2.Allows named (s.newSite site.copy).1 := by
      refine ⟨by simp [IsSite, newSite], fun n number => ?_⟩
      rw [siteNewSelf, numberCopy] at number
      cases number
    refine respectsBind (placeRespects made.guarded allows) fun _ u _ placed => ?_
    refine (Within.bind (respectsModify fun _ => tameRemove ..) fun _ => ?_).keeps u placed.guarded
    exact .bind (tameHold _).respects fun _ => .pure
  have settled : ∀ alive : Bool, (conformKnown j c slot alive).Respects named reading := by
    intro alive
    refine .bind .get fun s => ?_
    split
    · exact .bind (tameProbe ..).respects fun r => .bind (settleRespects ..) fun i =>
        .bind (tameHold i).respects fun _ => .pure
    · exact .pure
    · exact .bind (respectsModifyGet fun s => tameNewValue s _) fun v => emptied v _
    · exact .pure
  unfold conformSlot
  split
  · exact .bind (tameLive _).respects settled
  · exact .bind .pure settled

theorem isSettledRespects (j : JunctionId) (slots : List FrameElement) : (isSettled j slots).Respects named reading := by
  induction slots with
  | nil => exact .pure
  | cons slot rest ih =>
    unfold isSettled
    refine .bind .get fun s => ?_
    split
    · exact .bind (tameLive _).respects fun alive => .bind .get fun s => .ite .pure ih
    · exact ih

theorem conformWithinRespects (e : EventId) (j : JunctionId) (slots : List FrameElement) (bound fuel : Nat) :
    (conformWithin e j slots bound fuel).Respects named reading := by
  induction fuel with
  | zero => exact .throw
  | succ fuel ih =>
    refine .bind (.foldlM (fun c slot => conformSlotRespects j c slot) _) fun c => ?_
    refine .bind (isSettledRespects j slots) fun settled => .ite ?_ ?_
    · exact .bind (respectsModify fun _ => tameCount _) fun _ => .pure
    · exact .bind (respectsModify fun _ => tameThawAll _) fun _ => ih

theorem commitHeldRespects (c : Commitment) (slot : ValueId × Nat) : (commitHeld c slot).Respects named reading := by
  refine .bind (respectsModifyGet fun _ => tameLiveRead _) fun read => ?_
  split
  · exact .pure
  · refine .ite .pure (.bind .get fun s => .bind (respectsModifyGet fun _ => tameChooseSource ..) fun found => ?_)
    split
    · exact .bind (tameHold _).respects fun _ => .bind .get fun s => .pure
    · exact .pure

theorem commitMovedRespects (c : Commitment) (slot : ValueId × Nat) : (commitMoved c slot).Respects named reading := by
  have finish : ∀ i : SiteId, (do
      return c.fill slot.2 (← hold i) ((← get).site i) : Build Commitment).Respects named reading :=
    fun i => .bind (tameHold i).respects fun _ => .bind .get fun s => .pure
  refine .bind (respectsModifyGet fun _ => tameLiveRead _) fun read => ?_
  split
  · exact .pure
  · refine .ite .pure (.bind .get fun s => .bind (respectsModifyGet fun _ => tameChooseSource ..) fun found => ?_)
    split
    · exact finish _
    · exact .bind (tameProbe ..).respects fun r => .bind (relocateRespects ..) finish

theorem commitRespects (e : EventId) (table : List (Option Site)) : (commit e table).Respects named reading := by
  refine .bind .get fun s => .bind (.foldlM commitHeldRespects _) fun c => .ite .pure ?_
  exact .foldlM commitMovedRespects c

theorem settleJunctionRespects (e : EventId) : (settleJunction e).Respects named reading := by
  have finish : ∀ c : Conformed, (fillTable e c).Respects named reading := by
    refine fun c => .bind .get fun s => ?_
    split
    · refine .ite .pure (.bind (commitRespects ..) fun filled => .bind (respectsModify fun _ => ?_) fun _ => .pure)
      exact tameRest rfl rfl rfl rfl rfl rfl
    · exact .pure
  unfold settleJunction
  refine .bind .get fun s => ?_
  split
  · exact .bind (.bind .get fun s => conformWithinRespects ..) finish
  · exact .bind (respectsModify fun _ => tameOpenTable e) fun _ => .bind .pure finish

theorem settleForkRespects (e : EventId) : (settleFork e).Respects named reading :=
  .bind .get fun _ => .ite (.bind (commitRespects ..) fun _ => .pure) .pure

theorem settleTablesRespects (e : EventId) : (settleTables e).Respects named reading :=
  .bind (settleJunctionRespects e) fun _ => .bind (settleForkRespects e) fun _ => .pure

theorem withTablesRespects (e : EventId) {act : Build Unit} (respects : act.Respects named reading) :
    (withTables e act).Respects named reading := by
  refine .bind (settleTablesRespects e) fun frozen => .ensuring respects fun s => ?_
  exact ((tameCaptureSnapshots e).trans (tameThawAll frozen)).respects

/-! A whole method. -/

theorem approachRespects (e : EventId) : (approach e).Respects named False := by
  refine .bind (.bind (respectsModify fun _ => tameRest rfl rfl rfl rfl rfl rfl) fun _ => bindStartRespects e) fun _ => ?_
  refine .bind (enterRespects e) fun _ => .bind .get fun s => ?_
  exact .ite (withTablesRespects e (chooseSourcesRespects _)) (chooseSourcesRespects _)

theorem revisitRespects (e : EventId) : (revisit e).Respects named False := by
  refine .bind .get fun s => .bind (respectsModify fun _ => tameModifyEvent e fun _ => rfl) fun _ => ?_
  exact .forM followLinkRespects

theorem oneRespects (e : EventId) : (one e).Respects named False := by
  have works : (event e).Respects named False := (eventRespects e).mono fun respects guarded => (respects guarded).weaken
  have concludes : (conclude e).Respects named False :=
    .bind .get fun _ => .ite (withTablesRespects e .pure) .pure
  refine .bind (.bind (approachRespects e) fun _ => .bind works fun _ => concludes) fun _ => ?_
  exact .bind (revisitRespects e) fun _ => respectsModify fun _ => tameCount _

theorem claimRegisterValuesRespects : claimRegisterValues.Respects named reading := by
  refine .bind .get fun s => .bind (respectsModify fun _ => tameRest rfl rfl rfl rfl rfl rfl) fun _ => .forM fun o => ?_
  refine .bind (tameLive _).respects fun alive => .ite ⟨fun s guarded => ?_⟩ .pure
  rw [afterGet]
  split
  · rename_i listed
    exact acquireRespects guarded (guarded.listed _ _ (List.contains_iff_mem.mp listed)).1
  · exact .refl guarded

theorem prologueRespects (handler : Option Int) (limitOffset : Nat) (starts : ensureEvent.Respects named reading) :
    (prologue handler limitOffset).Respects named reading := by
  have frame : (do
      emit (.allocateFrame (← get).frameSize)
      claimRegisterValues : Build Unit).Respects named reading :=
    .bind .get fun _ => .bind (emitRespects rfl) fun _ => claimRegisterValuesRespects
  refine .bind starts fun _ => ?_
  cases handler with
  | none => exact frame
  | some h => exact .bind (emitRespects rfl) fun _ => frame

end Compile

/-! Describing a method. -/

theorem respectsRest (values : s'.values = s.values) (sites : s'.sites = s.sites) (resources : s'.resources = s.resources)
    (machine : s'.machine = s.machine) (emitter : s'.emitter = s.emitter) (events : s'.events = s.events)
    (guarded : s.Guarded named) : s.Respects named reading s' :=
  (tameRest values sites resources machine emitter events).respects guarded

theorem respectsEvents (guarded : s.Guarded named) {events : Array Event}
    (branches : ∀ e b, ({ s with events }.event e).kind = .branch b → b.op.isBranch = true) :
    s.Respects named reading { s with events } :=
  ⟨rfl, fun _ => .rfl, le_rfl, fun _ _ _ _ => .rfl, fun _ _ => rfl, ⟨guarded.records, guarded.owners, guarded.targets,
    guarded.listed, guarded.sources, branches, guarded.result⟩, ⟨[], by simp, by simp⟩, fun _ _ _ chosen _ => chosen⟩

theorem respectsCreateEvent {kind : EventKind} (branches : ∀ b, kind = .branch b → b.op.isBranch = true) :
    (createEvent kind).Respects named reading := by
  refine .modifyGet fun s guarded => respectsEvents guarded fun e b branch => ?_
  simp only [State.event, Array.getD_eq_getD_getElem?, Array.getElem?_push] at branch
  split at branch
  · exact branches b branch
  · refine guarded.branches e b ?_
    rwa [State.event, Array.getD_eq_getD_getElem?]

theorem updateCallRespects (e : EventId) (f : CallEvent → CallEvent) : (Append.updateCall e f).Respects named reading := by
  refine .modify fun s guarded => respectsEvents guarded fun e' b branch => ?_
  change ((s.modifyEvent e _).event e').kind = .branch b at branch
  rw [eventModify] at branch
  split at branch
  · split at branch
    · cases branch
    · exact guarded.branches e b branch
  · exact guarded.branches e' b branch

theorem tameNewLink (predecessor successor : EventId) (fork : Option ForkId) :
    s.Tame (s.newLink predecessor successor fork).2 := by
  refine .trans ?_ (tameModifyEvent predecessor fun _ => rfl)
  refine .trans ?_ (tameModifyEvent successor fun _ => rfl)
  exact tameRest rfl rfl rfl rfl rfl rfl

theorem tameModifyInstruction (ip : Int) (f : Instruction → Instruction) : Within State.Tame (modifyInstruction ip f) :=
  .bind (.discard (instructionWithin ip)) fun _ => .modify fun _ => tameRest rfl rfl rfl rfl rfl rfl

theorem tameLinkEvent (e : EventId) : Within State.Tame (linkEvent e) := by
  refine .bind (.modify fun s => ?_) fun _ => .bind (.modify fun _ => tameRest rfl rfl rfl rfl rfl rfl) fun _ => ?_
  · split
    · exact tameModifyEvent _ fun _ => rfl
    · exact tameRest rfl rfl rfl rfl rfl rfl
  refine .bind (.modify fun s => ?_) fun _ => .bind (.modify fun _ => tameRest rfl rfl rfl rfl rfl rfl) fun _ => ?_
  · split
    · exact tameNewLink ..
    · exact .refl s
  exact .bind .get fun s => tameModifyInstruction ..

theorem tameLinkRead (e : Option EventId) (v : ValueId) (r : ReadId) : Within State.Tame (linkRead e v r) := by
  have rest : Within State.Tame (linkLast v r) := by
    have last : ∀ s : State, s.Tame (s.modifyValue v fun d => { d with lastRead := some r }) := fun s =>
      tameModifyValue s v (fun _ _ h => h) (fun _ => rfl) fun _ => rfl
    refine .read fun s => ?_
    cases (s.value v).lastRead with
    | none =>
      have first := tameModifyValue s v (f := fun d => { d with reads := some r }) (fun _ _ h => h) (fun _ => rfl) fun _ => rfl
      exact first.trans (last _)
    | some previous =>
      dsimp only
      have appended : s.Tame { s with reads := (s.reads.append previous r).2 } := tameReads
      cases failed : (s.reads.append previous r).1 with
      | none =>
        have ends := appended.trans (last _)
        exact ends
      | some _ => exact appended
  cases e with
  | none => exact rest
  | some e =>
    refine .bind (.modify fun s => ?_) fun _ => rest
    have marked : s.Tame { s with reads := s.reads.setEvent r e } := tameReads
    exact marked.trans (tameModifyEvent e fun _ => rfl)

theorem tameDemand (e : EventId) (v : ValueId) (mask : SiteMask) (successor : Option ValueId) :
    Within State.Tame (demand e v mask successor) :=
  .bind (.modifyGet fun _ => tameReads) fun _ => tameLinkRead ..

theorem appendDummyRespects : appendDummy.Respects named reading := by
  refine .bind .get fun _ => .bind .get fun _ => .bind .get fun _ => .bind (instructionWithin _) fun entry => ?_
  refine .bind (respectsModify fun _ => tameRest rfl rfl rfl rfl rfl rfl) fun _ => .ensuring ?_ fun s => ?_
  · exact .bind (respectsCreateEvent nofun) fun e => (tameLinkEvent e).respects
  · exact respectsRest rfl rfl rfl rfl rfl rfl

theorem ensureEventRespects : ensureEvent.Respects named reading :=
  .bind .get fun _ => .bind (instructionWithin _) fun _ => .ite appendDummyRespects .pure

theorem appendEventRespects (e : EventId) : (appendEvent e).Respects named reading := by
  refine .bind .get fun _ => .bind (instructionWithin _) fun _ => .bind .get fun _ => ?_
  exact .ite (.bind appendDummyRespects fun _ => (tameLinkEvent e).respects) (tameLinkEvent e).respects

theorem respectsNewValueAt (kind : ValueKind) {site : Site} (nameable : site.Nameable named) (guarded : s.Guarded named) :
    s.Respects named reading (s.newValueAt kind site).2 := by
  have valued : s.Respects named reading (s.newValue kind).2 := (tameNewValue s kind).respects guarded
  have made := valued.trans ((tameNewSite (s.newValue kind).2 site).respects valued.guarded)
  have allows : ((s.newValue kind).2.newSite site).2.Allows named ((s.newValue kind).2.newSite site).1 := by
    refine ⟨by simp [IsSite, newSite], fun n number _ => ?_⟩
    rw [siteNewSelf] at number
    cases site with
    | register mask number' =>
      obtain ⟨m, rfl, -, asked⟩ := nameable
      cases number
      exact asked
    | constant | address | memory => cases number
  have listed := made.trans (respectsModifyValue (v := ⟨s.values.size⟩)
    (f := fun d => { d with sites := d.sites ++ [((s.newValue kind).2.newSite site).1] }) made.guarded (fun i inside => ?_)
    (fun _ => .inl) (fun _ => .inl) fun _ _ chosen _ => chosen)
  · unfold newValueAt
    cases site with
    | register => exact listed.trans (respectsRest rfl rfl rfl rfl rfl rfl listed.guarded)
    | constant | address | memory => exact listed
  · rcases List.mem_append.mp inside with inside | new
    · exact .inl inside
    · rw [List.mem_singleton.mp new]
      exact .inr allows

theorem respectsSuits : Suits named (fun s s' : State => s.Guarded named → s.Respects named reading s')
    fun s s' => s.Guarded named → s.Respects named reading s' where
  weaken := id
  quiet quiet := by
    rw [quiet]
    exact respectsRest rfl rfl rfl rfl rfl rfl
  home s v home := by
    refine State.Tame.respects ?_
    exact tameModifyValue s v (fun _ _ h => h) (fun _ => rfl) fun _ => rfl
  demand e v mask successor := (tameDemand e v mask successor).respects
  call := updateCallRespects
  value s kind := (tameNewValue s kind).respects
  valueAt _ kind _ nameable := respectsNewValueAt kind nameable
  operation branches reads :=
    .bind (respectsCreateEvent branches) fun e => .bind (reads e) fun _ => appendEventRespects e

namespace Method

theorem respectsVisitRoots (ip : Nat) : (visitRoots ip).Respects named reading := by
  refine .bind .get fun s => ?_
  split
  · exact respectsModify fun _ => tameRest rfl rfl rfl rfl rfl rfl
  · exact .throw

theorem respectsRecordFrame : recordFrame.Respects named reading := by
  refine respectsModify fun s => ?_
  split
  · exact tameModifyEvent _ fun _ => rfl
  · exact .refl s

theorem respectsLinkBack (p target : EventId) : (linkBack p target).Respects named reading := by
  have stubs : ∀ l, (plantStubs l).Respects named reading := by
    refine fun l => .bind .get fun s => .bind (.foldlM (fun stubs slot => ?_) _) fun _ =>
      respectsModify fun _ => tameRest rfl rfl rfl rfl rfl rfl
    exact .bind (respectsModifyGet fun _ => tameReads) fun r => .bind (tameLinkRead ..).respects fun _ => .pure
  refine .bind respectsRecordFrame fun _ => .bind .get fun _ => .bind (respectsModifyGet fun _ => tameNewLink ..) fun l => ?_
  refine .bind .get fun s => ?_
  split
  · exact .throw
  · exact .bind (respectsModify fun _ => tameModifyEvent _ fun _ => rfl) fun _ => stubs l

theorem respectsVisitInstruction (ip : Nat) : (visitInstruction ip).Respects named reading := by
  have rest : ∀ i : Instruction, (leaveTo ip i).Respects named reading := fun i =>
    .bind (respectsModify fun _ => tameRest rfl rfl rfl rfl rfl rfl) fun _ => respectsVisitRoots ip
  refine .bind ensureEventRespects fun _ => .bind (instructionWithin _) fun i => ?_
  split
  · exact .throw
  · refine .bind .get fun s => ?_
    split
    · exact .bind (respectsLinkBack ..) fun _ => rest i
    · exact rest i

theorem respectsStartInstruction (ip : Nat) : (startInstruction ip).Respects named reading := by
  have rest : (do
      ensureEvent
      recordFrame
      let subroutine := (← get).subroutine
      modify fun s =>
        let entry : Instruction := { stack := s.stack, locals := s.locals, subroutine }
        { s with
          subroutine := none
          ip := ip
          instructions := s.instructions.modify (ip + 1) fun _ => some entry }
      if subroutine.isSome then declareMissing
      visitRoots ip : Build Unit).Respects named reading := by
    refine .bind ensureEventRespects fun _ => .bind respectsRecordFrame fun _ => .bind .get fun s => ?_
    refine .bind (respectsModify fun t => tameRest rfl rfl rfl rfl rfl rfl) fun _ => ?_
    exact .ite (.bind respectsSuits.declareMissing fun _ => respectsVisitRoots ip) (respectsVisitRoots ip)
  refine .bind .get fun s => .ite (.bind .throw fun _ => ?_) ?_
  · exact .bind .get fun s => .ite (.bind .throw fun _ => rest) rest
  · exact .bind .get fun s => .ite (.bind .throw fun _ => rest) rest

theorem respectsCaptureState : captureState.Respects named reading := by
  refine .bind ensureEventRespects fun _ => .bind .get fun s => ?_
  refine .bind (respectsModify fun _ => tameRest rfl rfl rfl rfl rfl rfl) fun _ => .bind .get fun t => ?_
  refine .bind (.mapM fun v => ?_) fun forks => respectsModifyGet fun u => tameRest rfl rfl rfl rfl rfl rfl
  exact .bind (respectsModifyGet fun _ => tameReads) fun r => .bind (tameLinkRead ..).respects fun _ => .pure

theorem respectsRestoreState (f : ForkId) : (restoreState f).Respects named reading := by
  refine .bind ensureEventRespects fun _ => respectsModify fun s => ?_
  have opened : ∀ (t : State) (v : ValueId) (r : ReadId),
      t.Tame ({ t with reads := t.reads.openPath r }.modifyValue v fun d => { d with lastRead := some r }) := by
    intro t v r
    have path : t.Tame { t with reads := t.reads.openPath r } := tameReads
    exact path.trans (tameModifyValue _ v (fun _ _ h => h) (fun _ => rfl) fun _ => rfl)
  dsimp only
  split
  · exact tameRest rfl rfl rfl rfl rfl rfl
  · refine .trans ?_ (tameFoldl fun t p => opened t p.1 p.2)
    exact tameRest rfl rfl rfl rfl rfl rfl

theorem respectsReturnFromSubroutine (r : SubroutineId) (address : ValueId) :
    (returnFromSubroutine r address).Respects named reading :=
  .bind respectsSuits.saveLocals fun _ => .bind (respectsSuits.jump _) fun _ =>
    .bind respectsCaptureState fun _ => respectsModify fun _ => tameRest rfl rfl rfl rfl rfl rfl

theorem respectsLinkSubroutine (r : SubroutineId) : (linkSubroutine r).Respects named reading := by
  refine .bind .get fun s => ?_
  split
  · exact respectsRestoreState _
  · exact .throw

end Method

theorem ResourceTable.ownerSetFrame (table : ResourceTable) (count : Nat) (reserved : List Nat) (k : Nat) :
    ((table.setFrame count reserved).get (.slot k)).owner = none := by
  simp only [setFrame, get, List.getD_eq_getElem?_getD, List.getElem?_map]
  cases (List.range count)[k]? <;> rfl

theorem respectsStart (codeLength parameterFootprint localFootprint frameSize : Nat) (guarded : s.Guarded named) :
    s.Respects named reading (s.start codeLength parameterFootprint localFootprint frameSize) := by
  refine ⟨rfl, fun _ => .rfl, le_rfl, fun _ _ _ _ => .rfl, fun _ _ => rfl, ⟨guarded.records, fun id o owner => ?_,
    guarded.targets, guarded.listed, guarded.sources, guarded.branches, guarded.result⟩, ⟨[], by simp [start], by simp⟩,
    fun _ _ _ chosen _ => chosen⟩
  cases id with
  | register n => exact guarded.owners (.register n) o owner
  | slot k =>
    have unowned : ((s.start codeLength parameterFootprint localFootprint frameSize).resources.get (.slot k)).owner = none :=
      ResourceTable.ownerSetFrame ..
    rw [unowned] at owner
    cases owner

theorem ClientCall.respects {c : ClientCall} (fits : c.Fits named) : c.run.Respects named False := by
  cases c with
  | start => exact .modify fun _ => respectsStart _ _ _ _
  | visitInstruction ip => exact Method.respectsVisitInstruction ip
  | startInstruction ip => exact Method.respectsStartInstruction ip
  | saveState =>
    exact .discard (.bind Method.respectsCaptureState fun f => .bind (Method.respectsRestoreState f) fun _ => .pure)
  | restoreState f => exact Method.respectsRestoreState f
  | returnFromSubroutine r address => exact Method.respectsReturnFromSubroutine r address
  | linkSubroutine r => exact Method.respectsLinkSubroutine r
  | compile handler limitOffset =>
    exact .bind (Compile.prologueRespects _ _ ensureEventRespects) fun _ => .bind .get fun _ => .forM Compile.oneRespects
  | _ => exact respectsSuits.plain trivial fits

theorem historyRespects {calls : List ClientCall} (fits : ∀ c ∈ calls, c.Fits named) (guarded : s.Guarded named) :
    s.Respects named False (s.history calls) := by
  induction calls generalizing s with
  | nil => exact .refl guarded
  | cons c rest ih =>
    have first := (ClientCall.respects (fits c List.mem_cons_self)).keeps s guarded
    exact first.trans (ih (fun c member => fits c (List.mem_cons_of_mem _ member)) first.guarded)

/-! Methods for x86-64. -/

section X64

open X64

variable (variant : Variant) (settings : Settings) (helpers : Option HelperAddress)

theorem guardedFresh (result : named rax) :
    (fresh (describe variant) settings (.recording {}) helpers).Guarded named where
  records := ⟨_, rfl⟩
  owners id o owner := by
    have unowned : ((fresh (describe variant) settings (.recording {}) helpers).resources.get id).owner = none := by
      cases id with
      | slot k => rfl
      | register n =>
        simp only [fresh, State.empty, ResourceTable.ofRegisters, ResourceTable.get, List.getD_eq_getElem?_getD,
          List.getElem?_map]
        cases (ResourceTable.registerNumbers _)[n]? <;> rfl
    rw [unowned] at owner
    cases owner
  targets v i target := by simp [fresh, State.empty, State.value] at target; cases target
  listed v i listed := by simp [fresh, State.empty, State.value] at listed; cases listed
  sources v i source := by simp [fresh, State.empty, State.value] at source; cases source
  branches e b branch := by simp [fresh, State.empty, State.event, default] at branch
  result := result

theorem setsAsideFresh {n : Register} (inside : n < 32) (reserved : (describe variant).reserved n = true) :
    (fresh (describe variant) settings (.recording {}) helpers).SetsAside n := by
  have here : (ResourceTable.registerNumbers 32)[n]? = some n := by
    simp [ResourceTable.registerNumbers, inside]
  rw [SetsAside, fresh, State.empty, ResourceTable.ofRegisters, ResourceTable.get, List.getD_eq_getElem?_getD,
    List.getElem?_map]
  rw [show (describe variant).registerCount = 32 from rfl, here]
  exact reserved

namespace ClientCall

def IsOffered : ClientCall → Prop
  | branch op .. => op.isBranch = true
  | _ => True

end ClientCall

/- The results of operations take the place of operands, and the result of a call is in the register for results. So
a register that is reserved is only written where a client has asked for what it holds. -/
theorem reservedWrittenInPlace {calls : List ClientCall} (offered : ∀ c ∈ calls, c.IsOffered) {n : Register} (inside : n < 32)
    (reserved : (describe variant).reserved n = true) {q : Request}
    (emitted : q ∈ ((fresh (describe variant) settings (.recording {}) helpers).history calls).emitter.log)
    (goes : q.destination? = some (.register n)) :
    q.overwritten? = some (.register n) ∧ (ClientCall.register n ∈ calls ∨ n = rax) := by
  have fits : ∀ c ∈ calls, c.Fits fun n => ClientCall.register n ∈ calls ∨ n = rax := by
    intro c member
    have offered := offered c member
    cases c with
    | register m => exact .inl member
    | branch => exact offered
    | _ => trivial
  obtain ⟨l, log, spared⟩ := (historyRespects fits (guardedFresh variant settings helpers (.inr rfl))).log
  rw [log] at emitted
  exact spared q (by simpa [fresh, State.empty, Emitter.log] using emitted) n
    (setsAsideFresh variant settings helpers inside reserved) goes

end X64

def ClientCall.raising (n : Register) : List ClientCall :=
  [.start 1 0 0 2, .startInstruction 0, .register n, .constant 8 .general, .combine .add 8 ⟨1⟩ ⟨0⟩, .leave (some ⟨2⟩),
    .compile none 0]

/- The sum takes the place of the operand, which is in the register of the thread. -/
theorem threadIsWritten : (X64.describe {}).reserved X64.thread = true ∧
    ∃ q ∈ ((fresh (X64.describe {}) {} (.recording {}) none).history (ClientCall.raising X64.thread)).emitter.log,
      q.destination? = some (.register X64.thread) := by
  decide +kernel

theorem threadIsWrittenInPlace : ∃ q ∈
    ((fresh (X64.describe {}) {} (.recording {}) none).history (ClientCall.raising X64.thread)).emitter.log,
      q.destination? = some (.register X64.thread) ∧ q.overwritten? = some (.register X64.thread) := by
  obtain ⟨q, emitted, goes⟩ : ∃ q ∈
      ((fresh (X64.describe {}) {} (.recording {}) none).history (ClientCall.raising X64.thread)).emitter.log,
      q.destination? = some (.register X64.thread) := by decide +kernel
  have offered : ∀ c ∈ ClientCall.raising X64.thread, c.IsOffered := by simp [ClientCall.raising, ClientCall.IsOffered]
  exact ⟨q, emitted, goes, (reservedWrittenInPlace {} {} none offered (by decide) (by decide) emitted goes).1⟩

end Lowering
