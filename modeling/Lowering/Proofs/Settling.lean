import Lowering.Proofs.Fixture
/-!
What compiling keeps to.

Only the tables of merges are changed besides what an event leaves alone. So a relation that allows
for these changes holds between the states before and after any event, and of a whole method.
-/
namespace Lowering

open Build State

variable {α : Type} {s s' t : State} {e : EventId}

/-! Filling a table does not touch it until it is full. -/

theorem firmlyCommit (e : EventId) (table : List (Option Site)) : (commit e table).Firmly := by
  have fill : ∀ (c : Commitment) (slot : Nat) (i : SiteId), (do
      return c.fill slot (← hold i) ((← get).site i) : Build Commitment).Firmly :=
    fun c slot i => .bind (firmlyHold i) fun _ => .bind .get fun _ => .pure
  refine .bind .get fun s => .bind (.foldlM (fun c slot => ?_) _) fun c =>
    .ite .pure (.foldlM (fun c slot => ?_) _)
  · unfold commitHeld
    refine .bind (.modifyGet fun _ => (stirsLiveRead _).firm) fun read => ?_
    split
    · exact .pure
    · refine .ite .pure (.bind .get fun s => ?_)
      refine .bind (.modifyGet fun _ => (stirsChooseSource ..).firm) fun found => ?_
      split
      · exact fill ..
      · exact .pure
  · unfold commitMoved
    refine .bind (.modifyGet fun _ => (stirsLiveRead _).firm) fun read => ?_
    split
    · exact .pure
    · refine .ite .pure (.bind .get fun s => ?_)
      refine .bind (.modifyGet fun _ => (stirsChooseSource ..).firm) fun found => ?_
      split
      · exact .bind .pure fun i => fill c slot.2 i
      · exact .bind (stirringProbe ..).firmly fun r => .bind (stirringRelocate ..).firmly fun i => fill c slot.2 i

/-! Bringing values to a table does not touch it. -/

def conformKnown (j : JunctionId) (c : Conformed) (slot : FrameElement) (alive : Bool) : Build Conformed := do
  let s ← get
  match (if alive then slot.value else none), s.tableEntry j slot.slot with
  | some v, some site =>
    let r ← probe v (site.mask s.geometry)
    let i ← hold (← settle r true s.settings.resolveReserve)
    return { c with frozen := c.frozen ++ [i] }
  | some _, none => return { c with complete := false }
  | none, some site =>
    let v ← modifyGet (·.newValue .general)
    let i ← modifyGet (·.newSite site.copy)
    place v i
    modify (·.removeSite v i)
    return { c with frozen := c.frozen ++ [← hold i] }
  | none, none => return c

theorem firmlyConformSlot (j : JunctionId) (c : Conformed) (slot : FrameElement) :
    (conformSlot j c slot).Firmly := by
  have settled : ∀ alive : Bool, (conformKnown j c slot alive).Firmly := by
    intro alive
    refine .bind .get fun s => ?_
    split
    · exact .bind (stirringProbe ..).firmly fun r => .bind (stirringSettle ..).firmly fun i =>
        .bind (firmlyHold i) fun _ => .pure
    · exact .pure
    · refine .bind (.modifyGet fun _ => .still rfl List.prefix_rfl rfl rfl (by simp [newValue])) fun v => ?_
      exact .bind (.modifyGet fun _ => .still rfl List.prefix_rfl rfl rfl (Nat.le_refl _)) fun i =>
        .bind (stirringPlace v i).firmly fun _ => .bind (.modify fun _ => (stirsRemove v i).firm) fun _ =>
          .bind (firmlyHold i) fun _ => .pure
    · exact .pure
  unfold conformSlot
  split
  · exact .bind (stirringLive _).firmly settled
  · exact .bind .pure settled

theorem firmlyIsSettled (j : JunctionId) (slots : List FrameElement) :
    (isSettled j slots).Firmly := by
  induction slots with
  | nil => exact .pure
  | cons slot rest ih =>
    unfold isSettled
    refine .bind .get fun s => ?_
    split
    · exact .bind (stirringLive _).firmly fun alive => .bind .get fun s => .ite .pure ih
    · exact ih

theorem firmlyConform (e : EventId) (j : JunctionId) : (conform e j).Firmly := by
  have passes : ∀ (slots : List FrameElement) (bound fuel : Nat),
      (conformWithin e j slots bound fuel).Firmly := by
    intro slots bound fuel
    induction fuel with
    | zero => exact .throw
    | succ fuel ih =>
      refine .bind (.foldlM (firmlyConformSlot j) _) fun c => ?_
      refine .bind (firmlyIsSettled j slots) fun done => .ite ?_ ?_
      · exact .bind (.modify fun _ => (stirsCount _).firm) fun _ => .pure
      · exact .bind (.modify fun _ => (stirsThawAll _).firm) fun _ => ih
  exact .bind .get fun s => passes ..

/-! Compiling an event. -/

def fillTable (e : EventId) (c : Conformed) : Build (List SiteId) := do
  let s ← get
  match (s.event e).junction with
  | some j =>
    if c.complete then return c.frozen
    let filled ← commit e (s.junction j)
    modify fun s => { s with junctions := s.junctions.modify j.index fun _ => filled.table }
    return c.frozen ++ filled.frozen
  | none => return c.frozen

structure Grants (R : State → State → Prop) : Prop where
  firm : ∀ {s s'}, s.Firm s' → R s s'
  opens : ∀ (s : State) (e : EventId), R s (s.openTable e)
  fills : ∀ {s t : State} {e : EventId} {j : JunctionId} {c : Commitment},
    commit e (s.junction j) s = .ok c t →
      R s { t with junctions := t.junctions.modify j.index fun _ => c.table }

structure Admits (R : State → State → Prop) : Prop where
  fixed : ∀ {s s'}, s.Fixed s' → R s s'
  begins : ∀ (s : State) (e : EventId),
    R s { s with stack := (s.event e).stackBefore, locals := (s.event e).localsBefore }
  opens : ∀ (s : State) (e : EventId), R s (s.openTable e)
  fills : ∀ {s t : State} {e : EventId} {j : JunctionId} {c : Commitment},
    commit e (s.junction j) s = .ok c t →
      R s { t with junctions := t.junctions.modify j.index fun _ => c.table }

namespace Grants

variable {R : State → State → Prop} [Std.Refl R] [Trans R R R] (grants : Grants R)

include grants

omit [Std.Refl R] [Trans R R R] in
theorem firmly {act : Build α} (firmly : act.Firmly) : Within R act := firmly.mono grants.firm

theorem settleJunction (e : EventId) : Within R (settleJunction e) := by
  have finish : ∀ c : Conformed, Within R (fillTable e c) := by
    refine fun c => .read fun s => ?_
    cases shared : (s.event e).junction with
    | none => exact Std.Refl.refl s
    | some j =>
      dsimp only
      split
      · exact Std.Refl.refl s
      · cases committed : commit e (s.junction j) s with
        | ok filled t =>
          rw [afterBindOk committed]
          exact grants.fills committed
        | error err t =>
          rw [afterBindError committed]
          exact grants.firm ((firmlyCommit e _).fails committed)
  unfold Lowering.settleJunction
  refine .bind .get fun s => ?_
  dsimp only
  split
  · exact .bind (grants.firmly (firmlyConform ..)) finish
  · exact .bind (.modify fun s => grants.opens s e) fun _ => .bind .pure finish

theorem withTables (e : EventId) {act : Build Unit} (firmly : act.Firmly) :
    Within R (Compile.withTables e act) := by
  have fork : (settleFork e).Firmly :=
    .bind .get fun s => .ite (.bind (firmlyCommit ..) fun _ => .pure) .pure
  have captured : ∀ (s : State) (frozen : List SiteId),
      s.Firm ((s.captureSnapshots e).thawSites frozen) := by
    intro s frozen
    refine Firm.trans ?_ (stirsThawAll frozen).firm
    unfold captureSnapshots
    dsimp only
    split
    · exact .refl s
    · exact firmModifyEvent e (fun _ => rfl) fun _ => rfl
  refine .bind (.bind (grants.settleJunction e) fun _ =>
    .bind (grants.firmly fork) fun _ => .pure) fun frozen => ?_
  exact grants.firmly (firmly.ensuring fun s => captured s frozen)

end Grants

namespace Admits

variable {R : State → State → Prop} [Std.Refl R] [Trans R R R] (admits : Admits R)

include admits

omit [Std.Refl R] [Trans R R R] in
theorem leaves {act : Build α} (leaves : act.Leaves) : Within R act := leaves.mono admits.fixed

omit [Std.Refl R] [Trans R R R] in
theorem grants : Grants R := ⟨fun firm => admits.fixed firm.fixed, admits.opens, admits.fills⟩

omit [Std.Refl R] in
theorem begin (e : EventId) : Within R (Compile.begin e) :=
  .bind (.modify fun s => admits.begins s e) fun _ => admits.leaves (Compile.firmlyBindStart e).leaves

theorem approach (e : EventId) : Within R (Compile.approach e) := by
  refine .bind (admits.begin e) fun _ => .bind (admits.leaves (leavesEnter e)) fun _ => .bind .get fun s => ?_
  have sources := (stirringChooseSources (s.event e).reads).firmly
  exact .ite (admits.grants.withTables e sources) (admits.grants.firmly sources)

theorem conclude (e : EventId) : Within R (Compile.conclude e) :=
  .bind .get fun _ => .ite (admits.grants.withTables e .pure) .pure

omit [Std.Refl R] [Trans R R R] in
theorem revisit (e : EventId) : Within R (Compile.revisit e) := by
  refine admits.leaves (.bind .get fun s => ?_)
  exact .bind (.modify fun _ => fixedModifyEvent e fun _ => rfl) fun _ => .forM leavesFollowLink

theorem one (e : EventId) : Within R (Compile.one e) := by
  have event := admits.leaves (Compile.firmlyEvent e).leaves
  refine .bind (.bind (admits.approach e) fun _ => .bind event fun _ => admits.conclude e) fun _ => ?_
  exact .bind (admits.revisit e) fun _ => admits.leaves (.modify fun _ => (stirsCount _).firm.fixed)

end Admits

end Lowering
