import Lowering.Proofs.Lending
import Lowering.Proofs.Outcome
import Lowering.Proofs.Steering
import Lowering.Proofs.Tables
import Lowering.Snapshot
/-!
Moving values about.

Work is classed by a relation between the states before and after it, and the relation is shown once for every way to
put work together. What places, moves and evicts values changes where they are, which reads they still ask for, and
what is emitted. It makes new sites and takes none back, and it makes no alias and parts none.
-/
namespace Lowering

open Build State

variable {α β : Type} {s s' : State}

namespace Build

theorem afterBindOk {x : Build α} {f : α → Build β} {a : α} {t : State} (ok : x s = .ok a t) :
    after (x >>= f) s = after (f a) t := by
  simp only [after, bind, EStateM.bind, ok]

theorem afterBindError {x : Build α} {f : α → Build β} {e : Error} {t : State}
    (failed : x s = .error e t) : after (x >>= f) s = t := by
  simp only [after, bind, EStateM.bind, failed]

theorem afterGet {f : State → Build β} : after (get >>= f) s = after (f s) s := rfl

theorem afterModify {f : State → State} {act : PUnit → Build α} :
    after (modify f >>= act) s = after (act ⟨⟩) (f s) := by
  simp only [after, modifyBind]

structure Within (R : State → State → Prop) (act : Build α) : Prop where
  keeps : ∀ s, R s (after act s)

namespace Within

variable {R : State → State → Prop} {x y : Build α} {f : α → Build β}

theorem holds (within : Within R x) {a : α} (ok : x s = .ok a s') : R s s' :=
  afterOk ok ▸ within.keeps s

theorem fails (within : Within R x) {e : Error} (failed : x s = .error e s') : R s s' := by
  have ended := within.keeps s
  rwa [after, failed] at ended

theorem mono {Q : State → State → Prop} (weaker : ∀ {s s'}, R s s' → Q s s')
    (within : Within R x) : Within Q x := ⟨fun s => weaker (within.keeps s)⟩

theorem throw [Std.Refl R] {e : Error} : Within R (throw e : Build α) := ⟨Std.Refl.refl⟩

theorem modifyGet {f : State → α × State} (related : ∀ s, R s (f s).2) :
    Within R (modifyGet f) := ⟨related⟩

theorem modify {f : State → State} (related : ∀ s, R s (f s)) : Within R (modify f) :=
  modifyGet related

theorem pure [Std.Refl R] {a : α} : Within R (pure a) := ⟨Std.Refl.refl⟩

theorem get [Std.Refl R] : Within R (get : Build State) := ⟨Std.Refl.refl⟩

theorem bind [Trans R R R] (first : Within R x) (rest : ∀ a, Within R (f a)) :
    Within R (x >>= f) := by
  constructor
  intro s
  cases ran : x s with
  | ok a t =>
    rw [afterBindOk ran]
    exact Trans.trans (first.holds ran) ((rest a).keeps t)
  | error e t =>
    rw [afterBindError ran]
    exact first.fails ran

theorem read {f : State → Build β} (each : ∀ s, R s (after (f s) s)) :
    Within R (MonadStateOf.get >>= f) := ⟨each⟩

theorem ite {c : Prop} [Decidable c] (yes : Within R x) (no : Within R y) :
    Within R (if c then x else y) := by
  split
  · exact yes
  · exact no

theorem map {g : α → β} (within : Within R x) : Within R (g <$> x) := by
  constructor
  intro s
  have ended := within.keeps s
  simp only [after, Functor.map, EStateM.map] at ended ⊢
  cases ran : x s <;> rw [ran] at ended <;> exact ended

theorem discard (within : Within R x) : Within R (discard x) := within.map

theorem ensuring [Trans R R R] {after : State → State} (within : Within R x)
    (related : ∀ s, R s (after s)) : Within R (ensuring x after) := by
  constructor
  intro s
  have ended := within.keeps s
  simp only [Build.after, Build.ensuring] at ended ⊢
  cases ran : x s <;> rw [ran] at ended <;> exact Trans.trans ended (related _)

theorem forM [Std.Refl R] [Trans R R R] {f : α → Build PUnit} {xs : List α}
    (round : ∀ x, Within R (f x)) : Within R (xs.forM f) := by
  induction xs with
  | nil => exact pure
  | cons x rest ih => exact bind (round x) fun _ => ih

theorem foldlM [Std.Refl R] [Trans R R R] {f : β → α → Build β} {xs : List α}
    (round : ∀ b x, Within R (f b x)) (b : β) : Within R (xs.foldlM f b) := by
  induction xs generalizing b with
  | nil => exact pure
  | cons x rest ih =>
    rw [List.foldlM_cons]
    exact bind (round b x) ih

theorem mapM [Std.Refl R] [Trans R R R] {f : α → Build β} {xs : List α}
    (round : ∀ x, Within R (f x)) : Within R (xs.mapM f) := by
  induction xs with
  | nil =>
    rw [List.mapM_nil]
    exact pure
  | cons x rest ih =>
    rw [List.mapM_cons]
    exact bind (round x) fun _ => bind ih fun _ => pure

end Within

end Build

namespace State

def shell (s : State) : State :=
  { s with
    values := #[], sites := #[], reads := {}
    resources := .ofRegisters 0 0 fun _ => false, statistics := {}, emitter := .recording {} }

structure Stirs (s s' : State) : Prop where
  shell : s'.shell = s.shell
  size : s'.values.size = s.values.size
  next : ∀ v, (s'.value v).next = (s.value v).next
  sites : s.sites.size ≤ s'.sites.size
  paths : s'.reads.paths? = s.reads.paths?

theorem Stirs.trans {t : State} (first : s.Stirs t) (second : t.Stirs s') : s.Stirs s' :=
  ⟨second.shell.trans first.shell, second.size.trans first.size, fun v => (second.next v).trans (first.next v),
    Nat.le_trans first.sites second.sites, second.paths.trans first.paths⟩

@[refl] theorem Stirs.refl (s : State) : s.Stirs s := ⟨rfl, rfl, fun _ => rfl, Nat.le_refl _, rfl⟩

instance : Std.Refl Stirs := ⟨Stirs.refl⟩

instance : Trans Stirs Stirs Stirs := ⟨Stirs.trans⟩

theorem Stirs.geometry (stirs : s.Stirs s') : s'.geometry = s.geometry := congrArg (·.geometry) stirs.shell

theorem Stirs.isSite {i : SiteId} (stirs : s.Stirs s') (known : s.IsSite i) : s'.IsSite i :=
  Nat.lt_of_lt_of_le known stirs.sites

/-! Plain changes of the state. -/

theorem stirsFoldl {xs : List α} {f : State → α → State} (round : ∀ (s : State) x, s.Stirs (f s x)) :
    s.Stirs (xs.foldl f s) := by
  induction xs generalizing s with
  | nil => exact .refl s
  | cons x rest ih => exact (round s x).trans ih

theorem stirsReads {reads : ReadTable} (same : reads.paths? = s.reads.paths?) : s.Stirs { s with reads } :=
  ⟨rfl, rfl, fun _ => rfl, Nat.le_refl _, same⟩

theorem stirsEmitter {emitter : Emitter} : s.Stirs { s with emitter } := ⟨rfl, rfl, fun _ => rfl, Nat.le_refl _, rfl⟩

theorem stirsCount (f : Statistics → Statistics) : s.Stirs (s.count f) := ⟨rfl, rfl, fun _ => rfl, Nat.le_refl _, rfl⟩

theorem stirsModifyResources (f : ResourceTable → ResourceTable) : s.Stirs (s.modifyResources f) :=
  ⟨rfl, rfl, fun _ => rfl, Nat.le_refl _, rfl⟩

theorem stirsSetSite (i : SiteId) (site : Site) : s.Stirs (s.setSite i site) :=
  ⟨rfl, rfl, fun _ => rfl, Nat.le_of_eq (sizeSetSite ..).symm, rfl⟩

theorem stirsNewSite (site : Site) : s.Stirs (s.newSite site).2 :=
  ⟨rfl, rfl, fun _ => rfl, by simp [newSite], rfl⟩

theorem stirsModifyValue (v : ValueId) {f : Value → Value} (keeps : ∀ d, (f d).next = d.next) :
    s.Stirs (s.modifyValue v f) := by
  refine ⟨rfl, sizeModifyValue .., fun w => ?_, Nat.le_refl _, rfl⟩
  rw [valueModify]
  split
  · rename_i here
    rw [keeps, here.1]
  · rfl

theorem stirsFreeze (i : SiteId) : s.Stirs (s.freezeSite i) := by
  unfold freezeSite
  split
  · exact stirsModifyResources _
  · split
    · exact stirsModifyResources _
    · exact stirsModifyResources _
  · exact .refl s

theorem stirsThaw (i : SiteId) : s.Stirs (s.thawSite i) := by
  unfold thawSite
  split
  · exact stirsModifyResources _
  · split
    · exact stirsModifyResources _
    · exact stirsModifyResources _
  · exact .refl s

theorem stirsThawAll (sites : List SiteId) : s.Stirs (s.thawSites sites) := by
  unfold thawSites
  induction sites with
  | nil => exact .refl s
  | cons i rest ih => exact ih.trans (stirsThaw i)

theorem stirsDisown (id : ResourceId) (i : SiteId) : s.Stirs (s.disown id i) := by
  unfold disown
  dsimp only
  split
  · exact stirsModifyResources _
  · exact .refl s

theorem stirsRelease (i : SiteId) : s.Stirs (s.release i) := by
  unfold release
  split
  · exact stirsDisown _ i
  · dsimp only
    split
    · exact (stirsDisown _ i).trans ((stirsModifyResources _).trans (stirsSetSite ..))
    · exact (stirsModifyResources _).trans (stirsSetSite ..)
  · exact .refl s

theorem stirsDetach (o : Owner) : s.Stirs (s.detach o) :=
  (stirsRelease o.site).trans (stirsModifyValue _ fun _ => rfl)

theorem stirsRemove (v : ValueId) (i : SiteId) : s.Stirs (s.removeSite v i) := by
  unfold removeSite
  split
  · exact stirsDetach _
  · exact .refl s

theorem stirsClear (v : ValueId) : s.Stirs (s.clearSites v) := stirsFoldl fun _ => stirsDetach

theorem stirsClean (v : ValueId) (popIndex : Nat) : s.Stirs (s.cleanValue v popIndex) :=
  stirsFoldl fun _ => stirsDetach

theorem stirsPending (r : Option ReadId) : s.Stirs (s.isPending r).2 := by
  cases r with
  | none => exact .refl s
  | some r => exact stirsReads (ReadTable.pathsValid ..)

theorem stirsFirstPending (vs : List ValueId) : s.Stirs (s.firstPending vs).2 := by
  induction vs generalizing s with
  | nil => exact .refl s
  | cons v rest ih =>
    unfold firstPending
    dsimp only
    split
    · exact stirsPending _
    · exact (stirsPending _).trans ih

theorem stirsLiveRead (v : ValueId) : s.Stirs (s.liveRead? v).2 := stirsFirstPending _

theorem stirsIsLive (v : ValueId) : s.Stirs (s.isLive v).2 := stirsLiveRead v

theorem stirsSweep (v : ValueId) :
    s.Stirs (if (s.isLive v).1 then (s.isLive v).2 else (s.isLive v).2.clearSites v) := by
  split
  · exact stirsIsLive v
  · exact (stirsIsLive v).trans (stirsClear v)

theorem stirsNarrow (r : ReadId) (mask : SiteMask) : s.Stirs (s.narrow r mask).2.2 :=
  stirsReads (ReadTable.pathsNarrow ..)

theorem stirsSuccessorMask (r : ReadId) (mask : SiteMask) : s.Stirs (s.successorMask? r mask).2 := by
  unfold successorMask?
  split
  · exact .refl s
  · dsimp only
    split
    · exact stirsLiveRead _
    · exact (stirsLiveRead _).trans (stirsNarrow ..)

theorem stirsChooseSource (r : ReadId) (q : SourceQuery) : s.Stirs (s.chooseSource r q).2 := by
  unfold chooseSource
  dsimp only
  split
  · exact stirsNarrow ..
  · exact .refl s

theorem stirsVacateResources (fuel : Nat) : s.Stirs (State.vacateResources fuel s) := by
  induction fuel generalizing s with
  | zero => exact .refl s
  | succ fuel ih =>
    unfold State.vacateResources
    split
    · exact .refl s
    · rename_i id o _
      exact ((stirsClear o.value).trans (stirsModifyResources _)).trans ih

theorem stirsVacateFrame (e : EventId) : s.Stirs (s.vacateFrame e) :=
  (stirsFoldl fun _ => stirsClear).trans (stirsVacateResources _)

end State

abbrev Build.Stirring (act : Build α) : Prop := Within Stirs act

/-! Emission. -/

theorem Build.Within.emit {R : State → State → Prop} [Trans R R R] {q : Request}
    (free : ∀ (s : State) (emitter : Emitter), R s { s with emitter })
    (borrows : X64.Emit.Within R (X64.emit temporaries q)) : Within R (emit q) := by
  constructor
  intro s
  cases recording : s.emitter with
  | recording r =>
    simp only [after, Lowering.emit, Emitter.emit, recording]
    rcases r.emit q with ⟨_ | _, _⟩ <;> exact free ..
  | machine a =>
    simp only [after, Lowering.emit, Emitter.emit, recording]
    have started : R s { s with emitter := .recording {} } := free ..
    cases assembled : X64.emit temporaries q ⟨a, { s with emitter := .recording {} }⟩ with
    | ok _ m => exact Trans.trans (Trans.trans started (borrows.holds assembled)) (free ..)
    | error _ m => exact Trans.trans (Trans.trans started (borrows.fails assembled)) (free ..)

theorem acquireTemporaryWithin {R : State → State → Prop} [Std.Refl R] [Trans R R R] (mask : RegisterSet)
    (asks : ∀ (s : State) v, R s (s.isLive v).2) (counts : ∀ (s : State) f, R s (s.count f))
    (removes : ∀ (s : State) v i, R s (s.removeSite v i)) (s : State) :
    match acquireTemporary mask s with
    | .ok r t => ∃ u, R s u ∧ t = u.modifyResources (·.refer (.register r))
    | .error _ t => R s t := by
  have taken : ∀ (u : State) (o : Owner), R u ((u.count (·.countSteal)).removeSite o.value o.site) :=
    fun u o => Trans.trans (counts u _) (removes _ o.value o.site)
  generalize ran : acquireTemporary mask s = result
  unfold acquireTemporary at ran
  rw [getBind] at ran
  generalize s.chooseRegister none mask none = target at ran
  obtain ⟨resource, cost⟩ := target
  cases possible : (Target.mk resource cost).isImpossible with
  | true =>
    simp only [possible] at ran
    exact ran ▸ Std.Refl.refl s
  | false =>
    cases resource with
    | slot n =>
      simp only [possible] at ran
      exact ran ▸ Std.Refl.refl s
    | register r =>
      simp only [possible] at ran
      cases owner : (s.resources.get (.register r)).owner with
      | none =>
        simp only [owner] at ran
        exact ran ▸ ⟨s, Std.Refl.refl s, rfl⟩
      | some o =>
        simp only [owner] at ran
        by_cases last : s.isLastSite o.value o.site = true
        · simp only [last, if_true, live, modifyGetBind] at ran
          by_cases alive : (s.isLive o.value).1 = true
          · simp only [alive, if_true] at ran
            exact ran ▸ asks s o.value
          · simp only [alive, Bool.false_eq_true, if_false] at ran
            exact ran ▸ ⟨_, Trans.trans (asks s o.value) (taken _ o), rfl⟩
        · simp only [last, Bool.false_eq_true, if_false] at ran
          exact ran ▸ ⟨_, taken s o, rfl⟩

theorem temporariesSettle {R : State → State → Prop} [Std.Refl R] [Trans R R R]
    (asks : ∀ (s : State) v, R s (s.isLive v).2) (counts : ∀ (s : State) f, R s (s.count f))
    (removes : ∀ (s : State) v i, R s (s.removeSite v i))
    (lends : ∀ (s : State) r, R s ((s.modifyResources (·.refer (.register r))).releaseTemporary r)) :
    X64.ScratchSource.Within R temporaries := by
  constructor
  · intro mask s r t lent
    have cases := acquireTemporaryWithin mask asks counts removes s
    rw [show acquireTemporary mask s = .ok r t from lent] at cases
    obtain ⟨u, began, rfl⟩ := cases
    exact Trans.trans began (lends u r)
  · intro mask s e t refused
    have cases := acquireTemporaryWithin mask asks counts removes s
    rwa [show acquireTemporary mask s = .error e t from refused] at cases

theorem temporariesWithin {R : State → State → Prop} [Std.Refl R] [Trans R R R]
    (asks : ∀ (s : State) v, R s (s.isLive v).2) (counts : ∀ (s : State) f, R s (s.count f))
    (removes : ∀ (s : State) v i, R s (s.removeSite v i))
    (refers : ∀ (s : State) r, R s (s.modifyResources (·.refer (.register r))))
    (unrefers : ∀ (s : State) r, R s (s.modifyResources (·.unrefer (.register r)))) :
    X64.ScratchSource.Within R temporaries :=
  temporariesSettle asks counts removes fun s r => Trans.trans (refers s r) (unrefers _ r)

/-! Placing and moving values. The lemmas follow the definitions one by one. -/

theorem stirringLending : X64.ScratchSource.Within Stirs temporaries :=
  temporariesWithin (fun _ v => stirsIsLive v) (fun _ f => stirsCount f) (fun _ v i => stirsRemove v i)
    (fun _ _ => stirsModifyResources _) fun _ _ => stirsModifyResources _

theorem stirringEmit (q : Request) : (emit q).Stirring :=
  .emit (fun _ _ => stirsEmitter) (X64.emitWithin stirringLending q)

theorem stirringLive (v : ValueId) : (live v).Stirring := .modifyGet fun _ => stirsIsLive v

theorem stirringWhileFrozen {act : Build α} (i : SiteId) (stirs : act.Stirring) : (whileFrozen i act).Stirring :=
  .bind (.modify fun _ => stirsFreeze i) fun _ => stirs.ensuring fun _ => stirsThaw i

theorem stirringOperandOf (i : SiteId) : (operandOf i).Stirring := by
  refine .bind .get fun s => ?_
  split
  · exact .pure
  · exact .throw

theorem stirringEmitBetween (op : Binary) (aSize : Nat) (a : SiteId) (bSize : Nat) (b : SiteId) :
    (emitBetween op aSize a bSize b).Stirring :=
  .bind (stirringOperandOf a) fun _ => .bind (stirringOperandOf b) fun _ => stirringEmit _

theorem stirringEmitMove (src dst : SiteId) : (emitMove src dst).Stirring :=
  .bind (.modify fun _ => stirsCount _) fun _ =>
    stirringWhileFrozen src (stirringWhileFrozen dst (stirringEmitBetween ..))

theorem stirringChooseTarget (r : ReadId) (strict : Bool) (reserve : Nat) (moved : Option ValueId) :
    (chooseTarget r strict reserve moved).Stirring := by
  unfold chooseTarget
  refine .bind .get fun s => .bind (.modifyGet fun _ => stirsNarrow ..) fun mask => ?_
  refine .bind (.modifyGet fun _ => stirsSuccessorMask ..) fun narrower => .bind .get fun s => ?_
  refine .ite .pure (.ite .pure (.ite (.ite .throw .pure) (.ite .throw .pure)))

theorem stirringChooseSite (r : ReadId) (strict : Bool) (reserve : Nat) (moved : Option ValueId) :
    (chooseSite r strict reserve moved).Stirring := by
  unfold chooseSite
  refine .bind (stirringChooseTarget ..) fun t => ?_
  split
  · exact .bind (.modify fun _ => stirsCount _) fun _ => .modifyGet fun _ => stirsNewSite _
  · exact .modifyGet fun _ => stirsNewSite _

theorem stirringProbe (v : ValueId) (mask : SiteMask) : (probe v mask).Stirring :=
  .modifyGet fun _ => stirsReads (ReadTable.pathsPush _ _ rfl)

theorem stirringSettleRegister (v : ValueId) (mask : RegisterSet) (number : Option Register) :
    (settleRegister v mask number).Stirring := by
  unfold settleRegister
  split
  · exact .pure
  · refine .bind .get fun s => ?_
    dsimp only
    split
    · exact .pure
    · exact .throw

section Evict

variable {evict : Evict} (stirs : ∀ id thief, (evict id thief).Stirring)

include stirs

theorem stirringAcquireResource (id : ResourceId) (o : Owner) : (acquireResource evict id o).Stirring := by
  unfold acquireResource
  refine .bind .get fun s => .ite .pure (.ite ?_ (.modify fun _ => stirsModifyResources _))
  exact .bind (stirs ..) fun _ => .modify fun _ => stirsModifyResources _

theorem stirringAcquireWith (v : ValueId) (i : SiteId) : (acquireWith evict v i).Stirring := by
  unfold acquireWith
  refine .bind .get fun s => ?_
  split
  · exact .pure
  · exact .pure
  · refine .bind (stirringSettleRegister ..) fun n => .bind (stirringAcquireResource stirs ..) fun _ => ?_
    exact .modify fun _ => stirsSetSite ..
  · refine .bind (.modify fun _ => stirsModifyResources _) fun _ => .bind .get fun s => ?_
    split
    · exact .bind (stirringAcquireResource stirs ..) fun _ => .modify fun _ => stirsSetSite ..
    · exact .modify fun _ => stirsSetSite ..

theorem stirringPlaceWith (v : ValueId) (i : SiteId) : (placeWith evict v i).Stirring :=
  .bind .get fun _ => .ite .pure
    (.bind (stirringAcquireWith stirs v i) fun _ => .modify fun _ => stirsModifyValue _ fun _ => rfl)

theorem stirringStageWith (v : ValueId) (src : SiteId) (mask : OperandMask) :
    (stageWith evict v src mask).Stirring :=
  .bind (stirringProbe ..) fun _ => .bind (stirringChooseSite ..) fun _ =>
    .bind (stirringPlaceWith stirs ..) fun _ => .bind (stirringEmitMove ..) fun _ => .pure

theorem stirringRelocateWith (r : ReadId) (strict : Bool) (reserve : Nat) :
    (relocateWith evict r strict reserve).Stirring := by
  unfold relocateWith
  refine .bind .get fun s => .bind (stirringChooseSite ..) fun dst => .bind .get fun s => ?_
  dsimp only
  split
  · exact .throw
  · refine .ite .pure (.bind (stirringWhileFrozen _ (stirringPlaceWith stirs ..)) fun _ => ?_)
    have finish : ∀ src : SiteId, (do emitMove src dst; return dst : Build SiteId).Stirring :=
      fun src => .bind (stirringEmitMove src dst) fun _ => .pure
    refine .bind .get fun s => .ite (finish _) (.bind ?_ finish)
    exact stirringWhileFrozen _ (stirringWhileFrozen dst (stirringStageWith stirs ..))

end Evict

theorem stirringEvictWithin (fuel : Nat) (id : ResourceId) (thief : Option ValueId) :
    (evictWithin fuel id thief).Stirring := by
  induction fuel generalizing id thief with
  | zero => exact .throw
  | succ fuel ih =>
    unfold evictWithin
    refine .bind .get fun s => ?_
    split
    · exact .pure
    · rename_i o _
      have finish : (modify (·.removeSite o.value o.site) : Build Unit).Stirring :=
        .modify fun _ => stirsRemove ..
      refine .bind (.modify fun _ => stirsCount _) fun _ => .ite ?_ finish
      refine .bind (.modifyGet fun _ => stirsLiveRead _) fun read => ?_
      split
      · exact finish
      · refine .bind (stirringWhileFrozen _ (stirringRelocateWith ih ..)) fun moved => ?_
        refine .bind (.modify fun s => stirsModifyValue _ fun d => ?_) fun _ => finish
        split <;> rfl

theorem stirringEvict (id : ResourceId) (thief : Option ValueId) : (evict id thief).Stirring :=
  .bind .get fun _ => stirringEvictWithin ..

theorem stirringAcquire (v : ValueId) (i : SiteId) : (acquire v i).Stirring := stirringAcquireWith stirringEvict v i

theorem stirringPlace (v : ValueId) (i : SiteId) : (place v i).Stirring := stirringPlaceWith stirringEvict v i

theorem stirringPlaceAt (v : ValueId) (site : Site) : (placeAt v site).Stirring :=
  .bind (.modifyGet fun _ => stirsNewSite _) fun i => stirringPlace v i

theorem stirringRestoreSites (n : Snapshot) : (restoreSites n).Stirring :=
  .bind (stirringLive _) fun _ => .bind .get fun _ => .ite (.forM fun _ => stirringPlaceAt ..) .pure

theorem stirringRelocate (r : ReadId) (strict : Bool) (reserve : Nat) : (relocate r strict reserve).Stirring :=
  stirringRelocateWith stirringEvict r strict reserve

theorem stirringSettle (r : ReadId) (strict : Bool) (reserve : Nat) : (settle r strict reserve).Stirring := by
  refine .bind (.modifyGet fun _ => stirsChooseSource ..) fun found => ?_
  split
  · exact .pure
  · exact stirringRelocate ..

theorem stirringChooseSources (reads : List ReadId) : (chooseSources reads).Stirring := by
  induction reads with
  | nil => exact .pure
  | cons r rest ih =>
    unfold chooseSources readSource?
    refine .bind (.bind .get fun s => .ite (stirringSettle ..).map .pure) fun source => ?_
    refine .bind (.modify fun _ => stirsModifyValue _ fun _ => rfl) fun _ => ?_
    split
    · exact stirringWhileFrozen _ ih
    · exact ih

end Lowering
