import Lowering.Proofs.Loosening
import Lowering.Proofs.Merging
import Lowering.Proofs.Overwriting
import Lowering.Proofs.Drafting
import Lowering.Proofs.Scheduling
/-!
What is frozen and on loan while an event is compiled.

Some work leaves sites frozen and answers with them: the operands and the result of an operation, the registers
that it destroys, the sites that the successors of an event rely on. Whoever asked for it thaws them. So compiling
an event leaves nothing frozen, and neither does compiling them one after the other.
-/
namespace Lowering

open State Build

variable {α β γ : Type} {word : SiteId} {s s' t u : State} {held more before : List SiteId} {i j : SiteId} {v w : ValueId} {e : EventId}
  {q : Request} {x : Build α} {f : α → Build β} {sites : α → List SiteId} {later : β → List SiteId}

abbrev State.Nests (word : SiteId) (held : List SiteId) (s s' : State) : Prop := s.Loosens (fun _ => True) word True held s'

abbrev Build.Nests (word : SiteId) (act : Build α) : Prop := act.Loosens (fun _ => True) word True

abbrev Build.Inhabits (word i : SiteId) (act : Build α) : Prop := act.Fills (fun _ => True) word i

/-- Work that finds the sites `before` frozen, and leaves those frozen that go with its answer, if it ends well. -/
structure Build.Trades (word : SiteId) (before : List SiteId) (after : α → List SiteId) (act : Build α) : Prop where
  holds : ∀ {s t : State} {a : α} {s' : State}, s.Nests word before t → act t = .ok a s' → s.Nests word (after a) s'

namespace Build

theorem Nests.trades (nests : x.Nests word) : x.Trades word before fun _ => before :=
  ⟨fun nested ok => nested.after (nests.holds ok)⟩

theorem Trades.nests (trades : x.Trades word [] fun _ => []) : x.Nests word := ⟨fun ok => trades.holds (.refl _) ok⟩

namespace Trades

theorem pure {a : α} (same : before.Perm (sites a)) : (pure a : Build α).Trades word before sites := by
  constructor
  intro s t b s' nested ok
  obtain ⟨rfl, rfl⟩ := pureOk.mp ok
  exact nested.perm same

theorem throw {err : Error} : (throw err : Build α).Trades word before sites := ⟨fun _ ok => (throwOk.mp ok).elim⟩

theorem seq (first : x.Trades word before sites) (rest : ∀ a, (f a).Trades word (sites a) later) :
    (x >>= f).Trades word before later := by
  constructor
  intro s t b s' nested ok
  obtain ⟨a, u, began, ended⟩ := bindOk.mp ok
  exact (rest a).holds (first.holds nested began) ended

theorem bind (first : x.Nests word) (rest : ∀ a, (f a).Trades word before later) : (x >>= f).Trades word before later :=
  seq (Nests.trades first) rest

theorem perm {other : α → List SiteId} (trades : x.Trades word before sites) (same : ∀ a, (sites a).Perm (other a)) :
    x.Trades word before other := ⟨fun nested ok => (trades.holds nested ok).perm (same _)⟩

theorem ite {c : Prop} [Decidable c] {y : Build α} (yes : x.Trades word before sites) (no : y.Trades word before sites) :
    (if c then x else y).Trades word before sites := by
  split
  · exact yes
  · exact no

theorem freeze (i : SiteId) : (modify (·.freezeSite i) : Build PUnit).Trades word before fun _ => i :: before := by
  constructor
  intro s t _ s' nested ok
  rw [modifyOk.mp ok]
  exact (nested.trans (loosensFreeze t i)).perm (List.perm_append_singleton i before)

theorem creating {y : Site} {g : SiteId → Build α} {f : SiteId → α → Build β} (bare : y.referred = [])
    (first : ∀ i, (g i).Inhabits word i) (rest : ∀ i a, (f i a).Trades word before later) :
    (do let i ← modifyGet fun s => s.newSite y; let a ← g i; f i a : Build β).Trades word before later := by
  constructor
  intro s t b s' nested ok
  rw [modifyGetBind] at ok
  obtain ⟨a, u, began, ended⟩ := bindOk.mp ok
  have made := (nested.after (loosensNewSite y)).after ((first _).holds (by rw [siteNewSelf]; exact bare) began)
  exact (rest _ a).holds made ended

theorem thaw (i : SiteId) : (modify (·.thawSite i) : Build PUnit).Trades word (i :: before) fun _ => before := by
  constructor
  intro s t _ s' nested ok
  rw [modifyOk.mp ok]
  exact nested.thaw

theorem thawAll (held : List SiteId) : (modify (·.thawSites held) : Build PUnit).Trades word (held ++ before) fun _ => before := by
  constructor
  intro s t _ s' nested ok
  rw [modifyOk.mp ok]
  exact nested.thawAll

theorem frozen (trades : x.Trades word (i :: before) fun a => i :: sites a) : (whileFrozen i x).Trades word before sites := by
  constructor
  intro s t a s' nested ok
  obtain ⟨u, ran, rfl⟩ := whileFrozenOk.mp ok
  have froze := (nested.trans (loosensFreeze t i)).perm (List.perm_append_singleton i before)
  exact (trades.holds froze ran).thaw

theorem releasing {x : Build (List SiteId)} {f : List SiteId → Build β} {g : State → State}
    (first : x.Trades word before fun c => c ++ before) (rest : ∀ c, (f c).Trades word (c ++ before) fun b => c ++ later b)
    (quiet : ∀ s : State, s.Nests word [] (g s)) :
    (x >>= fun c => Build.ensuring (f c) fun s => (g s).thawSites c).Trades word before later := by
  constructor
  intro s t b s' nested ok
  obtain ⟨c, u, began, ended⟩ := bindOk.mp ok
  obtain ⟨u', ran, rfl⟩ := ensuringOk.mp ended
  exact (((rest c).holds (first.holds nested began) ran).after (quiet u')).thawAll

theorem foldlM {g : β → α → Build β} {xs : List α} (round : ∀ b a, (g b a).Trades word (later b) later) (b : β) :
    (xs.foldlM g b).Trades word (later b) later := by
  induction xs generalizing b with
  | nil => exact pure (.refl _)
  | cons a rest ih =>
    rw [List.foldlM_cons]
    exact seq (round b a) ih

theorem mapM {g : α → Build SiteId} {xs : List α} (round : ∀ a before, (g a).Trades word before fun i => i :: before) :
    (xs.mapM g).Trades word before fun c => c ++ before := by
  induction xs generalizing before with
  | nil => exact pure (.refl _)
  | cons a rest ih =>
    rw [List.mapM_cons]
    exact seq (round a before) fun i => seq ih fun c => pure List.perm_middle

end Trades

end Build

structure Build.Handles (act : Build α) : Prop where
  holds : ∀ {s a s'}, act s = .ok a s' → ∃ word, s.Nests word [] s'

namespace Build

theorem Nests.handles (nests : x.Nests word) : x.Handles := ⟨fun ok => ⟨word, nests.holds ok⟩⟩

namespace Handles

theorem bind (first : ∀ word, x.Nests word) (rest : ∀ a, (f a).Handles) : (x >>= f).Handles := by
  constructor
  intro s b s' ok
  obtain ⟨a, t, began, ended⟩ := bindOk.mp ok
  obtain ⟨word, nested⟩ := (rest a).holds ended
  exact ⟨word, ((first word).holds began).trans nested⟩

theorem after (first : x.Handles) (rest : ∀ a word, (f a).Nests word) : (x >>= f).Handles := by
  constructor
  intro s b s' ok
  obtain ⟨a, t, began, ended⟩ := bindOk.mp ok
  obtain ⟨word, nested⟩ := first.holds began
  exact ⟨word, nested.trans ((rest a word).holds ended)⟩

/- What the first part leaves frozen is thawed by the second one, which may acquire the word that goes with its answer. -/
theorem seq {word : α → SiteId} (first : ∀ word, x.Trades word [] sites)
    (rest : ∀ a, (f a).Trades (word a) (sites a) fun _ => []) : (x >>= f).Handles := by
  constructor
  intro s b s' ok
  obtain ⟨a, t, began, ended⟩ := bindOk.mp ok
  exact ⟨word a, (rest a).holds ((first _).holds (.refl s) began) ended⟩

end Handles

end Build

theorem tradesHold (i : SiteId) : (hold i).Trades word before fun i => i :: before := .seq (.freeze i) fun _ => .pure (.refl _)

/-! Kinds of events. -/

def EventKind.computes : EventKind → Bool
  | .move _ | .combine _ | .convert _ => true
  | _ => false

def State.SameKinds (s s' : State) : Prop := ∀ e, (s'.event e).kind = (s.event e).kind

namespace State.SameKinds

instance : Std.Refl SameKinds := ⟨fun _ _ => rfl⟩

instance : Trans SameKinds SameKinds SameKinds := ⟨fun first second e => (second e).trans (first e)⟩

theorem ofFixed (fixed : s.Fixed s') : s.SameKinds s' := by
  have kinds := congrArg (fun t => t.events.map Event.kind) fixed.same
  simp only [fixture, Array.map_map] at kinds
  exact fun e => getDMap (show s'.events.map Event.kind = s.events.map Event.kind from kinds) e.index default

end State.SameKinds

/-! Following links. -/

theorem nestsSweep (v : ValueId) : 
    s.Nests word [] (if (s.isLive v).1 then (s.isLive v).2 else (s.isLive v).2.clearSites v) := by
  split
  · exact loosensIsLive v
  · exact (loosensIsLive v).trans (loosensClear v)

theorem nestsTakePaths (f : ForkId) : s.Nests word [] (s.takePaths f) := by
  unfold takePaths
  refine loosensFoldl fun s p => ?_
  dsimp only
  have switched : s.Nests word [] ({ s with reads := (s.reads.takePath p.2).2 }.modifyValue p.1 fun d =>
      { d with reads := (s.reads.takePath p.2).1 }) := loosensReads.trans (loosensModifyValue ..)
  exact switched.trans (nestsSweep p.1)

theorem nestsAimStub (stubs : List (Option (ValueId × ReadId))) (slot : ValueId × Nat) :
    s.Nests word [] (State.aimStub stubs s slot) := by
  unfold State.aimStub
  split
  · exact .refl s
  · split
    · exact .refl s
    · dsimp only
      split
      · exact (loosensLiveRead _).trans loosensReads
      · exact loosensLiveRead _

theorem nestsAimStubs (l : LinkId) : s.Nests word [] (s.aimStubs l) := by
  unfold State.aimStubs
  refine (loosensFoldl fun s => nestsAimStub _).trans (loosensFoldl fun s p => ?_)
  dsimp only
  split
  · exact .refl s
  · exact loosensReads

theorem nestsFollowLink (l : LinkId) : (followLink l).Nests word := by
  unfold followLink
  refine .bind (.modify fun s => ?_) fun _ => .bind .get fun s => .forM fun p => ?_
  · split
    · exact nestsTakePaths _
    · exact .refl s
  · exact .bind .get fun s => .ite (loosensConsumeRead (fun _ _ => trivial) ..) .pure

/-! Entering an event. -/

theorem inhabitsPlace (v : ValueId) (i : SiteId) : (place v i).Inhabits word i := fillsPlace (fun _ _ => trivial) v i

theorem nestsPlace (v : ValueId) (i : SiteId) : (place v i).Nests i :=
  ⟨fun ok => loosensPlace (fun _ _ => trivial) (.inr rfl) ok⟩

theorem nestsPlaceAt (v : ValueId) {site : Site} (bare : site.referred = []) : (placeAt v site).Nests word :=
  loosensCreating bare fun i => inhabitsPlace v i

theorem referredCopy (x : Site) : x.copy.referred = [] := by
  cases x with
  | register mask number => cases number <;> rfl
  | _ => rfl

theorem nestsVacateResources (fuel : Nat) : s.Nests word [] (State.vacateResources fuel s) := by
  induction fuel generalizing s with
  | zero => exact .refl s
  | succ fuel ih =>
    unfold State.vacateResources
    split
    · exact .refl s
    · rename_i id o _
      exact ((loosensClear o.value).trans (loosensSetOwner ..)).trans ih

theorem nestsVacateFrame (e : EventId) : s.Nests word [] (s.vacateFrame e) :=
  (loosensFoldl fun _ => loosensClear).trans (nestsVacateResources _)

theorem nestsRestoreRings (snapshots : List Snapshot) : s.Nests word [] (s.restoreRings snapshots) :=
  (loosensFoldl fun _ (n : Snapshot) => loosensLeave n.value).trans (loosensFoldl fun _ _ => loosensModifyValue ..)

theorem nestsRestoreSnapshots (e : EventId) (snapshots : List Snapshot) : (restoreSnapshots e snapshots).Nests word := by
  refine .bind (.modify fun s => (nestsRestoreRings snapshots).trans (nestsVacateFrame e)) fun _ => .forM fun n => ?_
  refine .bind (loosensLive _) fun alive => .bind .get fun s => ?_
  exact .ite (.forM fun _ => nestsPlaceAt _ (referredCopy _)) .pure

theorem nestsAdoptTable (e : EventId) (j : JunctionId) : (adoptTable e j).Nests word := by
  refine .bind (.modify fun _ => nestsVacateFrame e) fun _ => .bind .get fun s => .forM fun p => .bind .get fun s => ?_
  split
  · exact .pure
  · exact .bind (loosensLive p.1) fun alive => .ite (nestsPlaceAt _ (referredCopy _)) .pure

theorem nestsIsolate (v : ValueId) : s.Nests word [] (s.isolate v) := by
  unfold isolate
  split
  · exact .refl s
  · dsimp only
    have left : s.Nests word [] _ := (loosensLeave v).trans (nestsSweep (s.leaveRing v).1)
    exact left.trans (nestsSweep v)

theorem nestsEnter (e : EventId) : (enter e).Nests word := by
  have isolated : (modify (·.isolateFrame) : Build Unit).Nests word := .modify fun _ => loosensFoldl fun _ => nestsIsolate
  unfold enter
  refine .bind .get fun s => ?_
  split
  · exact .pure
  · refine .bind (nestsFollowLink _) fun _ => .bind .get fun s => .ite (.ite (nestsRestoreSnapshots ..) .pure) ?_
    refine .bind (.modify fun _ => loosensFoldl fun _ => nestsAimStubs) fun _ => ?_
    split
    · exact .bind (nestsAdoptTable ..) fun _ => isolated
    · exact isolated

/-! Operands and results. -/

theorem nestsSourceOf (v : ValueId) : (sourceOf v).Nests word := by
  refine .bind .get fun s => ?_
  split
  · exact .pure
  · exact .throw

theorem nestsSourceOperand (v : ValueId) : (sourceOperand v).Nests word := .bind (nestsSourceOf v) loosensOperandOf

theorem nestsSourceMask (v : ValueId) : (sourceMask v).Nests word := .bind (nestsSourceOf v) fun _ => .bind .get fun _ => .pure

theorem nestsRegisterOf (i : SiteId) (fault : InvariantFault) : (registerOf i fault).Nests word := by
  refine .bind .get fun s => ?_
  split
  · exact .pure
  · exact .throw

theorem nestsFollowingRead (v : ValueId) : (followingRead? v).Nests word := by
  have aliases : ∀ vs : List ValueId, (modifyGet (·.firstPending vs) : Build _).Nests word :=
    fun vs => .modifyGet fun _ => loosensFirstPending vs
  unfold followingRead?
  refine .bind .get fun s => ?_
  dsimp only
  split
  · exact aliases _
  · split
    · exact .throw
    · exact .bind (.modifyGet fun _ => loosensPending _) fun _ => .ite .pure (aliases _)

theorem nestsRelocate (r : ReadId) (strict : Bool) (reserve : Nat) : (relocate r strict reserve).Nests word :=
  loosensRelocate (fun _ _ => trivial) r strict reserve

theorem tradesResultSite (v result : ValueId) (mask : SiteMask) :
    (resultSite v result mask).Trades word before fun i => i :: before := by
  have yield : ∀ (w : ValueId) (i : SiteId), (do
      modify fun s => (s.removeSite w i).freezeSite i
      return i : Build SiteId).Trades word before fun i => i :: before := by
    intro w i
    constructor
    intro s t k s' nested ok
    obtain ⟨⟨⟩, u, froze, same⟩ := bindOk.mp ok
    obtain ⟨rfl, rfl⟩ := pureOk.mp same
    rw [modifyOk.mp froze]
    have removed := nested.after (loosensRemove w i)
    exact (removed.trans (loosensFreeze _ i)).perm (List.perm_append_singleton i before)
  unfold resultSite
  refine .bind (nestsFollowingRead v) fun next => .bind (nestsSourceOf v) fun source => .bind .get fun s => .ite ?_ ?_
  · split
    · exact .ite (.bind (.discard (.frozen (nestsRelocate ..))) fun _ => yield v source) (yield v source)
    · exact yield v source
  · refine .bind (.frozen (.bind (loosensProbe ..) fun _ => loosensChoosing fun i => ?_)) (yield result)
    exact .bind (inhabitsPlace ..) fun _ => .pure

theorem tradesDeliver (w : ValueId) (i : SiteId) : (deliver w i).Trades i (i :: before) fun _ => before :=
  .seq (.thaw i) fun _ => .bind (loosensLive w) fun _ => Nests.trades (.ite (nestsPlace ..) .pure)

theorem nestsUnreachable (e : EventId) : (unreachable e).Nests word := by
  refine .bind .get fun s => ?_
  split
  · exact .pure
  · exact .throw

theorem nestsEmit (q : Request) : (emit q).Nests word := loosensEmit trivial

theorem nestsConsumeRead (e : Option EventId) (v : ValueId) : (consumeRead e v).Nests word :=
  loosensConsumeRead (fun _ _ => trivial) e v

theorem nestsConsumeReads (e : EventId) : (consumeReads e).Nests word := loosensConsumeReads (fun _ _ => trivial) e

namespace Compile

theorem tradesClaimRegisters (mask : RegisterSet) : (claimRegisters mask).Trades word before fun c => c ++ before := by
  refine .bind .get fun s => .mapM fun r before => .bind (loosensEvict (fun _ _ => trivial) ..) fun _ => ?_
  exact .bind (.modifyGet fun _ => loosensNewSite _) tradesHold

theorem handlesCombine (e : EventId) (c : CombineEvent) : (combine e c).Handles := by
  refine .bind (fun _ => nestsSourceOf _) fun first => .seq (fun word => .frozen ?_) fun i =>
    .bind (nestsConsumeReads e) fun _ => tradesDeliver ..
  refine .bind (nestsSourceOf _) fun second => .bind .get fun s => .releasing (g := id) (.frozen ?_) (fun claimed => ?_)
    fun s => .refl s
  · exact (tradesClaimRegisters _).perm fun c => List.perm_middle
  · refine .bind (nestsSourceMask _) fun a => .bind (nestsSourceMask _) fun b => ?_
    refine .seq (tradesResultSite ..) fun i => .bind (nestsSourceOperand _) fun a => ?_
    refine .bind (nestsSourceOperand _) fun b => .bind (loosensOperandOf i) fun target => ?_
    exact .bind (nestsEmit _) fun _ => .pure (by simpa using (List.perm_append_singleton i (claimed ++ [first])).symm)

theorem handlesConvert (e : EventId) (c : ConvertEvent) : (convert e c).Handles := by
  refine .bind (fun _ => nestsSourceMask _) fun source => .bind (fun _ => .get) fun s =>
    .seq (fun word => tradesResultSite ..) fun i => .bind (nestsSourceOperand _) fun a => .bind (loosensOperandOf i) fun target =>
      .bind (nestsEmit _) fun _ => .bind (nestsConsumeReads e) fun _ => tradesDeliver ..

/-! Moves. -/

theorem nestsEmitBetween (op : Binary) (aSize : Nat) (a : SiteId) (bSize : Nat) (b : SiteId) :
    (emitBetween op aSize a bSize b).Nests word := loosensEmitBetween (fun _ _ => trivial) a b

theorem nestsCopyThroughRegister (c : Copy) (source target : SiteId) (onward store : Bool) :
    (copyThroughRegister c source target onward store).Nests target := by
  refine .bind (.modify fun _ => loosensRemove ..) fun _ => .bind .get fun s => loosensCreating rfl fun t => ?_
  refine .bind (.frozen (.bind (inhabitsPlace ..) fun _ => .frozen (nestsEmitBetween ..))) fun _ => .ite ?_ .pure
  refine .bind (nestsPlace ..) fun _ => .bind (.frozen (nestsEmitBetween ..)) fun _ => ?_
  exact .ite (.modify fun _ => loosensRemove ..) .pure

theorem nestsCopyTo (c : Copy) (source target : SiteId) (store : Bool) : (copyTo c source target store).Nests target := by
  refine .bind .get fun s => .ite ?_ .pure
  refine .bind (.frozen (nestsPlace ..)) fun _ => .frozen ?_
  exact .bind .get fun s => .ite (.frozen (nestsEmitBetween ..)) (nestsCopyThroughRegister ..)

theorem handlesCopy (c : Copy) : (copy c).Handles := by
  unfold copy
  refine .bind (fun _ => .modifyGet fun _ => loosensLiveRead _) fun read => ?_
  have go : ∀ target : SiteId, (do
      let source ← sourceOf c.src
      copyTo c source target read.isNone
      if read.isNone then modify (·.removeSite c.dst target) : Build Unit).Nests target := by
    intro target
    refine .bind (nestsSourceOf _) fun source => .bind (nestsCopyTo ..) fun _ => ?_
    exact .ite (.modify fun _ => loosensRemove ..) .pure
  refine .bind (fun _ => .get) fun s => ?_
  dsimp only
  split
  · exact (go _).handles
  · have nothing : (pure () : Build Unit).Nests ⟨0⟩ := .pure
    exact nothing.handles
  · exact .bind (fun _ => loosensChooseSite ..) fun i => (go i).handles

theorem nestsJoin (v copy : ValueId) : s.Nests word [] (s.joinRing v copy) :=
  (loosensModifyValue ..).trans (loosensModifyValue ..)

theorem nestsAliasMove (src dst : ValueId) : (aliasMove src dst).Nests word := by
  have finish : (do
      modify (·.joinRing src dst)
      let source ← sourceOf src
      modify fun s =>
        if (s.site source).isVolatile s.geometry then s.removeSite src source else s
      : Build Unit).Nests word := by
    refine .bind (.modify fun _ => nestsJoin ..) fun _ => .bind (nestsSourceOf _) fun source => .modify fun s => ?_
    split
    · exact loosensRemove ..
    · exact .refl s
  unfold aliasMove
  refine .bind (.modifyGet fun _ => loosensLiveRead _) fun read => ?_
  split
  · refine .bind (.modifyGet fun _ => loosensChooseSource ..) fun found => .bind .get fun s => ?_
    exact .ite (.bind (.discard (nestsRelocate ..)) fun _ => finish) finish
  · exact finish

theorem handlesMove (e : EventId) (m : MoveEvent) : (move e m).Handles := by
  have finish : ∀ word, (consumeReads e).Nests word := fun word => nestsConsumeReads e
  have copies : ∀ c : Copy, (do copy c; consumeReads e : Build Unit).Handles :=
    fun c => .after (handlesCopy c) fun _ => finish
  have aliases : (do
      if ← live m.dst then aliasMove m.src m.dst
      consumeReads e : Build Unit).Nests ⟨0⟩ :=
    .bind (loosensLive _) fun _ => .ite (.bind (nestsAliasMove ..) fun _ => finish _) (finish _)
  refine .bind (fun _ => nestsSourceMask _) fun source => .bind (fun _ => .get) fun s => ?_
  dsimp only
  split
  · split
    · exact copies _
    · exact aliases.handles
  · exact copies _

theorem nestsMemory (e : EventId) (m : MemoryEvent) : (memory e m).Nests word := by
  have finish : ∀ ref : MemoryRef, (placeMemory m ref).Nests word := fun ref =>
    loosensCreating rfl fun i => .adjust (inhabitsPlace ..)
  have consumed : ∀ ref : MemoryRef, (finishMemory e m ref).Nests word := by
    intro ref
    unfold finishMemory
    split
    · exact .bind (nestsConsumeRead ..) fun _ => finish ref
    · exact finish ref
  unfold memory
  refine .bind .get fun s => ?_
  dsimp only
  split
  · refine .bind (nestsSourceOf _) fun i => .bind (nestsRegisterOf ..).map fun index => ?_
    refine .bind (nestsSourceOf _) fun i => .bind (nestsRegisterOf ..) fun base => ?_
    refine .bind (nestsConsumeRead ..) fun _ => ?_
    split
    · exact .bind (nestsEmit _) fun _ => consumed _
    · exact consumed _
  · refine .bind .pure fun index => .bind (nestsSourceOf _) fun i => ?_
    refine .bind (nestsRegisterOf ..) fun base => .bind (nestsConsumeRead ..) fun _ => ?_
    split
    · exact .bind (nestsEmit _) fun _ => consumed _
    · exact consumed _

/-! Control flow. -/

theorem nestsLeave (e : EventId) : (leave e).Nests word :=
  .bind (nestsConsumeReads e) fun _ => .bind (nestsUnreachable e) fun _ => .ite (.bind .get fun _ => nestsEmit _) .pure

theorem nestsCompareAndBranch (b : BranchEvent) : (compareAndBranch b).Nests word := by
  refine .bind (nestsSourceOf _) fun first => .bind (nestsSourceOf _) fun second => .bind (nestsSourceOf _) fun address => ?_
  refine .frozen (.frozen (.frozen ?_))
  exact .bind (loosensOperandOf _) fun _ => .bind (loosensOperandOf _) fun _ => .bind (loosensOperandOf _) fun _ => nestsEmit _

theorem nestsBranch (e : EventId) (b : BranchEvent) : (branch e b).Nests word := by
  have finish : (consumeReads e).Nests word := nestsConsumeReads e
  unfold branch
  refine .bind (nestsUnreachable e) fun dead => .ite (.bind .get fun s => ?_) finish
  dsimp only
  split
  · exact .bind (nestsSourceOperand _) fun _ => .bind (nestsEmit _) fun _ => finish
  · exact finish
  · exact .bind (nestsCompareAndBranch b) fun _ => finish

theorem nestsJump (e : EventId) (j : JumpEvent) : (jump e j).Nests word := by
  have finish : (do
      consumeReads e
      if j.cleanLocals then
        modify fun s => (s.frames.values none s.locals).foldl (fun s v => s.cleanValue v 0) s
      : Build Unit).Nests word :=
    .bind (nestsConsumeReads e) fun _ => .ite (.modify fun _ => loosensFoldl fun _ v => loosensClean v 0) .pure
  refine .bind (nestsUnreachable e) fun _ => .ite ?_ finish
  exact .bind (nestsSourceOperand _) fun _ => .bind (nestsEmit _) fun _ => finish

theorem nestsPromise : (modifyGet (·.createPromise .code) : Build PromiseId).Nests word :=
  .modifyGet fun _ => loosensStill rfl rfl rfl rfl

theorem nestsCheckLength (b : BoundsCheckEvent) (negative : Option PromiseId) : (checkLength b negative).Nests word := by
  have finish : ∀ next : PromiseId, (do
      emit (.unary .call wordSize (.immediate b.handler))
      bind (.promise next) : Build Unit).Nests word := fun next => .bind (nestsEmit _) fun _ => nestsEmit _
  unfold checkLength
  refine .bind (nestsSourceOf _) fun i => .bind (nestsRegisterOf ..) fun base => .bind nestsPromise fun next => ?_
  refine .bind (nestsSourceOf _) fun index => .bind (.frozen (.bind (loosensOperandOf _) fun _ => nestsEmit _)) fun _ => ?_
  split
  · exact .bind (nestsEmit _) fun _ => finish next
  · exact finish next

theorem nestsBoundsCheck (e : EventId) (b : BoundsCheckEvent) : (boundsCheck e b).Nests word := by
  have finish : (do
      consumeRead (some e) b.object
      consumeRead (some e) b.index : Build Unit).Nests word := .bind (nestsConsumeRead ..) fun _ => nestsConsumeRead ..
  unfold boundsCheck
  refine .bind .get fun s => ?_
  dsimp only
  split
  · exact .ite (.bind (nestsEmit _) fun _ => finish) (.bind (nestsCheckLength ..) fun _ => finish)
  · refine .bind ?_ fun negative => .bind (nestsCheckLength ..) fun _ => finish
    exact .bind nestsPromise fun p => .bind (nestsSourceOperand _) fun a => .bind (nestsEmit _) fun _ => .pure

end Compile

/-! Tables. -/

theorem nestsProbe (v : ValueId) (mask : SiteMask) : (probe v mask).Nests word := loosensProbe v mask

theorem tradesConformSlot (j : JunctionId) (c : Conformed) (slot : FrameElement) :
    (conformSlot j c slot).Trades word (c.frozen ++ before) fun c => c.frozen ++ before := by
  have adds : ∀ i : SiteId, (do return { c with frozen := c.frozen ++ [← hold i] } : Build Conformed).Trades word
      (c.frozen ++ before) fun c => c.frozen ++ before :=
    fun i => .seq (tradesHold i) fun k => .pure (by simpa using List.perm_middle.symm)
  have settled : ∀ alive : Bool, (conformKnown j c slot alive).Trades word (c.frozen ++ before) fun c => c.frozen ++ before := by
    intro alive
    refine .bind .get fun s => ?_
    split
    · exact .bind (nestsProbe ..) fun r => .bind (loosensSettle (fun _ _ => trivial) ..) adds
    · exact .pure (.refl _)
    · refine .bind (.modifyGet fun _ => loosensStill rfl rfl rfl rfl) fun v => ?_
      exact .creating (referredCopy _) (fun i => inhabitsPlace v i) fun i _ =>
        .bind (.modify fun _ => loosensRemove v i) fun _ => adds i
    · exact .pure (.refl _)
  unfold conformSlot
  split
  · exact .bind (loosensLive _) settled
  · exact .bind .pure settled

theorem nestsIsSettled (j : JunctionId) (slots : List FrameElement) : (isSettled j slots).Nests word := by
  induction slots with
  | nil => exact .pure
  | cons slot rest ih =>
    unfold isSettled
    refine .bind .get fun s => ?_
    split
    · exact .bind (loosensLive _) fun alive => .bind .get fun s => .ite .pure ih
    · exact ih

theorem tradesConform (e : EventId) (j : JunctionId) : (conform e j).Trades word before fun c => c.frozen ++ before := by
  have passes : ∀ (slots : List FrameElement) (bound fuel : Nat),
      (conformWithin e j slots bound fuel).Trades word before fun c => c.frozen ++ before := by
    intro slots bound fuel
    induction fuel with
    | zero => exact .throw
    | succ fuel ih =>
      refine .seq (.foldlM (tradesConformSlot j) {}) fun c => .bind (nestsIsSettled j slots) fun done => .ite ?_ ?_
      · exact .bind (.modify fun _ => loosensCount _) fun _ => .pure (.refl _)
      · exact .seq (.thawAll _) fun _ => ih
  exact .bind .get fun s => passes ..

theorem tradesFill (c : Commitment) (slot : Nat) (i : SiteId) :
    (do return c.fill slot (← hold i) ((← get).site i) : Build Commitment).Trades word (c.frozen ++ before)
      fun c => c.frozen ++ before :=
  .seq (tradesHold i) fun k => .bind .get fun s => .pure (by simpa [Commitment.fill] using List.perm_middle.symm)

theorem tradesCommitHeld (c : Commitment) (slot : ValueId × Nat) :
    (commitHeld c slot).Trades word (c.frozen ++ before) fun c => c.frozen ++ before := by
  unfold commitHeld
  refine .bind (.modifyGet fun _ => loosensLiveRead _) fun read => ?_
  split
  · exact .pure (.refl _)
  · refine .ite (.pure (.refl _)) (.bind .get fun s => .bind (.modifyGet fun _ => loosensChooseSource ..) fun found => ?_)
    split
    · exact tradesFill ..
    · exact .pure (.refl _)

theorem tradesCommitMoved (c : Commitment) (slot : ValueId × Nat) :
    (commitMoved c slot).Trades word (c.frozen ++ before) fun c => c.frozen ++ before := by
  unfold commitMoved
  refine .bind (.modifyGet fun _ => loosensLiveRead _) fun read => ?_
  split
  · exact .pure (.refl _)
  · refine .ite (.pure (.refl _)) (.bind .get fun s => .bind (.modifyGet fun _ => loosensChooseSource ..) fun found => ?_)
    split
    · exact .bind .pure fun i => tradesFill ..
    · exact .bind (nestsProbe ..) fun r => .bind (nestsRelocate ..) fun i => tradesFill ..

theorem tradesCommit (e : EventId) (table : List (Option Site)) :
    (commit e table).Trades word before fun c => c.frozen ++ before := by
  refine .bind .get fun s => .seq (.foldlM tradesCommitHeld { table }) fun c => .ite (.pure (.refl _)) ?_
  exact .foldlM tradesCommitMoved c

theorem nestsOpenTable (e : EventId) : s.Nests word [] (s.openTable e) := by
  unfold openTable
  dsimp only
  split
  · exact .refl s
  · refine .before (loosensStill rfl rfl rfl rfl) ?_
    have shares := shareShares (j := ⟨s.junctions.size⟩) (s.links.size + 1)
    rw [(shares _ _).rest]
    exact loosensStill rfl rfl rfl rfl

theorem tradesSettleJunction (e : EventId) : (settleJunction e).Trades word before fun c => c ++ before := by
  have finish : ∀ c : Conformed, (fillTable e c).Trades word (c.frozen ++ before) fun c => c ++ before := by
    refine fun c => .bind .get fun s => ?_
    split
    · refine .ite (.pure (.refl _)) (.seq (tradesCommit ..) fun filled => ?_)
      exact .bind (.modify fun _ => loosensStill rfl rfl rfl rfl) fun _ =>
        .pure (by simpa using List.perm_append_comm_assoc ..)
    · exact .pure (.refl _)
  unfold settleJunction
  refine .bind .get fun s => ?_
  dsimp only
  split
  · exact .seq (tradesConform ..) finish
  · exact .bind (.modify fun _ => nestsOpenTable e) fun _ => .seq (.pure (.refl _)) finish

theorem tradesSettleTables (e : EventId) : (settleTables e).Trades word before fun c => c ++ before := by
  have fork : ∀ before, (settleFork e).Trades word before fun c => c ++ before := fun before =>
    .bind .get fun s => .ite (.seq (tradesCommit ..) fun c => .pure (.refl _)) (.pure (.refl _))
  refine .seq (tradesSettleJunction e) fun atMerge => .seq (fork _) fun atFork => .pure ?_
  simpa using List.perm_append_comm_assoc ..

theorem nestsCapture (e : EventId) : s.Nests word [] (s.captureSnapshots e) := by
  unfold captureSnapshots
  dsimp only
  split
  · exact .refl s
  · exact loosensStill rfl rfl rfl rfl

theorem nestsWithTables (e : EventId) {act : Build Unit} (nests : act.Nests word) : (Compile.withTables e act).Nests word :=
  Trades.nests (.releasing (tradesSettleTables e) (fun _ => nests.trades) fun _ => nestsCapture e)

/-! Calls. -/

def State.SameSources (s s' : State) : Prop := ∀ v, (s'.value v).source = (s.value v).source

namespace State.SameSources

theorem refl (s : State) : s.SameSources s := fun _ => rfl

theorem trans (first : s.SameSources t) (second : t.SameSources s') : s.SameSources s' :=
  fun v => (second v).trans (first v)

instance : Std.Refl SameSources := ⟨refl⟩

instance : Trans SameSources SameSources SameSources := ⟨trans⟩

theorem still (same : s'.values = s.values) : s.SameSources s' := fun v => by rw [State.value, State.value, same]

end State.SameSources

theorem sourcesEmit (q : Request) : Within SameSources (emit q) := by
  have lends : X64.ScratchSource.Within SameSources temporaries :=
    temporariesWithin (fun s v => (tameIsLive v).source) (fun _ _ => .still rfl) (fun s v i w => s.removeSiteSource v w i)
      (fun _ _ => .still rfl) fun _ _ => .still rfl
  exact .emit (fun _ _ => .still rfl) (X64.emitWithin lends q)

theorem sourcesFreeze (i : SiteId) : s.SameSources (s.freezeSite i) := .still (by rw [freezeSiteRest])

theorem sourcesThaw (i : SiteId) : s.SameSources (s.thawSite i) := .still (by rw [thawSiteEq]; rfl)

namespace Compile

def surrogate (s : State) (v : Option ValueId) : List SiteId := (v.bind fun v => (s.value v).source).toList

theorem surrogateSame (same : s.SameSources s') (v : Option ValueId) : surrogate s' v = surrogate s v := by
  cases v with
  | none => rfl
  | some v => rw [surrogate, surrogate, Option.bind_some, Option.bind_some, same v]

theorem holdSurrogateOk {v : Option ValueId} {r : Option Register} (nested : s.Nests word before t)
    (ok : holdSurrogate v t = .ok r s') : s.Nests word (surrogate t v ++ before) s' ∧ t.SameSources s' := by
  cases v with
  | none =>
    obtain ⟨-, rfl⟩ := pureOk.mp ok
    exact ⟨nested, .refl t⟩
  | some v =>
    simp only [holdSurrogate] at ok
    obtain ⟨i, u, found, ok⟩ := bindOk.mp ok
    obtain ⟨source, same⟩ := sourceOfOk.mp found
    rw [same] at ok
    obtain ⟨r, u, named, ok⟩ := bindOk.mp ok
    obtain ⟨-, same⟩ := registerOfNumber named
    rw [same] at ok
    obtain ⟨⟨⟩, u, kept, same⟩ := bindOk.mp ok
    obtain ⟨-, rfl⟩ := pureOk.mp same
    obtain ⟨k, kept⟩ := discardOk.mp kept
    have held := (tradesHold i).holds nested kept
    obtain ⟨⟨⟩, w, froze, same⟩ := bindOk.mp kept
    obtain ⟨rfl, rfl⟩ := pureOk.mp same
    rw [surrogate, Option.bind_some, source]
    exact ⟨held, modifyOk.mp froze ▸ sourcesFreeze _⟩

theorem thawSurrogateOk {v : Option ValueId} (nested : s.Nests word (surrogate t v ++ before) t)
    (ok : thawSurrogate v t = .ok () s') : s.Nests word before s' ∧ t.SameSources s' := by
  cases v with
  | none =>
    obtain ⟨-, rfl⟩ := pureOk.mp ok
    exact ⟨nested, .refl t⟩
  | some v =>
    obtain ⟨i, u, found, thawed⟩ := bindOk.mp ok
    obtain ⟨source, rfl⟩ := sourceOfOk.mp found
    rw [surrogate, Option.bind_some, source] at nested
    exact ⟨(Trades.thaw i).holds nested thawed, modifyOk.mp thawed ▸ sourcesThaw i⟩

theorem dropFrameOk {c : CallEvent} (nested : s.Nests word before t) (ok : dropFrame c t = .ok () s') :
    s.Nests word (surrogate t c.returnAddress ++ (surrogate t c.framePointer ++ before)) s' ∧ t.SameSources s' := by
  obtain ⟨r, u, held, ok⟩ := bindOk.mp ok
  obtain ⟨f, u', held', ok⟩ := bindOk.mp ok
  obtain ⟨once, same⟩ := holdSurrogateOk nested held
  obtain ⟨twice, same'⟩ := holdSurrogateOk once held'
  rw [surrogateSame same] at twice
  rw [getBind] at ok
  refine ⟨?_, (same.trans same').trans ((sourcesEmit _).holds ok)⟩
  exact ((nestsEmit _).trades.holds twice ok).perm (List.perm_append_comm_assoc ..)

theorem sourcesTraceCall (c : CallEvent) : Within SameSources (traceCall c) := by
  unfold traceCall
  split
  · exact .pure
  · exact .bind (.modifyGet fun _ => .still rfl) fun p => .bind (sourcesEmit _) fun _ => .modify fun _ => .still rfl

theorem nestsTraceCall (c : CallEvent) : (traceCall c).Nests word := by
  unfold traceCall
  split
  · exact .pure
  · exact .bind nestsPromise fun p => .bind (nestsEmit _) fun _ => .modify fun _ => loosensStill rfl rfl rfl rfl

theorem nestsFinishCall (e : EventId) (c : CallEvent) : (do
    cleanFrame e c.popIndex
    if c.resultSize > 0 then
      if ← live c.result then placeAt c.result (.ofRegister (← get).machine.result) : Build Unit).Nests word := by
  have clean : (cleanFrame e c.popIndex).Nests word :=
    .bind (.modify fun _ => loosensFoldl fun _ v => loosensClean v _) fun _ => nestsConsumeReads e
  refine .bind clean fun _ => .ite ?_ .pure
  exact .bind (loosensLive _) fun _ => .ite (.bind .get fun _ => nestsPlaceAt _ rfl) .pure

theorem nestsCall (e : EventId) (c : CallEvent) : (call e c).Nests word := by
  have finish : Build.Nests word _ := nestsFinishCall e c
  unfold call
  by_cases tail : c.tail = true
  · simp only [tail, if_true]
    constructor
    intro s a s' ok
    obtain ⟨⟨⟩, t, dropped, ok⟩ := bindOk.mp ok
    obtain ⟨operand, t', located, ok⟩ := bindOk.mp ok
    obtain ⟨⟨⟩, u, called, ok⟩ := bindOk.mp ok
    obtain ⟨⟨⟩, u', traced, ok⟩ := bindOk.mp ok
    obtain ⟨⟨⟩, w, thawed, ok⟩ := bindOk.mp ok
    obtain ⟨⟨⟩, w', thawed', ok⟩ := bindOk.mp ok
    obtain ⟨held, kept⟩ := dropFrameOk (.refl s) dropped
    have held := (nestsSourceOperand _).trades.holds held located
    have held := (nestsTraceCall c).trades.holds ((nestsEmit _).trades.holds held called) traced
    have emitted := ((sourcesEmit _).holds called).trans ((sourcesTraceCall c).holds traced)
    have kept : s.SameSources u' := kept.trans (.trans ((tameSourceOperand _).holds located).source emitted)
    rw [← surrogateSame kept, ← surrogateSame kept] at held
    obtain ⟨held, kept⟩ := thawSurrogateOk held thawed
    rw [← surrogateSame kept] at held
    exact finish.trades.holds (thawSurrogateOk held thawed').1 ok
  · simp only [tail]
    refine .bind (nestsSourceOperand _) fun a => .bind (nestsEmit _) fun _ => .bind (nestsTraceCall c) fun _ => ?_
    exact .bind (.bind .get fun s => .ite (nestsEmit _) .pure) fun _ => finish

/-! Events. -/

theorem eventHandled (ok : event e s = .ok () s') :
    (∃ word, s.Nests word [] s') ∧ ((s.event e).kind.computes = false → ∀ word, s.Nests word [] s') := by
  rw [event, getBind] at ok
  have idle (all : ∀ word, s.Nests word [] s') : (∃ word, s.Nests word [] s') ∧
      ((s.event e).kind.computes = false → ∀ word, s.Nests word [] s') := ⟨⟨⟨0⟩, all _⟩, fun _ => all⟩
  cases kind : (s.event e).kind <;> rw [kind] at ok idle
  case call c => exact idle fun word => (nestsCall e c).holds ok
  case leave => exact idle fun word => (nestsLeave e).holds ok
  case move m => exact ⟨(handlesMove e m).holds ok, Bool.noConfusion⟩
  case combine c => exact ⟨(handlesCombine e c).holds ok, Bool.noConfusion⟩
  case convert t => exact ⟨(handlesConvert e t).holds ok, Bool.noConfusion⟩
  case branch b => exact idle fun word => (nestsBranch e b).holds ok
  case jump j => exact idle fun word => (nestsJump e j).holds ok
  case memory m => exact idle fun word => (nestsMemory e m).holds ok
  case boundsCheck b => exact idle fun word => (nestsBoundsCheck e b).holds ok
  case barrier op => exact idle fun word => (nestsEmit _).holds ok
  case frameSite v index =>
    have placed : ∀ word, (do if ← live v then placeAt v (.frame (← get).geometry index) : Build Unit).Nests word :=
      fun word => .bind (loosensLive _) fun _ => .ite (.bind .get fun _ => nestsPlaceAt _ rfl) .pure
    exact idle fun word => (placed word).holds ok
  case join v copy =>
    have joined : ∀ word, (do modify (·.joinRing v copy); consumeRead (some e) v : Build Unit).Nests word :=
      fun word => .bind (.modify fun _ => nestsJoin ..) fun _ => nestsConsumeRead ..
    exact idle fun word => (joined word).holds ok
  case saveLocals => exact idle fun word => (nestsConsumeReads e).holds ok
  case dummy => exact idle fun word => Loosens.pure.holds ok

theorem nestsBindStart (e : EventId) : (bindStart e).Nests word := by
  have started : ∀ ip : Int, (instructionAt ip).Nests word := by
    intro ip
    refine .bind .get fun s => ?_
    split
    · exact .pure
    · exact .throw
  refine .bind .get fun s => .ite .pure (.bind (started _) fun _ => .ite .pure ?_)
  refine .bind (.bind (.discard (started _)) fun _ => .modify fun s => ?_) fun _ => nestsEmit _
  exact loosensStill rfl rfl rfl rfl

theorem nestsApproach (e : EventId) : (approach e).Nests word := by
  have begins : (begin e).Nests word := .bind (.modify fun _ => loosensStill rfl rfl rfl rfl) fun _ => nestsBindStart e
  refine .bind begins fun _ => .bind (nestsEnter e) fun _ => .bind .get fun s => ?_
  have sources : (chooseSources (s.event e).reads).Nests word := loosensChooseSources (fun _ _ => trivial) _
  exact .ite (nestsWithTables e sources) sources

theorem nestsConclude (e : EventId) : (conclude e).Nests word := .bind .get fun _ => .ite (nestsWithTables e .pure) .pure

theorem nestsRevisit (e : EventId) : (revisit e).Nests word :=
  .bind .get fun _ => .bind (.modify fun _ => loosensStill rfl rfl rfl rfl) fun _ => .forM nestsFollowLink

theorem kindsAdmit : Admits State.SameKinds where
  fixed := .ofFixed
  begins _ _ _ := rfl
  opens s e x := by
    unfold State.openTable
    split
    · rfl
    · rename_i merge _
      have shares := shareShares (j := ⟨s.junctions.size⟩) (s.links.size + 1) [merge]
        { s with junctions := s.junctions.push (List.replicate (s.frames.footprint (s.event e).stackAfter) none) }
      rcases shares.event x with same | ⟨-, given⟩
      · exact congrArg Event.kind same
      · have kept := congrArg Event.kind given
        exact kept
  fills {s t e j c} committed x := State.SameKinds.ofFixed ((firmlyCommit ..).holds committed).fixed x

theorem oneHandled (ok : one e s = .ok () s') :
    (∃ word, s.Nests word [] s') ∧ ((s.event e).kind.computes = false → ∀ word, s.Nests word [] s') := by
  obtain ⟨⟨⟩, w, lowered, ok⟩ := bindOk.mp ok
  obtain ⟨⟨⟩, w', revisited, counted⟩ := bindOk.mp ok
  obtain ⟨⟨⟩, t, approached, lowered⟩ := bindOk.mp lowered
  obtain ⟨⟨⟩, u, carried, concluded⟩ := bindOk.mp lowered
  have rest : ∀ word, u.Nests word [] s' := fun word => by
    rw [modifyOk.mp counted]
    exact (((nestsConclude e).holds concluded).trans ((nestsRevisit e).holds revisited)).trans (loosensCount _)
  have whole : ∀ word, t.Nests word [] u → s.Nests word [] s' := fun word nested =>
    (((nestsApproach e).holds approached).trans nested).trans (rest word)
  obtain ⟨⟨word, nested⟩, idle⟩ := eventHandled carried
  refine ⟨⟨word, whole word nested⟩, fun plain word => whole word (idle ?_ word)⟩
  rw [(kindsAdmit.approach e).holds approached e]
  exact plain

end Compile

def State.Thawed (s : State) : Prop := ∀ id, s.freezes id = 0

theorem thawedIff : s.Thawed ↔ ∀ r ∈ s.resources.registers ++ s.resources.slots, r.freezes = 0 := by
  constructor
  · intro thawed r member
    rcases List.mem_append.mp member with member | member
    all_goals obtain ⟨n, inside, rfl⟩ := List.mem_iff_getElem.mp member
    · simpa [freezes, ResourceTable.get, inside] using thawed (.register n)
    · simpa [freezes, ResourceTable.get, inside] using thawed (.slot n)
  · have default : (default : Resource).freezes = 0 := rfl
    intro all id
    cases id with
    | register n =>
      by_cases inside : n < s.resources.registers.length
      · simpa [freezes, ResourceTable.get, inside] using all s.resources.registers[n] (by simp)
      · simp [freezes, ResourceTable.get, inside, default]
    | slot n =>
      by_cases inside : n < s.resources.slots.length
      · simpa [freezes, ResourceTable.get, inside] using all s.resources.slots[n] (by simp)
      · simp [freezes, ResourceTable.get, inside, default]

instance (s : State) : Decidable s.Thawed := decidable_of_iff _ thawedIff.symm

theorem State.Nests.thawed (nests : s.Nests word [] s') (thawed : s.Thawed) : s'.Thawed := by
  intro id
  have freezes := nests.eases.freezes id
  rw [thawed id] at freezes
  simpa [State.holds] using freezes

def ClientCall.dividing : List ClientCall :=
  [.start 1 0 0 2, .startInstruction 0, .register X64.rdi, .register X64.rsi, .combine .divide 8 ⟨0⟩ ⟨1⟩, .leave (some ⟨2⟩)]

structure Build.Thaws (act : Build α) : Prop where
  holds : ∀ {s a s'}, s.Thawed → act s = .ok a s' → s'.Thawed

namespace Build

theorem Handles.thaws (handles : x.Handles) : x.Thaws := ⟨fun thawed ok =>
  have ⟨_, nested⟩ := handles.holds ok
  nested.thawed thawed⟩

theorem Nests.thaws (nests : x.Nests ⟨0⟩) : x.Thaws := nests.handles.thaws

namespace Thaws

theorem bind (first : x.Thaws) (rest : ∀ a, (f a).Thaws) : (x >>= f).Thaws := by
  constructor
  intro s b s' thawed ok
  obtain ⟨a, t, began, ended⟩ := bindOk.mp ok
  exact (rest a).holds (first.holds thawed began) ended

theorem forM {f : α → Build PUnit} {xs : List α} (round : ∀ x, (f x).Thaws) : (xs.forM f).Thaws := by
  induction xs with
  | nil => exact Nests.thaws .pure
  | cons x rest ih => exact bind (round x) fun _ => ih

end Thaws

end Build

namespace Compile

theorem thawsClaimRegisterValues : claimRegisterValues.Thaws := by
  have acquires : ∀ o : Owner, (do
      if ← live o.value then
        if ((← get).value o.value).sites.contains o.site then acquire o.value o.site : Build Unit).Nests o.site := by
    refine fun o => .bind (loosensLive _) fun alive => .ite (.bind .get fun s => .ite ?_ .pure) .pure
    exact ⟨fun ok => loosensAcquire (fun _ _ => trivial) (.inr rfl) ok⟩
  refine .bind (Nests.thaws .get) fun s => .bind (Nests.thaws (.modify fun _ => loosensStill rfl rfl rfl rfl)) fun _ => ?_
  exact .forM fun o => (acquires o).handles.thaws

theorem thawsPrologue (handler : Option Int) (limitOffset : Nat) : (prologue handler limitOffset).Thaws := by
  have entered : ensureEvent.Nests ⟨0⟩ := by
    constructor
    intro s a s' ok
    have links := linksEnsureEvent.holds ok
    rw [links]
    exact loosensStill rfl rfl rfl rfl
  have rest : (do emit (.allocateFrame (← get).frameSize); claimRegisterValues : Build Unit).Thaws :=
    .bind (Nests.thaws .get) fun s => .bind (nestsEmit _).thaws fun _ => thawsClaimRegisterValues
  refine .bind entered.thaws fun _ => ?_
  dsimp only
  split
  · exact .bind (nestsEmit _).thaws fun _ => rest
  · exact rest

end Compile

theorem methodThaws {handler : Option Int} {limitOffset : Nat} (thawed : s.Thawed)
    (ok : Compile.method handler limitOffset s = .ok () s') : s'.Thawed := by
  have one : ∀ e, (Compile.one e).Thaws := fun e => ⟨fun thawed ok =>
    have ⟨_, nested⟩ := (Compile.oneHandled ok).1
    nested.thawed thawed⟩
  have thaws : (Compile.method handler limitOffset).Thaws :=
    .bind (Compile.thawsPrologue ..) fun _ => .bind (Nests.thaws .get) fun s => .forM one
  exact thaws.holds thawed ok

end Lowering
