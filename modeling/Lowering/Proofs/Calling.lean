import Lowering.Proofs.Passing
import Lowering.Proofs.Precedence
/-!
What is left where a callee may write.

A call sees the frame it is made in. The values there, and their aliases, keep only the frame slots
beyond the arguments; then the reads of the call are consumed, which may pass a site to an alias but
moves nothing; and then the result takes the return register, of which nobody has to be relieved if
all that is still read was in the frame. Values that the frame does not show stay where they are.
-/
namespace Lowering

open State Build

/-- A callee leaves the site alone: it is a constant, an address, or a frame slot from `popIndex`
on. -/
def Site.lasts (g : FrameGeometry) (popIndex : Nat) : Site → Bool
  | .constant _ | .address _ => true
  | .register .. => false
  | .memory m acquired => ((Site.memory m acquired).slot? g).any (popIndex ≤ ·)

variable {s s' t u : State} {v w : ValueId} {i : SiteId} {id : ResourceId} {lent : List Register}
  {e : EventId} {popIndex : Nat}

theorem lastsOfPlace {g : FrameGeometry} {x y : Site} (same : x.place = y.place) :
    x.lasts g popIndex = y.lasts g popIndex := by
  have lasts : ∀ x : Site, x.place.lasts g popIndex = x.lasts g popIndex := by
    intro x
    cases x <;> rfl
  rw [← lasts x, same, lasts]

def State.frameBefore (s : State) (e : EventId) : List ValueId :=
  s.frames.values (s.event e).stackBefore (s.event e).localsBefore

/-- The value or an alias is in the frame with which an event begins. -/
def State.InFrame (s : State) (e : EventId) (v : ValueId) : Prop :=
  ∃ u ∈ s.frameBefore e, v ∈ s.ring u

/-- The value and its aliases are only where a callee leaves them alone. -/
def State.Lasts (s : State) (popIndex : Nat) (v : ValueId) : Prop :=
  ∀ w ∈ s.ring v, ∀ i ∈ (s.value w).sites, (s.site i).lasts s.geometry popIndex = true

/-! Making the call. -/

structure Idle (s s' : State) : Prop where
  rest : s' = { s with
    emitter := s'.emitter
    promises := s'.promises
    tracedCalls := s'.tracedCalls }

namespace Idle

theorem refl (s : State) : Idle s s := ⟨rfl⟩

theorem trans (first : Idle s t) (second : Idle t s') : Idle s s' := by
  have a := first.rest
  have b := second.rest
  rw [a] at b
  exact ⟨b⟩

instance : Std.Refl Idle := ⟨refl⟩

instance : Trans Idle Idle Idle := ⟨trans⟩

theorem value (h : Idle s s') : s'.value = s.value := by
  rw [h.rest]
  rfl

theorem site (h : Idle s s') : s'.site = s.site := by
  rw [h.rest]
  rfl

theorem ring (h : Idle s s') : s'.ring v = s.ring v :=
  ringCongr (by rw [h.rest]) (fun w => by rw [h.value]) v

theorem formed (h : Idle s s') (formed : s.WellFormed) : s'.WellFormed := by
  rw [h.rest]
  exact ⟨⟨formed.rings.known, formed.rings.injective⟩, formed.listed, formed.reads, formed.heads,
    formed.frame⟩

theorem live (h : Idle s s') (formed : s.WellFormed) : s'.Live v ↔ s.Live v := by
  have reads : s'.reads = s.reads := by rw [h.rest]
  rw [liveIff (h.formed formed), liveIff formed, h.ring, h.value, reads]

theorem tracked (h : Idle s s') (before : s.Tracked lent []) : s'.Tracked lent [] := by
  have unmoved : Unmoved s s' := by
    rw [h.rest]
    exact ⟨rfl, fun _ => rfl, le_rfl, fun _ _ => rfl, rfl, .refl _, fun _ => rfl, fun _ => rfl⟩
  refine unmoved.tracked before (h.formed before.formed) (fun v _ alive dead => ?_) fun r _ _ => ?_
  · exact absurd ((h.live before.formed).mp alive) dead
  · rw [h.rest]

end Idle

theorem idleEmit {q : Request} (quiet : X64.Emit.Within Idle (X64.emit temporaries q)) :
    (emit q).Within Idle := .emit (fun _ _ => ⟨rfl⟩) quiet

theorem idleUnary (op : Unary) (size : Nat) (a : Operand) : (emit (.unary op size a)).Within Idle :=
  idleEmit (X64.liftWithin _)

theorem idleBind (target : CodeTarget) : (Compile.bind target).Within Idle :=
  idleEmit (X64.liftWithin _)

theorem idleSourceOperand (v : ValueId) : (sourceOperand v).Within Idle := by
  unfold sourceOperand sourceOf operandOf
  refine .bind (.bind .get fun s => ?_) fun i => .bind .get fun s => ?_
  · split
    · exact .pure
    · exact .throw
  · split
    · exact .pure
    · exact .throw

theorem idleTraceCall (c : CallEvent) : (Compile.traceCall c).Within Idle := by
  unfold Compile.traceCall
  split
  · exact .pure
  · refine .bind (.modifyGet fun s => ⟨rfl⟩) fun p => .bind (idleBind _) fun _ => ?_
    exact .modify fun s => ⟨rfl⟩

theorem idleRestoreArguments (c : CallEvent) : (Compile.restoreArguments c).Within Idle := by
  unfold Compile.restoreArguments
  exact .bind .get fun s => .ite (idleEmit (X64.liftWithin _)) .pure

/-- How a call ends: if its result is read, that is placed in the return register. -/
inductive Returns (c : CallEvent) (u s' : State) : Prop
  | nothing (state : s' = u)
  | unread (state : s' = (u.isLive c.result).2)
  | placed (alive : u.Live c.result)
      (placed : placeAt c.result (.ofRegister (u.isLive c.result).2.machine.result)
        (u.isLive c.result).2 = .ok () s')

theorem callSteps {c : CallEvent} (returns : c.tail = false) (ok : Compile.call e c s = .ok () s') :
    ∃ t u, Idle s t ∧ Compile.cleanFrame e c.popIndex t = .ok () u ∧ Returns c u s' := by
  simp only [Compile.call, returns, Bool.false_eq_true, if_false, bindOk] at ok
  obtain ⟨a, s₁, operand, ⟨⟩, s₂, emitted, ⟨⟩, s₃, traced, ⟨⟩, t, restored, ⟨⟩, u, cleaned, ended⟩ := ok
  refine ⟨t, u, ?_, cleaned, ?_⟩
  · have first := ((idleSourceOperand _).holds operand).trans ((idleUnary _ _ _).holds emitted)
    exact (first.trans ((idleTraceCall c).holds traced)).trans ((idleRestoreArguments c).holds restored)
  · split at ended
    · simp only [live, modifyGetBind] at ended
      split at ended
      · rename_i alive
        exact .placed alive ended
      · exact .unread (pureOk.mp ended).2.symm
    · exact .nothing (pureOk.mp ended).2.symm

/-! Cleaning the frame. -/

theorem cleanValueLasts (member : w ∈ s.ring v)
    (listed : i ∈ ((s.cleanValue v popIndex).value w).sites) :
    (s.site i).lasts s.geometry popIndex = true := by
  obtain ⟨before, kept⟩ := detachAllListed (o := ⟨w, i⟩) _ listed
  simp only [List.mem_filter, memPlacements, not_and] at kept
  have kept := kept ⟨member, before⟩
  cases site : s.site i with
  | memory m acquired =>
    rw [site] at kept
    rw [Site.lasts]
    cases slot : (Site.memory m acquired).slot? s.geometry with
    | none => simp [slot] at kept
    | some k => simpa [slot] using kept
  | constant p => rfl
  | address p => rfl
  | register mask number => simp [site, Site.slot?] at kept

def State.cleanAll (s : State) (popIndex : Nat) (vs : List ValueId) : State :=
  vs.foldl (fun s v => s.cleanValue v popIndex) s

theorem cleanAllSpec (popIndex : Nat) (vs : List ValueId) : ∀ {s : State}, s.Tracked lent [] → (∀ v ∈ vs, s.IsValue v) →
    (s.cleanAll popIndex vs).Tracked lent [] ∧ Keeps s (s.cleanAll popIndex vs) ∧
      Passes s (s.cleanAll popIndex vs) ∧ ∀ v ∈ vs, (s.cleanAll popIndex vs).Lasts popIndex v := by
  induction vs with
  | nil => exact fun h _ => ⟨h, .refl _, .refl _, by simp⟩
  | cons v rest ih =>
    intro s h known
    rw [State.cleanAll, List.foldl_cons, ← State.cleanAll]
    have keeps : Keeps s (s.cleanValue v popIndex) := keepsDetachAll _ s
    have first := h.cleanValue (known v List.mem_cons_self) popIndex
    obtain ⟨tracked, onward, passes, lasts⟩ := ih first fun w member =>
      (keeps.isValue w).mpr (known w (List.mem_cons_of_mem _ member))
    have all := keeps.trans onward
    refine ⟨tracked, all, (passesCleanValue h.once v popIndex).trans h.formed.rings passes, fun u inside => ?_⟩
    rcases List.mem_cons.mp inside with rfl | inside
    · intro w member i listed
      have inside := known u List.mem_cons_self
      rw [all.ring] at member
      obtain ⟨w', between, before⟩ := passes.listed w i listed
      rw [keeps.ring] at between
      have member' := memRingTrans h.formed.rings inside member between
      have known' := h.formed.listed w' i (detachAllListed (o := ⟨w', i⟩) _ before).1
      rw [all.geometry, lastsOfPlace (all.place i known')]
      exact cleanValueLasts member' before
    · exact lasts u inside

theorem Passes.lasts (h : Passes s s') (rings : s.Permutes) (formed : s.WellFormed)
    (geometry : s'.geometry = s.geometry) (known : s.IsValue v) (lasts : s.Lasts popIndex v) :
    s'.Lasts popIndex v := by
  intro w member i listed
  obtain ⟨w', between, before⟩ := h.listed w i listed
  have inside := memRingTrans rings known (h.met v known w member) between
  rw [geometry, lastsOfPlace (h.place i (formed.listed w' i before))]
  exact lasts w' inside i before

theorem cleanFrameSpec (h : s.Tracked lent []) (frame : s.FrameKnown e) (closed : ∀ v, s.Closed v)
    (awaits : s.Awaits e) (ok : Compile.cleanFrame e popIndex s = .ok () u) :
    u.Tracked lent [] ∧ Passes s u ∧
      ∀ v, s.IsValue v → s.InFrame e v ∨ s.Lasts popIndex v → u.Lasts popIndex v := by
  simp only [Compile.cleanFrame, modifyBind] at ok
  have rings := h.formed.rings
  obtain ⟨tracked, keeps, cleaned, lasts⟩ := cleanAllSpec popIndex (s.frameBefore e) h frame
  have fixed : Fixed (s.cleanAll popIndex (s.frameBefore e)) u := ((firmlyConsumeReads e).holds ok).fixed
  have geometry : u.geometry = (s.cleanAll popIndex (s.frameBefore e)).geometry :=
    congrArg (·.geometry) fixed.same
  obtain ⟨consumed, tracked'⟩ := consumeReadsPasses tracked (awaits.evolves cleaned.reads)
    (cleaned.closed h.formed closed) ok
  refine ⟨tracked', cleaned.trans rings consumed, fun v known safe => ?_⟩
  have rings' := tracked.formed.rings
  refine consumed.lasts rings' tracked.formed geometry ((keeps.isValue v).mpr known) ?_
  rcases safe with ⟨u, inside, member⟩ | safe
  · intro w inRing
    have known' := (keeps.isValue u).mpr (frame u inside)
    rw [← keeps.ring] at member
    exact lasts u inside w (memRingTrans rings' known' member inRing)
  · exact cleaned.lasts rings h.formed keeps.geometry known safe

/-! Placing the result. -/

theorem evictDead {o : Owner} {thief : Option ValueId} (formed : s.WellFormed)
    (owner : s.owner? id = some o) (dead : ¬ s.Live o.value) (ok : evict id thief s = .ok () s') :
    ∃ reads statistics, s.reads.Evolves reads ∧
      s' = { s with reads, statistics }.removeSite o.value o.site := by
  have owned : (s.resources.get id).owner = some o := owner
  rw [evict, getBind, State.displacementBound, evictWithin, getBind, owned] at ok
  simp only [modifyBind] at ok
  split at ok
  · have keeps : Keeps s (s.count (·.countSteal)) :=
      s.keepsAsk (s.statistics.countSteal) s.resources.available (.refl _)
    have formed' := keeps.wellFormed formed formed.listed
    obtain ⟨reads, state, evolves, -⟩ := liveReadSpec formed' o.value
    have unread : ((s.count (·.countSteal)).liveRead? o.value).1 = none := by
      have dead' := mt (keeps.live formed formed' o.value).mp dead
      exact Option.not_isSome_iff_eq_none.mp dead'
    simp only [modifyGetBind, unread, state, modifyOk] at ok
    exact ⟨reads, _, evolves, ok⟩
  · exact ⟨s.reads, _, .refl _, modifyOk.mp ok⟩

theorem seizeDead {o : Owner} (formed : s.WellFormed)
    (dead : ∀ p, s.owner? id = some p → ¬ s.Live p.value)
    (ok : acquireResource evict id o s = .ok () s') :
    Keeps s s' ∧ ∀ v, ∀ i ∈ (s'.value v).sites, i ∈ (s.value v).sites := by
  unfold acquireResource at ok
  rw [getBind] at ok
  split at ok
  · obtain ⟨-, rfl⟩ := pureOk.mp ok
    exact ⟨.refl s, fun _ _ listed => listed⟩
  · cases owner : s.owner? id with
    | none =>
      have none : (s.resources.get id).owner = none := owner
      simp only [none, Option.isSome_none, Bool.false_eq_true, if_false, modifyOk] at ok
      rw [ok]
      exact ⟨s.keepsResources (.setOwner _ _ _), fun _ _ listed => listed⟩
    | some p =>
      have some : (s.resources.get id).owner = some p := owner
      simp only [some, Option.isSome_some, if_true, bindOk, modifyOk] at ok
      obtain ⟨⟨⟩, t, evicted, rfl⟩ := ok
      obtain ⟨reads, statistics, evolves, rfl⟩ := evictDead formed owner (dead p owner) evicted
      have asked := s.keepsAsk statistics s.resources.available evolves
      refine ⟨(asked.trans (keepsRemoveSite _ _ _)).trans (keepsResources _ (.setOwner _ _ _)),
        fun v i listed => ?_⟩
      exact State.removeSiteListed (s := { s with reads, statistics }) listed

theorem placeDead {n : Register} (formed : s.WellFormed) (known : s.IsValue v)
    (dead : ∀ p, s.owner? (.register n) = some p → ¬ s.Live p.value)
    (ok : placeAt v (.ofRegister n) s = .ok () s') :
    Keeps s s' ∧ ∀ w ≠ v, ∀ i ∈ (s'.value w).sites, i ∈ (s.value w).sites := by
  have created := s.keepsNewSite (.ofRegister n)
  have site : (s.newSite (.ofRegister n)).2.site ⟨s.sites.size⟩ = .ofRegister n := siteNewSelf s _
  have absent : ((s.newSite (.ofRegister n)).2.value v).sites.contains ⟨s.sites.size⟩ = false := by
    simp only [List.contains_eq_mem, decide_eq_false_iff_not]
    intro listed
    have there := formed.listed v _ listed
    simp [IsSite] at there
  have formed' := created.wellFormed formed fun w i listed => created.isSite (formed.listed w i listed)
  have dead' : ∀ p, (s.newSite (.ofRegister n)).2.owner? (.register n) = some p →
      ¬ (s.newSite (.ofRegister n)).2.Live p.value :=
    fun p owner => mt (created.live formed formed' p.value).mp (dead p owner)
  simp only [placeAt, modifyGetBind, place, placeWith, getBind] at ok
  rw [show (s.newSite (.ofRegister n)).1 = ⟨s.sites.size⟩ from rfl, absent] at ok
  simp only [Bool.false_eq_true, if_false, bindOk, modifyOk] at ok
  obtain ⟨⟨⟩, t, acquired, rfl⟩ := ok
  rw [acquireWith, getBind, site] at acquired
  simp only [Site.ofRegister, settleRegister, bindOk, modifyOk, pureOk] at acquired
  obtain ⟨r, t', ⟨rfl, rfl⟩, ⟨⟩, u, taken, rfl⟩ := acquired
  obtain ⟨keeps, fewer⟩ := seizeDead formed' dead' taken
  have all := created.trans keeps
  have place : (Site.register (RegisterSet.single n) (some n)).place = (u.site ⟨s.sites.size⟩).place := by
    rw [keeps.place _ (by simp [IsSite, newSite])]
    exact congrArg Site.place site.symm
  refine ⟨all.trans ((keepsSetSite u _ place).trans (keepsEnlist _ v _)), fun w other i listed => ?_⟩
  rcases (enlistListed _ ((all.isValue v).mpr known)).mp listed with ⟨same, -⟩ | before
  · exact absurd same other
  · exact fewer w i before

theorem acquiresKeeps {old : Nat} (acquires : Acquires old [] [] s v i t) (known : s.IsSite i)
    (closed : (s.site i).isOpen = false) : Keeps s t := by
  cases acquires with
  | bare => exact (s.keepsReach i).trans (keepsSetSite _ i (Site.placeTaken _))
  | @named id t names seizes =>
    have keeps := (s.keepsReach i).trans seizes.keeps
    exact keeps.trans (keepsSetSite t i ((Site.placeTaken _).trans (keeps.place i known).symm))
  | settled site => simp [site, Site.isOpen] at closed

theorem placeAtKeeps {n : Register} (h : s.Tracked lent []) (ok : placeAt v (.ofRegister n) s = .ok () s') :
    Keeps s s' := by
  have created := s.keepsNewSite (.ofRegister n)
  have known : (s.newSite (.ofRegister n)).2.IsSite ⟨s.sites.size⟩ := by simp [IsSite, newSite]
  have tracked : (s.newSite (.ofRegister n)).2.Tracked lent [] :=
    h.still created (fun _ => rfl) (fun i => s.siteNewOld _) fun _ => rfl
  rw [placeAt, modifyGetBind, place, placeWith, getBind] at ok
  split at ok
  · rw [← (pureOk.mp ok).2]
    exact created
  · simp only [bindOk, modifyOk] at ok
    obtain ⟨⟨⟩, t, acquired, rfl⟩ := ok
    have keeps := acquiresKeeps (acquireAcquires tracked acquired) known (by rw [siteNewSelf]; rfl)
    exact (created.trans keeps).trans (keepsEnlist t v _)

theorem returnsLast {c : CallEvent} (h : u.Tracked lent []) (known : u.IsValue c.result)
    (ends : Returns c u s')
    (lasting : ∀ v, s'.Live v → v ≠ c.result → u.IsValue v → u.Lasts c.popIndex v)
    (bare : (u.value c.result).sites = []) (alive : s'.Live v) (other : v ≠ c.result)
    (listed : i ∈ (s'.value v).sites) : (s'.site i).lasts s'.geometry c.popIndex = true := by
  have rings := h.formed.rings
  cases ends with
  | nothing state =>
    subst state
    exact lasting v alive other (s'.isValueOfSites listed) v (selfMemRing _ v) i listed
  | unread state =>
    have passes := passesIsLive h.formed c.result
    rw [← state] at passes
    have known' := (passes.isValue v).mp (s'.isValueOfSites listed)
    have geometry : s'.geometry = u.geometry := by
      obtain ⟨reads, asked, -⟩ := liveReadSpec h.formed c.result
      rw [state, isLiveState, asked]
    exact passes.lasts rings h.formed geometry known' (lasting v alive other known') v
      (selfMemRing _ v) i listed
  | placed _ placed =>
    obtain ⟨reads, asked, evolves, -⟩ := liveReadSpec h.formed c.result
    have tracked := h.isLive c.result
    rw [isLiveState, asked] at placed tracked
    have keeps := placeAtKeeps tracked placed
    -- the owner of the return register would be in a register
    have dead : ∀ p, { u with reads }.owner? (.register u.machine.result) = some p →
        ¬ { u with reads }.Live p.value := by
      intro p owner alive'
      have free : { u with reads }.Free (.register u.machine.result) := by
        by_contra held
        rw [tracked.vacant _ held] at owner
        cases owner
      obtain ⟨here, names⟩ := tracked.recorded _ p free owner
      have here : p.site ∈ (u.value p.value).sites := here.resolve_right (by simp)
      have apart : p.value ≠ c.result := by
        intro same
        rw [same, bare] at here
        cases here
      have formed' := (placeAtTracked tracked known placed).1.formed
      have lasts := lasting p.value ((keeps.live tracked.formed formed' _).mpr alive') apart
        (u.isValueOfSites here) p.value (selfMemRing _ _) p.site here
      have names : (u.site p.site).resource? u.geometry = some (.register u.machine.result) := names
      cases site : u.site p.site with
      | register mask number => simp [site, Site.lasts] at lasts
      | memory m acquired => simp [site, Site.resource?] at names
      | constant q => simp [site, Site.resource?] at names
      | address q => simp [site, Site.resource?] at names
    obtain ⟨-, fewer⟩ := placeDead tracked.formed known dead placed
    have before : i ∈ (u.value v).sites := fewer v other i listed
    rw [keeps.geometry, lastsOfPlace (keeps.place i (h.formed.listed v i before))]
    exact lasting v alive other (u.isValueOfSites before) v (selfMemRing _ v) i before

/- If all that is read after a call was in its frame, or where callees leave it alone, then all but
the result is where the callee leaves it alone. -/
theorem callsLeaveNothingInRegisters {c : CallEvent} (coherent : s.Coherent lent)
    (returns : c.tail = false) (frame : s.FrameKnown e) (closed : ∀ v, s.Closed v)
    (awaits : s.Awaits e) (fresh : s.Fresh c.result) (ok : Compile.call e c s = .ok () s')
    (covered : ∀ v, s.IsValue v → s'.Live v → v ≠ c.result → s.InFrame e v ∨ s.Lasts c.popIndex v) :
    ∀ v, s'.Live v → v ≠ c.result → ∀ i ∈ (s'.value v).sites,
      (s'.site i).lasts s'.geometry c.popIndex = true := by
  obtain ⟨t, u, idle, cleaned, ends⟩ := callSteps returns ok
  have h := idle.tracked (trackedIff.mpr coherent)
  have size : t.values.size = s.values.size := by rw [idle.rest]
  have before : t.frameBefore e = s.frameBefore e := by
    rw [idle.rest]
    rfl
  have frame' : t.FrameKnown e := by
    intro v inside
    have inside : v ∈ t.frameBefore e := inside
    rw [before] at inside
    rw [IsValue, size]
    exact frame v inside
  have closed' : ∀ v, t.Closed v := fun v => by
    unfold State.Closed
    rw [idle.value, idle.site]
    exact closed v
  have asked : s.reads.Evolves t.reads := by
    rw [idle.rest]
    exact .refl _
  obtain ⟨tracked, passes, lasts⟩ := cleanFrameSpec h frame' closed' (awaits.evolves asked) cleaned
  have known : t.IsValue c.result := by
    rw [IsValue, size]
    exact fresh.known
  intro v alive other i listed
  refine returnsLast tracked ((passes.isValue _).mpr known) ends (fun w alive other inside => ?_) ?_ alive
    other listed
  · refine lasts w ((passes.isValue w).mp inside) ?_
    have there : s.IsValue w := by
      rw [IsValue, ← size]
      exact (passes.isValue w).mp inside
    rcases covered w there alive other with ⟨x, shown, member⟩ | safe
    · exact .inl ⟨x, by rwa [before], by rwa [idle.ring]⟩
    · refine .inr fun x member j inside => ?_
      rw [idle.ring] at member
      rw [idle.value] at inside
      have geometry : t.geometry = s.geometry := by rw [idle.rest]
      rw [idle.site, geometry]
      exact safe x member j inside
  · -- the result is new, so it has no alias that could have left it anything
    refine List.eq_nil_iff_forall_not_mem.mpr fun j there => ?_
    obtain ⟨w, member, had⟩ := passes.listed _ j there
    rw [idle.ring, State.ringAlone fresh.alone, List.mem_singleton] at member
    rw [idle.value, member, fresh.bare] at had
    cases had

/-! A helper is called while a sum is kept. -/

namespace Sample

/-- A sum is returned after a float operation that only a helper can do. With `pushed` the sum is on
the stack meanwhile. -/
def helped (pushed : Bool) : Build Unit := do
  modify fun s => s.start 1 0 0 2
  Method.startInstruction 0
  let sum ← Method.combine .add 8 (← Method.register X64.rcx) (← Method.register X64.rdx)
  if pushed then Method.push 1 sum
  let k ← Method.constant divisor .float
  discard (Method.combine .floatRemainder 8 k k)
  Method.leave (some sum)

end Sample

def State.equipped : State := { blank with helpers := some fun _ _ _ => Sample.helper }

def EventKind.call? : EventKind → Option CallEvent
  | .call c => some c
  | _ => none

/-- The event is a call and leaves a value that is read later, other than its result, in a register. -/
def State.LeavesInRegister (s : State) (e : EventId) : Prop :=
  ∃ c ∈ (s.event e).kind.call?, c.tail = false ∧ Reaches (Compile.call e c) s fun s' =>
    ∃ k < s'.values.size, ⟨k⟩ ≠ c.result ∧ s'.Live ⟨k⟩ ∧
      ∃ i ∈ (s'.value ⟨k⟩).sites, (s'.site i).kind = .register

instance (s : State) (e : EventId) : Decidable (s.LeavesInRegister e) :=
  inferInstanceAs (Decidable (∃ _ ∈ _, _))

/- A sum that nobody pushed is in a register that the helper may write. -/
theorem helpedLeavesInRegister :
    Succeeds (do Sample.helped false; Compile.method none 0) equipped ∧
      Reaches (do Sample.helped false; Compile.upTo none 0 2; Compile.approach ⟨2⟩) equipped
        fun s => s.LeavesInRegister ⟨2⟩ := by
  decide +kernel

/-! Only the entries that exist have to be looked at. -/

theorem awaitsOf (formed : s.WellFormed) (all : ∀ k < s.reads.size,
    (s.reads.get ⟨k⟩).event = some e → (s.reads.valid ⟨k⟩).1 = true) : s.Awaits e := by
  intro r own
  by_cases known : s.reads.IsRead r
  · exact (ReadTable.validIff formed.reads.ordered r).mp (all r.index known own)
  · rw [ReadTable.outside known] at own
    cases own

theorem closedOf (all : ∀ k < s.values.size, s.Closed ⟨k⟩) (v : ValueId) : s.Closed v :=
  fun i listed => all v.index (s.isValueOfSites listed) i listed

instance : Decidable (s.FrameKnown e) := inferInstanceAs (Decidable (∀ _ ∈ _, _))

instance : Decidable (s.InFrame e v) := inferInstanceAs (Decidable (∃ _ ∈ _, _))

instance : Decidable (s.Lasts popIndex v) := inferInstanceAs (Decidable (∀ _ ∈ _, _))

instance : Decidable (s.Fresh v) :=
  decidable_of_iff (s.IsValue v ∧ (s.value v).next = v ∧ (s.value v).sites = [])
    ⟨fun ⟨known, alone, bare⟩ => ⟨known, alone, bare⟩, fun ⟨known, alone, bare⟩ => ⟨known, alone, bare⟩⟩

/- A sum on the stack is in its slot while the helper is called. -/
theorem helpedLeavesNothing : ∃ s c s', Compile.call ⟨2⟩ c s = .ok () s' ∧ c.tail = false ∧
    (∃ v, s'.Live v ∧ v ≠ c.result ∧ (s'.value v).sites ≠ []) ∧
    ∀ v, s'.Live v → v ≠ c.result → ∀ i ∈ (s'.value v).sites,
      (s'.site i).lasts s'.geometry c.popIndex = true := by
  obtain ⟨_, s, -, c, -, returns, coherent, frame, closed, awaits, fresh, ⟨⟩, s', ok, covered, alive⟩ :
      Reaches (do Sample.helped true; Compile.upTo none 0 2; Compile.approach ⟨2⟩) equipped
        fun s => ∃ c ∈ (s.event ⟨2⟩).kind.call?, c.tail = false ∧ s.Coherent [] ∧ s.FrameKnown ⟨2⟩ ∧
          (∀ k < s.values.size, s.Closed ⟨k⟩) ∧
          (∀ k < s.reads.size, (s.reads.get ⟨k⟩).event = some ⟨2⟩ → (s.reads.valid ⟨k⟩).1 = true) ∧
          s.Fresh c.result ∧ Reaches (Compile.call ⟨2⟩ c) s fun s' =>
            (∀ k < s.values.size, s'.Live ⟨k⟩ → ⟨k⟩ ≠ c.result →
              s.InFrame ⟨2⟩ ⟨k⟩ ∨ s.Lasts c.popIndex ⟨k⟩) ∧
            ∃ k < s'.values.size, s'.Live ⟨k⟩ ∧ ⟨k⟩ ≠ c.result ∧ (s'.value ⟨k⟩).sites ≠ [] := by
    decide +kernel
  obtain ⟨k, -, alive⟩ := alive
  exact ⟨s, c, s', ok, returns, ⟨⟨k⟩, alive⟩, callsLeaveNothingInRegisters coherent returns frame
    (closedOf closed) (awaitsOf coherent.formed awaits) fresh ok fun v known => covered v.index known⟩

end Lowering
