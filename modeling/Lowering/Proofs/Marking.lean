import Lowering.Proofs.Scheduling
/-!
The links of paths.

A path that was opened on a saved state begins with the next link that is made, which leaves that state. Any call
of a client keeps the events and the links in order, and only going back to a state or saving one changes which
state the next link leaves.
-/
namespace Lowering

open Build State

section

variable {s s' t u : State} {es : List EventId} {e : EventId} {kind : EventKind}

/-! Control flow. -/

theorem boundsAt {ip : Int} {i : Instruction} (found : s.instruction? ip = some i) :
    some (i.firstEvent, i.lastEvent) ∈ s.bounds := by
  unfold instruction? at found
  split at found
  · cases found
  · rw [Array.getD_eq_getD_getElem?] at found
    cases here : s.instructions[(ip + 1).toNat]? with
    | none => simp [here] at found
    | some j =>
      rw [here] at found
      cases found
      exact Array.mem_map.mpr ⟨some i, Array.mem_of_getElem? here, rfl⟩

theorem State.Proceeds.restarts (links : s'.links = s.links) (events : s'.events = s.events) (forks : s'.forks = s.forks)
    (place : (s'.firstEvent, s'.lastEvent, s'.predecessor, s'.fork) = (s.firstEvent, s.lastEvent, s.predecessor, s.fork))
    (bounds : ∀ p, some p ∈ s'.bounds → some p ∈ s.bounds ∨ p = (none, none)) : s.Proceeds s' := by
  simp only [Prod.mk.injEq] at place
  obtain ⟨firstEvent, lastEvent, predecessor, fork⟩ := place
  refine ⟨⟨forks, by rw [links], fun l _ => by rw [link, link, links], by rw [predecessor]; exact id, fun _ _ => fork, ?_⟩,
    by rw [events], fun es scheduled => ⟨[], by simp, ?_⟩⟩
  · rw [links]
    exact fun _ more => absurd more (Nat.lt_irrefl _)
  · rw [List.append_nil]
    refine scheduled.rebound links events forks (by rw [firstEvent, lastEvent, predecessor]) fun p member => ?_
    rcases bounds p member with old | rfl
    · exact scheduled.bounded p old
    · exact ⟨by simp, by simp⟩

theorem calmGiven {α : Type} (v : ValueId) (k : ReadKind) (answer : ReadId → α) : Within Calm (do
    let r ← modifyGet fun s => ((s.reads.push v k).1, { s with reads := (s.reads.push v k).2 })
    linkRead none v r
    return answer r : Build α) := by
  refine ⟨fun s => ?_⟩
  rw [afterModifyGet, afterBindPure]
  exact calmGive none v k s

namespace Method

theorem calmVisitRoots (ip : Nat) : Within Calm (visitRoots ip) := by
  refine .bind .get fun s => ?_
  split
  · exact .modify fun _ => .still rfl rfl rfl rfl rfl
  · exact .throw

theorem calmRecordFrame : Within Calm recordFrame := by
  refine .modify fun s => ?_
  cases s.predecessor with
  | none => exact .refl s
  | some p => exact .modifyEvent s p (fun _ => rfl) (fun _ => rfl) fun _ => rfl

theorem calmPlantStubs (l : LinkId) : Within Calm (plantStubs l) := by
  refine .bind .get fun s => .bind (.foldlM (fun stubs slot => ?_) _) fun stubs => .modify fun s => ?_
  · exact calmGiven slot.1 (.stub none none true) _
  · have links : (s.links.modify l.index fun d => { d with stubs }).map (·.fork) = s.links.map (·.fork) :=
      mapModify (f := fun d : Link => { d with stubs }) (g := Link.fork) (fun _ => rfl) l.index
    exact ⟨rfl, rfl, rfl, rfl, rfl, rfl, rfl, links, rfl, fun _ => ⟨rfl, rfl, rfl⟩⟩

end Method

def State.leadBack (s : State) (p target last : EventId) : State :=
  (s.newLink p target s.fork).2.modifyEvent last fun d => { d with revisits := d.revisits ++ [⟨s.links.size⟩] }

theorem stringsNewLink (s : State) (p target : EventId) : s.Strings (s.newLink p target s.fork).2 := by
  have links : (s.newLink p target s.fork).2.links = s.links.push { predecessor := p, successor := target, fork := s.fork } := rfl
  refine ⟨rfl, by rw [links]; simp, fun l known => ?_, id, fun _ same => ?_, fun _ _ => ?_⟩
  · simp only [link, links, Array.getD_eq_getD_getElem?, Array.getElem?_push, if_neg (Nat.ne_of_lt known)]
  · rw [links, Array.size_push] at same
    omega
  · simp [link, links]

theorem State.leadBackRest (s : State) (p target last : EventId) :
    (s.leadBack p target last).firstEvent = s.firstEvent ∧ (s.leadBack p target last).lastEvent = s.lastEvent ∧
      (s.leadBack p target last).predecessor = s.predecessor ∧ (s.leadBack p target last).bounds = s.bounds ∧
      (s.leadBack p target last).forks = s.forks := by
  simp only [leadBack, newLink, modifyEvent, bounds, and_self]

theorem scheduledLeadBack (scheduled : s.Scheduled es) {p target last : EventId} (member : target ∈ es)
    (ends : s.lastEvent = some last) : (s.leadBack p target last).Scheduled es := by
  rw [scheduled.last] at ends
  have inside : last ∈ es := List.mem_of_getLast? ends
  obtain ⟨before, rfl⟩ := List.getLast?_eq_some_iff.mp ends
  have event : ∀ x, ((s.leadBack p target last).event x).predecessors =
        (if x = target then (s.event x).predecessors ++ [⟨s.links.size⟩] else (s.event x).predecessors) ∧
      ((s.leadBack p target last).event x).revisits =
        (if x = last then (s.event x).revisits ++ [⟨s.links.size⟩] else (s.event x).revisits) ∧
      ((s.leadBack p target last).event x).following = (s.event x).following := by
    intro x
    obtain ⟨predecessors, revisits, following⟩ := eventNewLink s p target s.fork x
    have size : (s.newLink p target s.fork).2.events.size = s.events.size := by simp [newLink, modifyEvent]
    rw [leadBack, eventModify, size]
    simp only [scheduled.known target member, and_true] at predecessors
    split
    · rename_i here
      obtain ⟨rfl, -⟩ := here
      exact ⟨predecessors, by rw [if_pos rfl, revisits], following⟩
    · rename_i other
      have apart : x ≠ last := fun same => other ⟨same, scheduled.known last inside⟩
      exact ⟨predecessors, by rw [if_neg apart, revisits], following⟩
  have links : (s.leadBack p target last).links.size = s.links.size + 1 := by simp [leadBack, newLink, modifyEvent]
  have once := scheduled.once
  obtain ⟨firstEvent, lastEvent, predecessor, bounds, forks⟩ := s.leadBackRest p target last
  refine ⟨by rw [firstEvent, scheduled.first], by rw [lastEvent, scheduled.last], fun x known => ?_, once,
    fun before x later split => ?_, fun x outside => ?_, fun x known => ?_, fun entry => ?_,
    by rw [predecessor]; exact scheduled.placed, by rw [bounds]; exact scheduled.bounded,
    by rw [forks]; exact scheduled.forks⟩
  · exact (scheduled.known x known).trans_eq (by simp [leadBack, newLink, modifyEvent])
  · rw [(event x).2.2]
    exact scheduled.chain before x later split
  · rw [(event x).1, (event x).2.1, (event x).2.2, if_neg fun same => outside (by rw [same]; exact member),
      if_neg fun same => outside (by rw [same]; exact inside)]
    exact scheduled.bare x outside
  · rw [(event x).1]
    split
    · simp
    · exact scheduled.entered x known
  · have entry' : ∀ e ∈ (before ++ [last]).head?, (s.event e).predecessors = [] := fun e head => by
      have here := entry e head
      rw [(event e).1] at here
      split at here
      · simp at here
      · exact here
    have heads : ∀ x ∈ before ++ [last],
        ((s.leadBack p target last).event x).predecessors.head? = (s.event x).predecessors.head? := by
      intro x known
      rw [(event x).1]
      split
      · rename_i same
        obtain ⟨y, ys, here⟩ : ∃ y ys, (s.event x).predecessors = y :: ys := by
          refine List.exists_cons_of_ne_nil ?_
          have place : (before ++ [last]).head? = some x ∨ x ∈ (before ++ [last]).tail := by
            generalize before ++ [last] = xs at known ⊢
            cases xs with
            | nil => cases known
            | cons y rest => simpa [eq_comm] using known
          rcases place with head | later
          · have none := entry x head
            rw [(event x).1, if_pos same] at none
            simp at none
          · exact scheduled.entered x later
        rw [here]
        rfl
      · rfl
    have routes : ∀ x ∈ before, (s.leadBack p target last).route x = s.route x := fun x known => by
      have apart : x ≠ last := fun same => (List.nodup_append.mp once).2.2 x known last (by simp) same
      rw [route, heads x (List.mem_append_left _ known), (event x).2.1, if_neg apart, route]
    have own : (s.leadBack p target last).route last = s.route last ++ [⟨s.links.size⟩] := by
      rw [route, heads last (by simp), (event last).2.1, if_pos rfl, ← List.append_assoc, route]
    have order := scheduled.order entry'
    rw [List.flatMap_append, List.flatMap_singleton] at order ⊢
    rw [List.flatMap_congr routes, own, ← List.append_assoc, order, links, List.range_succ, List.map_append]
    rfl

def plantLast (l : LinkId) : Build Unit := do
  match (← get).lastEvent with
  | none => Build.invariant .noLastEvent
  | some last =>
    modify fun s => s.modifyEvent last fun d => { d with revisits := d.revisits ++ [l] }
    plantStubs l

theorem linkedBack (s : State) (p target : EventId) : s.Strings (after (Method.linkBack p target) s) ∧
    s.links.size < (after (Method.linkBack p target) s).links.size ∧
    (after (Method.linkBack p target) s).events.size = s.events.size ∧
    ∀ es, target ∈ es → s.Scheduled es → (after (Method.linkBack p target) s).Scheduled es := by
  have recorded := Method.calmRecordFrame.keeps s
  have steps : after (Method.linkBack p target) s = after (plantLast ⟨(after Method.recordFrame s).links.size⟩)
      ((after Method.recordFrame s).newLink p target (after Method.recordFrame s).fork).2 := rfl
  rw [steps]
  generalize after Method.recordFrame s = u at recorded ⊢
  have strings := stringsNewLink u p target
  have more : (u.newLink p target u.fork).2.links.size = u.links.size + 1 := by simp [newLink, modifyEvent]
  have size : (u.newLink p target u.fork).2.events.size = u.events.size := by simp [newLink, modifyEvent]
  rw [← recorded.linkCount, ← recorded.size, plantLast, afterGet,
    show (u.newLink p target u.fork).2.lastEvent = u.lastEvent from rfl]
  cases ends : u.lastEvent with
  | none =>
    refine ⟨(Strings.calm recorded).trans strings, more.ge, size, fun es member scheduled => ?_⟩
    rw [recorded.lastEvent, scheduled.last, List.getLast?_eq_none_iff] at ends
    rw [ends] at member
    cases member
  | some last =>
    change s.Strings (after (plantStubs _) (u.leadBack p target last)) ∧ _
    have calm := (Method.calmPlantStubs ⟨u.links.size⟩).keeps (u.leadBack p target last)
    have strings : u.Strings (u.leadBack p target last) := ⟨strings.forks, strings.links, strings.kept, strings.placed,
      strings.still, strings.next⟩
    refine ⟨(Strings.calm recorded).trans (strings.trans (.calm calm)), ?_, ?_, fun es member scheduled => ?_⟩
    · exact (more.ge : u.links.size < _).trans_eq calm.linkCount.symm
    · exact calm.size.trans ((by simp [leadBack, modifyEvent] : _ = _).trans size)
    · exact (scheduledLeadBack (scheduled.calm recorded) member ends).calm calm

theorem State.Strings.forgets (strings : s.Strings t) (made : s.predecessor.isSome → s.links.size < t.links.size)
    (links : s'.links = t.links) (forks : s'.forks = t.forks) (predecessor : s'.predecessor = t.predecessor) :
    s.Strings s' := by
  have link : s'.link = t.link := by funext l; simp only [State.link, links]
  refine ⟨forks.trans strings.forks, by rw [links]; exact strings.links, by rw [link]; exact strings.kept,
    by rw [predecessor]; exact strings.placed, fun placed same => ?_, by rw [links, link]; exact strings.next⟩
  rw [links] at same
  exact absurd same (made placed).ne'

namespace Method

theorem proceedsLeaveTo (ip : Nat) (i : Instruction) (strings : s.Strings t)
    (made : s.predecessor.isSome → s.links.size < t.links.size) (size : t.events.size = s.events.size)
    (scheduled : ∀ es, s.Scheduled es → t.Scheduled es) : s.Proceeds (after (leaveTo ip i) t) := by
  rw [leaveTo, afterModify]
  refine Proceeds.trans (t := leaving i t) ⟨strings.forgets made rfl rfl rfl, size.ge, fun es before => ⟨[], nofun, ?_⟩⟩
    (.calm ((calmVisitRoots ip).keeps (leaving i t)))
  rw [List.append_nil]
  exact (scheduled es before).rebound rfl rfl rfl rfl (scheduled es before).bounded

theorem proceedsVisitInstruction (ip : Nat) : Within Proceeds (visitInstruction ip) := by
  refine .bind proceedsEnsureEvent fun _ => ⟨fun s => ?_⟩
  cases found : s.instruction? (signed 32 ip) with
  | none =>
    rw [afterBindError (by rw [foundInstruction, found])]
    exact .calm (.refl s)
  | some i =>
    rw [afterBindOk (by rw [foundInstruction, found])]
    cases first : i.firstEvent with
    | none => exact .calm (.refl s)
    | some target =>
      rw [afterGet]
      cases placed : s.predecessor with
      | none => exact proceedsLeaveTo ip i (.calm (.refl s)) (by simp [placed]) rfl fun _ => id
      | some p =>
        obtain ⟨strings, made, size, scheduled⟩ := linkedBack s p target
        have back : ∀ es, s.Scheduled es → (after (linkBack p target) s).Scheduled es := fun es before => by
          have bounded := before.bounded (i.firstEvent, i.lastEvent) (boundsAt found)
          exact scheduled es (bounded.1 target first) before
        dsimp only
        cases ran : linkBack p target s with
        | error err t =>
          rw [after, ran] at strings size back
          rw [afterBindError ran]
          exact ⟨strings, size.ge, fun es before => ⟨[], by simp, by rw [List.append_nil]; exact back es before⟩⟩
        | ok a t =>
          rw [after, ran] at strings size made back
          rw [afterBindOk ran]
          exact proceedsLeaveTo ip i strings (fun _ => made) size back

theorem proceedsStartInstruction (ip : Nat) : Within Proceeds (startInstruction ip) := by
  have roots : Within Proceeds (visitRoots ip) := (calmVisitRoots ip).mono .calm
  have rest : Within Proceeds (do
      ensureEvent
      recordFrame
      let subroutine := (← get).subroutine
      modify fun s =>
        let entry : Instruction := { stack := s.stack, locals := s.locals, subroutine }
        { s with
          subroutine := none
          ip := ip
          instructions := s.instructions.modify (ip + 1) fun _ => some entry }
      if subroutine.isSome then declareMissing
      visitRoots ip : Build Unit) := by
    refine .bind proceedsEnsureEvent fun _ => .bind (calmRecordFrame.mono .calm) fun _ => .bind .get fun s => ?_
    refine .bind (.modify fun s => .restarts rfl rfl rfl rfl fun p member => ?_) fun _ => ?_
    · obtain ⟨i, inside, same⟩ := Array.mem_map.mp member
      dsimp only at inside
      rcases memModify inside with old | ⟨j, old, rfl⟩
      · exact .inl (Array.mem_map.mpr ⟨i, old, same⟩)
      · exact .inr (Option.some.inj same).symm
    · exact .ite (.bind proceedsSuits.declareMissing fun _ => roots) roots
  refine .bind .get fun s => .ite (.bind .throw fun _ => ?_) ?_
  · exact .bind .get fun s => .ite (.bind .throw fun _ => rest) rest
  · exact .bind .get fun s => .ite (.bind .throw fun _ => rest) rest

theorem calmGathers : Within Calm (do
    let saved := (← get).saved
    modify fun s => { s with saved := [] }
    let s ← get
    let values := if s.predecessor.isSome then s.frames.values s.stack s.locals ++ saved else []
    let forks ← values.mapM giveFork
    return (saved, forks) : Build (List ValueId × List (ValueId × ReadId))) := by
  refine .bind .get fun _ => .bind (.modify fun s => .still rfl rfl rfl rfl rfl) fun _ => ?_
  exact .bind .get fun _ => .bind (.mapM fun v => calmGiven v (.fork [] [] 0) fun r => (v, r)) fun _ => .pure

theorem proceedsGather : Within Proceeds gatherForks := .bind proceedsEnsureEvent fun _ => calmGathers.mono .calm

end Method

theorem proceedsStart (codeLength parameterFootprint localFootprint frameSize : Nat) :
    s.Proceeds (s.start codeLength parameterFootprint localFootprint frameSize) := by
  refine .restarts rfl rfl rfl rfl fun p member => ?_
  simp only [bounds, start, FrameTable.init] at member
  obtain ⟨i, inside, same⟩ := Array.mem_map.mp member
  rcases Array.mem_append.mp inside with first | later
  · rw [Array.mem_singleton.mp first] at same
    exact .inr (Option.some.inj same).symm
  · rw [(Array.mem_replicate.mp later).2] at same
    cases same

/-! Where there is an event. -/

def State.Manned (s : State) : Prop := ∃ i, s.instruction? s.ip = some i ∧ i.lastEvent.isSome

theorem instructionBounds (s : State) (ip : Int) : (s.instruction? ip).map (fun i => (i.firstEvent, i.lastEvent)) =
    if ip < -1 then none else s.bounds.getD (ip + 1).toNat none := by
  unfold instruction? bounds
  split
  · rfl
  · simp only [Array.getD_eq_getD_getElem?, Array.getElem?_map]
    cases s.instructions[(ip + 1).toNat]? <;> rfl

theorem State.Calm.manned (calm : s.Calm s') (manned : s.Manned) : s'.Manned := by
  obtain ⟨i, here, last⟩ := manned
  have same : (s'.instruction? s'.ip).map (fun i => (i.firstEvent, i.lastEvent)) = some (i.firstEvent, i.lastEvent) := by
    rw [instructionBounds, calm.ip, calm.bounds, ← instructionBounds, here]
    rfl
  obtain ⟨j, here', same⟩ := Option.map_eq_some_iff.mp same
  exact ⟨j, here', by rw [(Prod.mk.inj same).2]; exact last⟩

theorem State.Scheduled.manned (scheduled : s.Scheduled es) (manned : s.Manned) : s.predecessor.isSome := by
  obtain ⟨i, here, last⟩ := manned
  obtain ⟨e, last⟩ := Option.isSome_iff_exists.mp last
  exact scheduled.placed (List.ne_nil_of_mem ((scheduled.bounded _ (boundsAt here)).2 e last))

theorem ensureManned (manned : s.Manned) : ensureEvent s = .ok () s := by
  obtain ⟨i, here, last⟩ := manned
  obtain ⟨e, last⟩ := Option.isSome_iff_exists.mp last
  rw [ensureEvent, getBind]
  simp only [bind, EStateM.bind, foundInstruction, here, last]
  rfl

theorem ipLineUp (s : State) (e x : EventId) : ((s.lineUp e).event x).ip = (s.event x).ip := by
  have kept : (s.lineUp e).events.map (·.ip) = s.events.map (·.ip) := by
    unfold lineUp
    dsimp only
    cases s.lastEvent <;> cases predecessor : s.predecessor <;> simp [modifyEvent, newLink, predecessor, mapModify]
  exact getDMap kept x.index default

theorem linkedInside {ip : Int} (linked : linkEvent e s = .ok () t) (of : (s.event e).ip = ip) :
    ∃ i, t.instruction? ip = some i ∧ i.lastEvent = some e := by
  rw [linkedEvent, ipLineUp, of] at linked
  cases here : (s.lineUp e).instruction? ip with
  | none => simp [here] at linked
  | some i =>
    rw [here] at linked
    cases linked
    refine ⟨i.lengthen e, ?_, rfl⟩
    unfold instruction? at here ⊢
    split at here
    · cases here
    · rename_i inside
      rw [if_neg inside]
      rw [Array.getD_eq_getD_getElem?] at here ⊢
      simp only [State.tell, ipLineUp, of, Array.getElem?_modify, if_pos]
      cases slot : (s.lineUp e).instructions[(ip + 1).toNat]? with
      | none => simp [slot] at here
      | some j =>
        rw [slot] at here
        cases here
        rfl

theorem mansEnsureEvent (ensured : ensureEvent s = .ok () t) : t.Manned := by
  rw [ensureEvent, getBind] at ensured
  simp only [bind, EStateM.bind, foundInstruction] at ensured
  cases here : s.instruction? s.ip with
  | none => simp [here] at ensured
  | some entry =>
    simp only [here] at ensured
    cases last : entry.lastEvent with
    | some e =>
      rw [last] at ensured
      cases ensured
      exact ⟨entry, here, by rw [last]; rfl⟩
    | none =>
      rw [last] at ensured
      have dummy : appendDummy s = .ok () t := ensured
      have steps : appendDummy s = (instructionAt s.ip >>= appendDummyIn s.stack s.locals) s := rfl
      rw [steps] at dummy
      obtain ⟨entry', s₁, found, dummy⟩ := bindOk.mp dummy
      rw [foundInstruction, here] at found
      cases found
      rw [appendDummyIn, modifyBind] at dummy
      obtain ⟨u, ran, rfl⟩ := ensuringOk.mp dummy
      rw [createEvent, modifyGetBind] at ran
      have links := (linksLinkEvent _).holds ran
      have ip : u.ip = s.ip := by rw [links]
      obtain ⟨i, inside, ends⟩ := linkedInside ran (by rw [eventCreated, if_pos rfl])
      exact ⟨i, by rw [ip]; exact inside, by rw [ends]; rfl⟩

theorem Method.mansGather {p : List ValueId × List (ValueId × ReadId)} (gathered : gatherForks s = .ok p t) : t.Manned := by
  obtain ⟨⟨⟩, u, ensured, gathered⟩ := bindOk.mp gathered
  exact (calmGathers.holds gathered).manned (mansEnsureEvent ensured)

/-! A new event has a link. -/

theorem linkGrows (linked : linkEvent e s = .ok () t) (placed : s.predecessor.isSome) : s.links.size < t.links.size := by
  obtain ⟨p, here⟩ := Option.isSome_iff_exists.mp placed
  have links : t.links = (s.lineUp e).links := by
    rcases afterLinkEvent e s with same | same <;> rw [← afterOk linked, same]
    rfl
  rw [links, lineUpLinks, here]
  simp

theorem appendGrows (appended : appendEvent e s = .ok () t) (placed : s.predecessor.isSome) : s.links.size < t.links.size := by
  rw [appendSteps] at appended
  cases here : s.instruction? s.ip with
  | none =>
    rw [here] at appended
    exact (throwOk.mp appended).elim
  | some entry =>
    rw [here] at appended
    dsimp only at appended
    split at appended
    · obtain ⟨⟨⟩, u, dummy, linked⟩ := bindOk.mp appended
      have strings := (proceedsAppendDummy.holds dummy).toStrings
      exact strings.links.trans_lt (linkGrows linked (strings.placed placed))
    · exact linkGrows appended placed

theorem operationGrows {reads : EventId → Build Unit} (each : ∀ e, Within Calm (reads e))
    (ran : Append.operation kind reads s = .ok () t) (placed : s.predecessor.isSome) : s.links.size < t.links.size := by
  rw [Append.operation, createEvent, modifyGetBind] at ran
  obtain ⟨⟨⟩, u, gave, appended⟩ := bindOk.mp ran
  have calm := (each _).holds gave
  exact calm.linkCount.symm.trans_lt (appendGrows appended (by rw [calm.predecessor]; exact placed))

theorem jumpGrows {j : JumpEvent} (ran : Append.jump j s = .ok () t) (placed : s.predecessor.isSome) :
    s.links.size < t.links.size := by
  rw [Append.jump, getBind] at ran
  dsimp only at ran
  split at ran
  · obtain ⟨_, _, failed, _⟩ := bindOk.mp ran
    exact (invalidOk.mp failed).elim
  · exact operationGrows (fun e => proceedsSuits.demand ..) ran placed

/-! The links of paths. -/

namespace State

variable {opened paths paths' : List OpenedPath} {f : ForkId}

/-- A path begins with its link. As long as that has not been made, the next link leaves the state of the path. -/
structure Marks (opened : List OpenedPath) (s : State) : Prop where
  made : ∀ o ∈ opened, o.link.index < s.links.size → (s.link o.link).fork = some o.fork
  bound : ∀ o ∈ opened, o.link.index ≤ s.links.size
  pending : ∀ o ∈ opened, o.link.index = s.links.size → s.fork = some o.fork
  placed : opened ≠ [] → s.predecessor.isSome

theorem Marks.strings (marks : s.Marks opened) (strings : s.Strings s') : s'.Marks opened := by
  have placed : ∀ o ∈ opened, s.predecessor.isSome := fun o member => marks.placed (List.ne_nil_of_mem member)
  refine ⟨fun o member known => ?_, fun o member => (marks.bound o member).trans strings.links, fun o member same => ?_,
    fun nonempty => strings.placed (marks.placed nonempty)⟩
  · rcases Nat.lt_or_eq_of_le (marks.bound o member) with old | next
    · rw [strings.kept o.link old]
      exact marks.made o member old
    · have here : o.link = ⟨s.links.size⟩ := congrArg LinkId.mk next
      rw [here, strings.next (placed o member) (by rwa [next] at known)]
      exact marks.pending o member next
  · have before := marks.bound o member
    have later := strings.links
    have here : s'.links.size = s.links.size := by omega
    rw [strings.still (placed o member) here]
    exact marks.pending o member (same.trans here)

structure Strung (opened : List OpenedPath) (s : State) : Prop where
  scheduled : ∃ es, s.Scheduled es
  marks : s.Marks opened

theorem Proceeds.strung (proceeds : s.Proceeds s') (strung : s.Strung opened) : s'.Strung opened := by
  obtain ⟨es, scheduled⟩ := strung.scheduled
  obtain ⟨more, -, later⟩ := proceeds.scheduled es scheduled
  exact ⟨⟨_, later⟩, strung.marks.strings proceeds.toStrings⟩

def Apart (opened : List OpenedPath) : Prop := opened.Pairwise (·.link.index < ·.link.index)

instance (opened : List OpenedPath) : Decidable (Apart opened) := inferInstanceAs (Decidable (opened.Pairwise _))

def Threads (paths : List OpenedPath) (s s' : State) : Prop :=
  ∀ opened, s.Strung opened → Apart (opened ++ paths) → s'.Strung (opened ++ paths)

theorem Threads.trans (first : s.Threads paths t) (second : t.Threads paths' s') : s.Threads (paths ++ paths') s' := by
  intro opened strung apart
  rw [← List.append_assoc] at apart ⊢
  exact second _ (first opened strung (List.pairwise_append.mp apart).1) apart

theorem Proceeds.threads (proceeds : s.Proceeds s') : s.Threads [] s' := fun opened strung _ => by
  rw [List.append_nil]
  exact proceeds.strung strung

end State

namespace Method

variable {opened : List OpenedPath} {f : ForkId}

theorem endowsForks (forks : List (ValueId × ReadId)) (s : State) : s.Endows (forks.foldl openFork s) := by
  induction forks generalizing s with
  | nil => exact Std.Refl.refl s
  | cons p rest ih => exact Trans.trans (show s.Endows (s.openFork p) from rfl) (ih _)

theorem forkPlaced (scheduled : s.Scheduled es) (inside : f.index < s.forks.size) : (s.forkAt f).predecessor.isSome := by
  refine scheduled.forks _ ?_
  rw [forkAt, Array.getD_eq_getD_getElem?, Array.getElem?_eq_getElem inside]
  exact Array.getElem_mem inside

theorem threadsReturn (inside : f.index < s.forks.size) : s.Threads (s.openings f) (returnTo f s) := by
  intro opened strung apart
  obtain ⟨es, scheduled⟩ := strung.scheduled
  have placed := forkPlaced scheduled inside
  have opens : s.openings f = [⟨f, s.reads.size, ⟨s.links.size⟩⟩] := if_pos placed
  obtain ⟨p, here⟩ := Option.isSome_iff_exists.mp placed
  rw [opens] at apart ⊢
  have older : ∀ o ∈ opened, o.link.index < s.links.size := fun o member =>
    (List.pairwise_append.mp apart).2.2 o member _ (List.mem_singleton_self _)
  let u : State := { s with
    stack := (s.forkAt f).stack, locals := (s.forkAt f).locals, predecessor := some p, ip := (s.forkAt f).ip, fork := some f }
  have same : returnTo f s = (s.forkAt f).forks.foldl openFork u := by
    unfold returnTo
    dsimp only
    rw [here]
    rfl
  have calm : u.Calm (returnTo f s) := by
    rw [same, endowsForks _ u]
    exact .still rfl rfl rfl rfl rfl
  have ordered : u.Scheduled es := ⟨scheduled.first, scheduled.last, scheduled.known, scheduled.once, scheduled.chain,
    scheduled.bare, scheduled.entered, scheduled.order, fun _ => rfl, scheduled.bounded, scheduled.forks⟩
  refine ⟨⟨es, ordered.calm calm⟩, Marks.strings ⟨fun o member known => ?_, fun o member => ?_, fun o member last => ?_,
    fun _ => rfl⟩ (.calm calm)⟩
  · rcases List.mem_append.mp member with old | new
    · exact strung.marks.made o old known
    · cases List.mem_singleton.mp new
      exact absurd known (Nat.lt_irrefl _)
  · rcases List.mem_append.mp member with old | new
    · exact (older o old).le
    · cases List.mem_singleton.mp new
      exact le_rfl
  · rcases List.mem_append.mp member with old | new
    · exact absurd last (older o old).ne
    · cases List.mem_singleton.mp new
      rfl

theorem threadsRestore (inside : f.index < s.forks.size) : s.Threads (s.reopenings f) (after (restoreState f) s) := by
  unfold reopenings
  rw [restoreReturns]
  cases ensured : ensureEvent s with
  | error e t =>
    rw [afterBindError ensured]
    exact (proceedsEnsureEvent.fails ensured).threads
  | ok a t =>
    rw [afterBindOk ensured]
    have proceeds := proceedsEnsureEvent.holds ensured
    exact proceeds.threads.trans (threadsReturn (by rwa [proceeds.forks]))

theorem keptStrung (strung : s.Strung opened) (ran : captureState s = .ok f t) :
    t.Manned ∧ (t.forkAt f).predecessor.isSome ∧ s.links.size ≤ t.links.size ∧
      ((∀ o ∈ opened, o.link.index < t.links.size) → t.Strung opened) := by
  rw [captureGathers] at ran
  obtain ⟨p, u, gathered, kept⟩ := bindOk.mp ran
  have proceeds := proceedsGather.holds gathered
  have manned := mansGather gathered
  have before := proceeds.strung strung
  obtain ⟨es, scheduled⟩ := before.scheduled
  have placed := scheduled.manned manned
  obtain ⟨rfl, rfl⟩ := Prod.mk.inj (modifyGetOk.mp kept)
  refine ⟨manned, ?_, proceeds.links, fun made => ⟨⟨es, ?_⟩, ?_⟩⟩
  · rw [forkAtPush rfl, if_pos rfl]
    exact placed
  · refine ⟨scheduled.first, scheduled.last, scheduled.known, scheduled.once, scheduled.chain, scheduled.bare,
      scheduled.entered, scheduled.order, scheduled.placed, scheduled.bounded, fun d member => ?_⟩
    rcases Array.mem_push.mp member with old | rfl
    · exact scheduled.forks d old
    · exact placed
  · exact ⟨before.marks.made, before.marks.bound, fun o member last => absurd last (made o member).ne, before.marks.placed⟩

theorem captureFails {e : Error} (failed : captureState s = .error e t) : s.Proceeds t := by
  rw [captureGathers] at failed
  cases gathered : gatherForks s with
  | error e' u =>
    have same := afterBindError (f := fun p => keepFork p.1 p.2) gathered
    rw [after, failed] at same
    rw [show t = u from same]
    exact proceedsGather.fails gathered
  | ok p u =>
    simp only [bind, EStateM.bind, gathered] at failed
    cases failed

end Method

namespace ClientCall

theorem threadsSave : s.Threads (saveState.opens s) (after Method.saveState s) := by
  have saves : Method.saveState = Method.captureState >>= fun f => Method.restoreState f >>= fun _ => pure f := rfl
  unfold opens
  rw [saves]
  cases ran : Method.captureState s with
  | error e t =>
    rw [afterBindError ran]
    exact (Method.captureFails ran).threads
  | ok f t =>
    rw [afterBindOk ran, afterBindPure]
    intro opened strung apart
    obtain ⟨manned, placed, -, kept⟩ := Method.keptStrung strung ran
    have opens : t.reopenings f = [⟨f, t.reads.size, ⟨t.links.size⟩⟩] := by
      rw [reopenings, ensureManned manned]
      exact if_pos placed
    refine Method.threadsRestore (Method.capturedInside ran) opened (kept fun o member => ?_) apart
    dsimp only at apart
    rw [opens] at apart
    exact (List.pairwise_append.mp apart).2.2 o member _ (List.mem_singleton_self _)

theorem threadsReturning (r : SubroutineId) (address : ValueId) :
    s.Threads [] (after (Method.returnFromSubroutine r address) s) := by
  have saves : Within Proceeds Append.saveLocals := proceedsSuits.saveLocals
  have jumps : Within Proceeds (Append.jump { op := .jump, address, exit := false, cleanLocals := true }) := proceedsSuits.jump _
  intro opened strung _
  rw [List.append_nil, Method.returnFromSubroutine]
  cases saved : Append.saveLocals s with
  | error e t =>
    rw [afterBindError saved]
    exact (saves.fails saved).strung strung
  | ok a t =>
    have first := (saves.holds saved).strung strung
    rw [afterBindOk saved]
    cases jumped : Append.jump { op := .jump, address, exit := false, cleanLocals := true } t with
    | error e u =>
      rw [afterBindError jumped]
      exact (jumps.fails jumped).strung first
    | ok a u =>
      have second := (jumps.holds jumped).strung first
      rw [afterBindOk jumped]
      cases ran : Method.captureState u with
      | error e t' =>
        rw [afterBindError ran]
        exact (Method.captureFails ran).strung second
      | ok f t' =>
        rw [afterBindOk ran]
        obtain ⟨-, -, more, kept⟩ := Method.keptStrung second ran
        have strung' := kept fun o member => (first.marks.bound o member).trans_lt
          ((jumpGrows jumped (first.marks.placed (List.ne_nil_of_mem member))).trans_le more)
        have keeps : Within Proceeds (modify fun s : State =>
            { s with subroutines := s.subroutines.modify r.index fun _ => some f }) :=
          .modify fun _ => .calm (.still rfl rfl rfl rfl rfl)
        exact (keeps.keeps t').strung strung'

theorem threads {c : ClientCall} (describes : c.Describes) (fits : c.Fits fun _ => True) (grounded : c.Grounded s) :
    s.Threads (c.opens s) (after c.run s) := by
  cases c with
  | compile => exact describes.elim
  | start => exact (proceedsStart _ _ _ _).threads
  | visitInstruction ip => exact ((Method.proceedsVisitInstruction ip).keeps s).threads
  | startInstruction ip => exact ((Method.proceedsStartInstruction ip).keeps s).threads
  | saveState =>
    change s.Threads _ (after (discard Method.saveState) s)
    rw [afterDiscarded]
    exact threadsSave
  | restoreState f => exact Method.threadsRestore (grounded.2 f rfl)
  | returnFromSubroutine r address => exact threadsReturning r address
  | linkSubroutine r =>
    rw [run, Method.afterLinkSubroutine]
    simp only [opens, restores?]
    cases saved : s.subroutines.getD r.index none with
    | none => exact (Proceeds.calm (.refl s)).threads
    | some f => exact Method.threadsRestore (grounded.2 f saved)
  | _ => exact ((proceedsSuits.plain (by exact trivial) fits).keeps s).threads

end ClientCall

/-! Histories. -/

variable {calls : List ClientCall}

theorem historyThreads (describes : ∀ c ∈ calls, c.Describes) (fits : ∀ c ∈ calls, c.Fits fun _ => True)
    (grounded : s.Grounded calls) : s.Threads (s.opened calls) (s.history calls) := by
  induction calls generalizing s with
  | nil => exact (Proceeds.calm (.refl s)).threads
  | cons c rest ih =>
    have first := ClientCall.threads (describes c List.mem_cons_self) (fits c List.mem_cons_self) grounded.1
    exact first.trans (ih (fun c member => describes c (List.mem_cons_of_mem _ member))
      (fun c member => fits c (List.mem_cons_of_mem _ member)) grounded.2)

theorem strungFresh (machine : Description) (settings : Settings) (emitter : Emitter) (helpers : Option HelperAddress) :
    (fresh machine settings emitter helpers).Strung [] := by
  refine ⟨⟨[], ⟨rfl, rfl, nofun, List.nodup_nil, fun before e later split => ?_, fun e _ => ⟨rfl, rfl, rfl⟩, nofun,
    fun _ => rfl, fun empty => (empty rfl).elim, fun p member => ?_, fun d member => ?_⟩⟩, ⟨nofun, nofun, nofun, ?_⟩⟩
  · simp at split
  · exact absurd member (by simp [fresh, State.empty, bounds])
  · exact absurd member (Array.not_mem_empty d)
  · exact fun empty => (empty rfl).elim

theorem strungHistory {machine : Description} {settings : Settings} {emitter : Emitter} {helpers : Option HelperAddress}
    (describes : ∀ c ∈ calls, c.Describes) (fits : ∀ c ∈ calls, c.Fits fun _ => True)
    (grounded : (fresh machine settings emitter helpers).Grounded calls)
    (apart : Apart ((fresh machine settings emitter helpers).opened calls)) :
    ((fresh machine settings emitter helpers).history calls).Strung ((fresh machine settings emitter helpers).opened calls) :=
  historyThreads describes fits grounded [] (strungFresh ..) apart

end

end Lowering
