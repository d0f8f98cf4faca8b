import Lowering.Proofs.Opening
/-!
The order of links.

Events are compiled in the order in which they were appended. With each of them the oldest link that leads to it is
followed, and then the links that were made after it until the next event. So all links are followed in the order in
which they were made, unless one leads back to the first event, to which no link leads at first.
-/
namespace Lowering

open Build State

namespace State

variable {s s' t : State} {es : List EventId} {e x : EventId} {f : ForkId}

def route (s : State) (e : EventId) : List LinkId := (s.event e).predecessors.head?.toList ++ (s.event e).revisits

def bounds (s : State) : Array (Option (Option EventId × Option EventId)) :=
  s.instructions.map (Option.map fun i => (i.firstEvent, i.lastEvent))

structure Scheduled (es : List EventId) (s : State) : Prop where
  first : s.firstEvent = es.head?
  last : s.lastEvent = es.getLast?
  known : ∀ e ∈ es, e.index < s.events.size
  once : es.Nodup
  chain : ∀ before e later, es = before ++ e :: later → (s.event e).following = later.head?
  bare : ∀ e, e ∉ es → (s.event e).predecessors = [] ∧ (s.event e).revisits = [] ∧ (s.event e).following = none
  entered : ∀ e ∈ es.tail, (s.event e).predecessors ≠ []
  order : (∀ e ∈ es.head?, (s.event e).predecessors = []) →
    es.flatMap s.route = (List.range s.links.size).map LinkId.mk
  placed : es ≠ [] → s.predecessor.isSome
  bounded : ∀ p, some p ∈ s.bounds → (∀ e ∈ p.1, e ∈ es) ∧ ∀ e ∈ p.2, e ∈ es
  forks : ∀ d ∈ s.forks, d.predecessor.isSome

structure Calm (s s' : State) : Prop where
  firstEvent : s'.firstEvent = s.firstEvent
  lastEvent : s'.lastEvent = s.lastEvent
  predecessor : s'.predecessor = s.predecessor
  fork : s'.fork = s.fork
  forks : s'.forks = s.forks
  ip : s'.ip = s.ip
  bounds : s'.bounds = s.bounds
  links : s'.links.map (·.fork) = s.links.map (·.fork)
  size : s'.events.size = s.events.size
  event : ∀ e, (s'.event e).predecessors = (s.event e).predecessors ∧ (s'.event e).revisits = (s.event e).revisits ∧
    (s'.event e).following = (s.event e).following

theorem getDMap {α β : Type} {xs ys : Array α} {g : α → β} (same : xs.map g = ys.map g) (i : Nat) (d : α) :
    g (xs.getD i d) = g (ys.getD i d) := by
  have here := congrArg (·[i]?) same
  simp only [Array.getElem?_map] at here
  simp only [Array.getD_eq_getD_getElem?]
  cases first : xs[i]? <;> cases second : ys[i]? <;> simp_all

namespace Calm

theorem refl (s : State) : s.Calm s := ⟨rfl, rfl, rfl, rfl, rfl, rfl, rfl, rfl, rfl, fun _ => ⟨rfl, rfl, rfl⟩⟩

theorem trans (first : s.Calm t) (second : t.Calm s') : s.Calm s' where
  firstEvent := second.firstEvent.trans first.firstEvent
  lastEvent := second.lastEvent.trans first.lastEvent
  predecessor := second.predecessor.trans first.predecessor
  fork := second.fork.trans first.fork
  forks := second.forks.trans first.forks
  ip := second.ip.trans first.ip
  bounds := second.bounds.trans first.bounds
  links := second.links.trans first.links
  size := second.size.trans first.size
  event e :=
    ⟨(second.event e).1.trans (first.event e).1, (second.event e).2.1.trans (first.event e).2.1,
      (second.event e).2.2.trans (first.event e).2.2⟩

theorem still (links : s'.links = s.links) (events : s'.events = s.events) (instructions : s'.instructions = s.instructions)
    (forks : s'.forks = s.forks)
    (place : (s'.firstEvent, s'.lastEvent, s'.predecessor, s'.fork, s'.ip) =
      (s.firstEvent, s.lastEvent, s.predecessor, s.fork, s.ip)) : s.Calm s' := by
  simp only [Prod.mk.injEq] at place
  obtain ⟨firstEvent, lastEvent, predecessor, fork, ip⟩ := place
  refine ⟨firstEvent, lastEvent, predecessor, fork, forks, ip, ?_, by rw [links], by rw [events], fun e => ?_⟩
  · rw [State.bounds, instructions, State.bounds]
  · simp only [State.event, events, and_self]

theorem linkCount (calm : s.Calm s') : s'.links.size = s.links.size := by
  simpa using congrArg Array.size calm.links

theorem linkFork (calm : s.Calm s') (l : LinkId) : (s'.link l).fork = (s.link l).fork := getDMap calm.links l.index default

theorem modifyEvent (s : State) (e : EventId) {f : Event → Event} (predecessors : ∀ d, (f d).predecessors = d.predecessors)
    (revisits : ∀ d, (f d).revisits = d.revisits) (following : ∀ d, (f d).following = d.following) :
    s.Calm (s.modifyEvent e f) := by
  refine ⟨rfl, rfl, rfl, rfl, rfl, rfl, rfl, rfl, by simp [State.modifyEvent], fun x => ?_⟩
  rw [eventModify]
  split
  · rename_i here
    rw [here.1, predecessors, revisits, following]
    exact ⟨rfl, rfl, rfl⟩
  · exact ⟨rfl, rfl, rfl⟩

end Calm

instance : Std.Refl Calm := ⟨Calm.refl⟩

instance : Trans Calm Calm Calm := ⟨Calm.trans⟩

theorem Scheduled.calm (scheduled : s.Scheduled es) (calm : s.Calm s') : s'.Scheduled es := by
  have route : s'.route = s.route := by
    funext e
    rw [State.route, (calm.event e).1, (calm.event e).2.1, State.route]
  refine ⟨calm.firstEvent.trans scheduled.first, calm.lastEvent.trans scheduled.last, ?_, scheduled.once,
    fun before e later split => ?_, fun e outside => ?_, fun e member => ?_, fun none => ?_, ?_, ?_, ?_⟩
  · simpa only [calm.size] using scheduled.known
  · rw [(calm.event e).2.2]
    exact scheduled.chain before e later split
  · rw [(calm.event e).1, (calm.event e).2.1, (calm.event e).2.2]
    exact scheduled.bare e outside
  · rw [(calm.event e).1]
    exact scheduled.entered e member
  · rw [route, calm.linkCount]
    exact scheduled.order fun e head => by
      rw [← (calm.event e).1]
      exact none e head
  · simpa only [calm.predecessor] using scheduled.placed
  · simpa only [calm.bounds] using scheduled.bounded
  · simpa only [calm.forks] using scheduled.forks

/-! Putting an event after the last one. -/

def lineUp (e : EventId) (s : State) : State :=
  let s := match s.lastEvent with
    | some last => s.modifyEvent last fun d => { d with following := some e }
    | none => { s with firstEvent := some e }
  let s := { s with lastEvent := some e }
  let s := match s.predecessor with
    | some p => (s.newLink p e s.fork).2
    | none => s
  { s with fork := none, predecessor := some e }

theorem eventNewLink (s : State) (p q : EventId) (f : Option ForkId) (x : EventId) :
    ((s.newLink p q f).2.event x).predecessors =
        (if x = q ∧ q.index < s.events.size then (s.event x).predecessors ++ [⟨s.links.size⟩] else (s.event x).predecessors) ∧
      ((s.newLink p q f).2.event x).revisits = (s.event x).revisits ∧
      ((s.newLink p q f).2.event x).following = (s.event x).following := by
  let t : State := { s with links := s.links.push { predecessor := p, successor := q, fork := f } }
  let u := t.modifyEvent q fun d => { d with predecessors := d.predecessors ++ [⟨s.links.size⟩] }
  have last : u.Calm (s.newLink p q f).2 :=
    .modifyEvent u p (f := fun d => { d with successors := d.successors ++ [⟨s.links.size⟩] }) (fun _ => rfl) (fun _ => rfl)
      fun _ => rfl
  obtain ⟨predecessors, revisits, following⟩ := last.event x
  rw [predecessors, revisits, following]
  have here : u.event x = if x = q ∧ q.index < s.events.size then
      { s.event q with predecessors := (s.event q).predecessors ++ [⟨s.links.size⟩] } else s.event x := eventModify t q x _
  rw [here]
  split
  · rename_i same
    rw [same.1]
    exact ⟨rfl, rfl, rfl⟩
  · exact ⟨rfl, rfl, rfl⟩

theorem lineUpCases (s : State) (e : EventId) :
    ∃ t : State, (s.lastEvent = none ∧ t = { s with firstEvent := some e, lastEvent := some e } ∨
        ∃ l, s.lastEvent = some l ∧ t = { s.modifyEvent l (fun d => { d with following := some e }) with lastEvent := some e }) ∧
      (s.predecessor = none ∧ s.lineUp e = { t with fork := none, predecessor := some e } ∨
        ∃ p, s.predecessor = some p ∧ s.lineUp e = { (t.newLink p e s.fork).2 with fork := none, predecessor := some e }) := by
  cases last : s.lastEvent with
  | none =>
    refine ⟨_, .inl ⟨rfl, rfl⟩, ?_⟩
    cases next : s.predecessor with
    | none => exact .inl ⟨rfl, by simp only [lineUp, last, next]⟩
    | some p => exact .inr ⟨p, rfl, by simp only [lineUp, last, next]⟩
  | some l =>
    refine ⟨_, .inr ⟨l, rfl, rfl⟩, ?_⟩
    have same : (s.modifyEvent l fun d => { d with following := some e }).predecessor = s.predecessor := rfl
    cases next : s.predecessor with
    | none => exact .inl ⟨rfl, by simp only [lineUp, last, same, next]⟩
    | some p => exact .inr ⟨p, rfl, by simp only [lineUp, last, same, next]; rfl⟩

theorem lineUpEvent (inside : e.index < s.events.size) (x : EventId) :
    ((s.lineUp e).event x).predecessors =
        (if x = e ∧ s.predecessor.isSome then (s.event x).predecessors ++ [⟨s.links.size⟩] else (s.event x).predecessors) ∧
      ((s.lineUp e).event x).revisits = (s.event x).revisits ∧
      ((s.lineUp e).event x).following =
        if s.lastEvent = some x ∧ x.index < s.events.size then some e else (s.event x).following := by
  obtain ⟨u, placed, linked⟩ := lineUpCases s e
  have chained : (u.event x).predecessors = (s.event x).predecessors ∧ (u.event x).revisits = (s.event x).revisits ∧
      (u.event x).following = if s.lastEvent = some x ∧ x.index < s.events.size then some e else (s.event x).following := by
    rcases placed with ⟨none, rfl⟩ | ⟨l, last, rfl⟩
    · rw [none, if_neg (by simp)]
      exact ⟨rfl, rfl, rfl⟩
    · have here : ({ s.modifyEvent l (fun d => { d with following := some e }) with lastEvent := some e } : State).event x =
          (s.modifyEvent l fun d => { d with following := some e }).event x := rfl
      rw [here, eventModify, last]
      by_cases same : x = l
      · subst same
        by_cases known : x.index < s.events.size <;> simp [known]
      · simp [same, Ne.symm same]
  have sizes : u.links.size = s.links.size ∧ u.events.size = s.events.size := by
    rcases placed with ⟨-, rfl⟩ | ⟨l, -, rfl⟩
    · exact ⟨rfl, rfl⟩
    · exact ⟨rfl, by simp [modifyEvent]⟩
  obtain ⟨links, size⟩ := sizes
  rcases linked with ⟨next, linked⟩ | ⟨p, next, linked⟩ <;> rw [linked, next]
  · rw [if_neg (by simp)]
    exact chained
  · obtain ⟨predecessors, revisits, following⟩ := eventNewLink u p e s.fork x
    have inside' : e.index < u.events.size := size ▸ inside
    refine ⟨predecessors.trans ?_, revisits.trans chained.2.1, following.trans chained.2.2⟩
    simp only [inside', and_true, Option.isSome_some, chained.1, links]

theorem lineUpLinks (e : EventId) : (s.lineUp e).links = match s.predecessor with
    | some p => s.links.push { predecessor := p, successor := e, fork := s.fork }
    | none => s.links := by
  unfold lineUp
  dsimp only
  cases s.lastEvent <;> cases predecessor : s.predecessor <;> simp [modifyEvent, newLink, predecessor]

theorem lineUpRest (e : EventId) : (s.lineUp e).firstEvent = (if s.lastEvent.isNone then some e else s.firstEvent) ∧
    (s.lineUp e).lastEvent = some e ∧ (s.lineUp e).predecessor = some e ∧ (s.lineUp e).fork = none ∧
    (s.lineUp e).forks = s.forks ∧ (s.lineUp e).bounds = s.bounds ∧ (s.lineUp e).events.size = s.events.size ∧
    (s.lineUp e).ip = s.ip ∧ (s.lineUp e).instructions = s.instructions := by
  unfold lineUp bounds
  dsimp only
  cases s.lastEvent <;> cases predecessor : s.predecessor <;> simp [modifyEvent, newLink, predecessor]

namespace Scheduled

theorem lastKnown (scheduled : s.Scheduled es) {x : EventId} (last : s.lastEvent = some x) : x ∈ es := by
  rw [scheduled.last] at last
  exact List.mem_of_getLast? last

theorem predecessorsLineUp (new : e ∉ es) (inside : e.index < s.events.size) {x : EventId} (member : x ∈ es) :
    ((s.lineUp e).event x).predecessors = (s.event x).predecessors := by
  rw [(lineUpEvent inside x).1, if_neg]
  rintro ⟨rfl, -⟩
  exact new member

theorem followingLineUp (scheduled : s.Scheduled es) (new : e ∉ es) (inside : e.index < s.events.size)
    {before later : List EventId} {x : EventId} (split : es ++ [e] = before ++ x :: later) :
    ((s.lineUp e).event x).following = later.head? := by
  rw [(lineUpEvent inside x).2.2]
  rcases List.eq_nil_or_concat' later with rfl | ⟨later', y, rfl⟩
  · obtain ⟨rfl, same⟩ := List.append_inj' split rfl
    cases same
    rw [if_neg fun last => new (scheduled.lastKnown last.1), (scheduled.bare e new).2.2]
    rfl
  · rw [← List.cons_append, ← List.append_assoc] at split
    obtain ⟨rfl, same⟩ := List.append_inj' split rfl
    cases same
    have old := scheduled.chain before x later' rfl
    have member : x ∈ before ++ x :: later' := by simp
    cases later' with
    | nil =>
      rw [if_pos ⟨by rw [scheduled.last]; simp, scheduled.known x member⟩]
      rfl
    | cons z rest =>
      rw [if_neg, old]
      · rfl
      · rintro ⟨last, -⟩
        rw [scheduled.last] at last
        have again : x ∈ z :: rest := by
          rw [List.getLast?_append_cons, List.getLast?_cons_cons] at last
          exact List.mem_of_getLast? last
        have once := scheduled.once
        rw [List.nodup_append] at once
        exact (List.nodup_cons.mp once.2.1).1 again

theorem bareLineUp (scheduled : s.Scheduled es) (inside : e.index < s.events.size) {x : EventId}
    (outside : x ∉ es ++ [e]) : ((s.lineUp e).event x).predecessors = [] ∧
      ((s.lineUp e).event x).revisits = [] ∧ ((s.lineUp e).event x).following = none := by
  have event := lineUpEvent inside x
  obtain ⟨outside, other⟩ := not_or.mp (mt List.mem_append.mpr outside)
  rw [event.1, event.2.1, event.2.2, if_neg, if_neg]
  · exact scheduled.bare x outside
  · exact fun last => outside (scheduled.lastKnown last.1)
  · rintro ⟨rfl, -⟩
    exact other (List.mem_singleton_self x)

theorem orderLineUp (scheduled : s.Scheduled es) (new : e ∉ es) (inside : e.index < s.events.size)
    (entry : ∀ x ∈ (es ++ [e]).head?, ((s.lineUp e).event x).predecessors = []) :
    (es ++ [e]).flatMap (s.lineUp e).route = (List.range (s.lineUp e).links.size).map LinkId.mk := by
  obtain ⟨none, plain, -⟩ := scheduled.bare e new
  have event := lineUpEvent inside
  have others := fun x => predecessorsLineUp (s := s) (x := x) new inside
  have routes : es.flatMap (s.lineUp e).route = es.flatMap s.route := by
    refine List.flatMap_congr fun x member => ?_
    rw [route, route, others x member, (event x).2.1]
  have own : (s.lineUp e).route e = if s.predecessor.isSome then [⟨s.links.size⟩] else [] := by
    rw [route, (event e).1, (event e).2.1, none, plain]
    cases s.predecessor <;> simp
  rw [List.flatMap_append, List.flatMap_singleton, own, routes, lineUpLinks]
  cases es with
  | nil =>
    have empty := scheduled.order nofun
    have here := entry e rfl
    rw [(event e).1, none] at here
    cases before : s.predecessor with
    | none => simpa using empty
    | some p => simp [before] at here
  | cons y rest =>
    have placed := scheduled.placed (by simp)
    obtain ⟨p, before⟩ := Option.isSome_iff_exists.mp placed
    rw [scheduled.order fun x head => by
      cases head
      rw [← others y List.mem_cons_self]
      exact entry y rfl]
    simp [before, List.range_succ]

theorem lineUp (scheduled : s.Scheduled es) (new : e ∉ es) (inside : e.index < s.events.size) :
    (s.lineUp e).Scheduled (es ++ [e]) := by
  obtain ⟨firstEvent, lastEvent, predecessor, -, forks, bounds, size, -, -⟩ := lineUpRest (s := s) e
  refine ⟨?_, ?_, fun x member => ?_, ?_, fun before x later => scheduled.followingLineUp new inside,
    fun x => scheduled.bareLineUp inside, fun x member => ?_, scheduled.orderLineUp new inside, fun _ => ?_,
    fun p member => ?_, ?_⟩
  · rw [firstEvent, scheduled.last, scheduled.first]
    cases es <;> simp
  · rw [lastEvent, List.getLast?_concat]
  · rw [size]
    rcases List.mem_append.mp member with old | last
    · exact scheduled.known x old
    · rwa [List.mem_singleton.mp last]
  · rw [List.nodup_append]
    exact ⟨scheduled.once, List.nodup_singleton e, fun x member y last same => new (by
      rw [← List.mem_singleton.mp last, ← same]
      exact member)⟩
  · cases es with
    | nil => cases member
    | cons y rest =>
      rcases List.mem_append.mp member with old | last
      · rw [predecessorsLineUp new inside (List.mem_cons_of_mem _ old)]
        exact scheduled.entered x old
      · cases List.mem_singleton.mp last
        rw [(lineUpEvent inside e).1, if_pos ⟨rfl, scheduled.placed (by simp)⟩]
        simp
  · rw [predecessor]
    rfl
  · rw [bounds] at member
    exact ⟨fun x here => List.mem_append_left _ ((scheduled.bounded p member).1 x here),
      fun x here => List.mem_append_left _ ((scheduled.bounded p member).2 x here)⟩
  · rw [forks]
    exact scheduled.forks

end Scheduled

/-! What becomes of links. -/

/-- Links are only added. Once there is an event, the next link leaves the state that was saved or restored last. -/
structure Strings (s s' : State) : Prop where
  forks : s'.forks = s.forks
  links : s.links.size ≤ s'.links.size
  kept : ∀ l, l.index < s.links.size → (s'.link l).fork = (s.link l).fork
  placed : s.predecessor.isSome → s'.predecessor.isSome
  still : s.predecessor.isSome → s'.links.size = s.links.size → s'.fork = s.fork
  next : s.predecessor.isSome → s.links.size < s'.links.size → (s'.link ⟨s.links.size⟩).fork = s.fork

theorem Strings.trans (first : s.Strings t) (second : t.Strings s') : s.Strings s' where
  forks := second.forks.trans first.forks
  links := first.links.trans second.links
  kept l known := (second.kept l (known.trans_le first.links)).trans (first.kept l known)
  placed placed := second.placed (first.placed placed)
  still placed same := by
    have one := first.links
    have two := second.links
    have here : t.links.size = s.links.size := by omega
    exact (second.still (first.placed placed) (same.trans here.symm)).trans (first.still placed here)
  next placed more := by
    rcases Nat.eq_or_lt_of_le first.links with same | made
    · have here := second.next (first.placed placed) (same ▸ more)
      rw [← same] at here
      exact here.trans (first.still placed same.symm)
    · exact (second.kept _ made).trans (first.next placed made)

theorem Strings.calm (calm : s.Calm s') : s.Strings s' where
  forks := calm.forks
  links := calm.linkCount.ge
  kept l _ := calm.linkFork l
  placed := by rw [calm.predecessor]; exact id
  still _ _ := calm.fork
  next _ more := absurd calm.linkCount more.ne'

structure Proceeds (s s' : State) : Prop extends s.Strings s' where
  events : s.events.size ≤ s'.events.size
  scheduled : ∀ es, s.Scheduled es → ∃ more, (∀ e ∈ more, s.events.size ≤ e.index) ∧ s'.Scheduled (es ++ more)

theorem Proceeds.trans (first : s.Proceeds t) (second : t.Proceeds s') : s.Proceeds s' := by
  refine ⟨first.toStrings.trans second.toStrings, first.events.trans second.events, fun es scheduled => ?_⟩
  obtain ⟨more, young, scheduled⟩ := first.scheduled es scheduled
  obtain ⟨more', young', scheduled⟩ := second.scheduled _ scheduled
  refine ⟨more ++ more', fun e member => ?_, List.append_assoc es more more' ▸ scheduled⟩
  rcases List.mem_append.mp member with old | new
  · exact young e old
  · exact first.events.trans (young' e new)

theorem Proceeds.calm (calm : s.Calm s') : s.Proceeds s' :=
  ⟨.calm calm, calm.size.ge, fun es scheduled => ⟨[], nofun, by rw [List.append_nil]; exact scheduled.calm calm⟩⟩

instance : Std.Refl Proceeds := ⟨fun s => .calm (.refl s)⟩

instance : Trans Proceeds Proceeds Proceeds := ⟨Proceeds.trans⟩

theorem Scheduled.rebound (scheduled : s.Scheduled es) (links : s'.links = s.links) (events : s'.events = s.events)
    (forks : s'.forks = s.forks)
    (place : (s'.firstEvent, s'.lastEvent, s'.predecessor) = (s.firstEvent, s.lastEvent, s.predecessor))
    (bounded : ∀ p, some p ∈ s'.bounds → (∀ e ∈ p.1, e ∈ es) ∧ ∀ e ∈ p.2, e ∈ es) : s'.Scheduled es := by
  simp only [Prod.mk.injEq] at place
  obtain ⟨firstEvent, lastEvent, predecessor⟩ := place
  have event : s'.event = s.event := by funext e; simp only [State.event, events]
  have route : s'.route = s.route := by funext e; simp only [State.route, event]
  refine ⟨firstEvent.trans scheduled.first, lastEvent.trans scheduled.last, ?_, scheduled.once, ?_, ?_, ?_, ?_, ?_, bounded, ?_⟩
  · simpa only [events] using scheduled.known
  · simpa only [event] using scheduled.chain
  · simpa only [event] using scheduled.bare
  · simpa only [event] using scheduled.entered
  · simpa only [event, route, links] using scheduled.order
  · simpa only [predecessor] using scheduled.placed
  · simpa only [forks] using scheduled.forks

theorem memModify {α : Type} {xs : Array α} {f : α → α} {i : Nat} {x : α} (member : x ∈ xs.modify i f) :
    x ∈ xs ∨ ∃ y ∈ xs, x = f y := by
  obtain ⟨k, inside, rfl⟩ := Array.mem_iff_getElem.mp member
  rw [Array.getElem_modify]
  rw [Array.size_modify] at inside
  split
  · exact .inr ⟨_, Array.getElem_mem inside, rfl⟩
  · exact .inl (Array.getElem_mem inside)

/-! Putting an event after the last one, as far as the client is concerned. -/

structure Lines (e : EventId) (s s' : State) : Prop extends s.Strings s' where
  events : s.events.size ≤ s'.events.size
  scheduled : ∀ es, e ∉ es → e.index < s.events.size → s.Scheduled es →
    ∃ more, (∀ x ∈ more, x = e ∨ s.events.size ≤ x.index) ∧ s'.Scheduled (es ++ more)

theorem Proceeds.lines (proceeds : s.Proceeds s') : s.Lines e s' := by
  refine ⟨proceeds.toStrings, proceeds.events, fun es _ _ scheduled => ?_⟩
  obtain ⟨more, young, scheduled⟩ := proceeds.scheduled es scheduled
  exact ⟨more, fun x member => .inr (young x member), scheduled⟩

theorem Calm.lines (calm : s.Calm t) (lines : t.Lines e s') : s.Lines e s' := by
  refine ⟨(Strings.calm calm).trans lines.toStrings, calm.size ▸ lines.events, fun es new inside scheduled => ?_⟩
  rw [← calm.size] at inside ⊢
  exact lines.scheduled es new inside (scheduled.calm calm)

theorem stringsLineUp (s : State) (e : EventId) : s.Strings (s.lineUp e) := by
  obtain ⟨-, -, predecessor, -, forks, -, -, -, -⟩ := lineUpRest (s := s) e
  have links := lineUpLinks (s := s) e
  refine ⟨forks, ?_, fun l known => ?_, fun _ => by rw [predecessor]; rfl, fun placed same => ?_, fun placed _ => ?_⟩
  · rw [links]
    cases s.predecessor <;> simp
  · simp only [link, links, Array.getD_eq_getD_getElem?]
    cases s.predecessor with
    | none => rfl
    | some p => simp only [Array.getElem?_push, if_neg (Nat.ne_of_lt known)]
  · obtain ⟨p, here⟩ := Option.isSome_iff_exists.mp placed
    rw [links, here] at same
    simp at same
  · obtain ⟨p, here⟩ := Option.isSome_iff_exists.mp placed
    simp [link, links, here]

end State

section

variable {s s' t u : State} {es : List EventId} {e : EventId} {kind : EventKind}

theorem foundInstruction (ip : Int) (s : State) : instructionAt ip s = match s.instruction? ip with
    | some i => .ok i s
    | none => .error (.invariant (.notStarted ip)) s := by
  rw [instructionAt, getBind]
  cases s.instruction? ip <;> rfl

theorem modifiedInstruction (ip : Int) (f : Instruction → Instruction) (s : State) :
    modifyInstruction ip f s = match s.instruction? ip with
      | some _ => .ok () { s with instructions := s.instructions.modify (ip + 1).toNat (Option.map f) }
      | none => .error (.invariant (.notStarted ip)) s := by
  have mapped : discard (instructionAt ip) = (fun _ => PUnit.unit) <$> instructionAt ip := rfl
  simp only [modifyInstruction, mapped, bind, EStateM.bind, Functor.map, EStateM.map, foundInstruction]
  cases s.instruction? ip <;> rfl

def Instruction.lengthen (e : EventId) (i : Instruction) : Instruction :=
  { i with firstEvent := i.firstEvent.or (some e), lastEvent := some e }

def State.tell (s : State) (e : EventId) : State :=
  { s with instructions := s.instructions.modify ((s.event e).ip + 1).toNat (Option.map (Instruction.lengthen e)) }

theorem linkedEvent (e : EventId) (s : State) :
    linkEvent e s = match (s.lineUp e).instruction? ((s.lineUp e).event e).ip with
      | some _ => .ok () ((s.lineUp e).tell e)
      | none => .error (.invariant (.notStarted ((s.lineUp e).event e).ip)) (s.lineUp e) :=
  modifiedInstruction ((s.lineUp e).event e).ip (Instruction.lengthen e) (s.lineUp e)

theorem afterLinkEvent (e : EventId) (s : State) :
    after (linkEvent e) s = s.lineUp e ∨ after (linkEvent e) s = (s.lineUp e).tell e := by
  rw [after, linkedEvent]
  cases (s.lineUp e).instruction? ((s.lineUp e).event e).ip with
  | none => exact .inl rfl
  | some _ => exact .inr rfl

theorem scheduledTell (scheduled : s.Scheduled es) (member : e ∈ es) : (s.tell e).Scheduled es := by
  refine scheduled.rebound rfl rfl rfl rfl fun p here => ?_
  obtain ⟨i, inside, same⟩ := Array.mem_map.mp here
  rcases memModify inside with old | ⟨j, old, rfl⟩
  · exact scheduled.bounded p (Array.mem_map.mpr ⟨i, old, same⟩)
  · cases j with
    | none => cases same
    | some j =>
      obtain ⟨first, last⟩ := scheduled.bounded _ (Array.mem_map_of_mem old)
      cases same
      refine ⟨fun x here => ?_, fun x here => ?_⟩
      · cases before : j.firstEvent with
        | none => simp_all [Instruction.lengthen]
        | some y => simp_all [Instruction.lengthen]
      · cases here
        exact member

theorem linesLinkEvent (e : EventId) (s : State) : s.Lines e (after (linkEvent e) s) := by
  have size := (lineUpRest (s := s) e).2.2.2.2.2.2.1
  have lined : ∀ es, e ∉ es → e.index < s.events.size → s.Scheduled es → (s.lineUp e).Scheduled (es ++ [e]) :=
    fun es new inside scheduled => scheduled.lineUp new inside
  have only : ∀ x ∈ [e], x = e ∨ s.events.size ≤ x.index := fun x member => .inl (List.mem_singleton.mp member)
  rcases afterLinkEvent e s with same | same <;> rw [same]
  · exact ⟨stringsLineUp s e, size.ge, fun es new inside scheduled => ⟨[e], only, lined es new inside scheduled⟩⟩
  · refine ⟨?_, size.ge, fun es new inside scheduled => ⟨[e], only, scheduledTell (lined es new inside scheduled) (by simp)⟩⟩
    exact ⟨(stringsLineUp s e).forks, (stringsLineUp s e).links, (stringsLineUp s e).kept, (stringsLineUp s e).placed,
      (stringsLineUp s e).still, (stringsLineUp s e).next⟩

/-! New events. -/

theorem eventCreated (d : Event) (e : EventId) :
    State.event { s with events := s.events.push d } e = if e.index = s.events.size then d else s.event e := by
  simp only [State.event, Array.getD_eq_getD_getElem?, Array.getElem?_push]
  split <;> rfl

theorem scheduledNewEvent (scheduled : s.Scheduled es) {d : Event}
    (bare : d.predecessors = [] ∧ d.revisits = [] ∧ d.following = none) :
    State.Scheduled es { s with events := s.events.push d } := by
  have old : ∀ e ∈ es, State.event { s with events := s.events.push d } e = s.event e := fun e member => by
    rw [eventCreated, if_neg (Nat.ne_of_lt (scheduled.known e member))]
  refine ⟨scheduled.first, scheduled.last, fun e member => ?_, scheduled.once, fun before e later split => ?_,
    fun e outside => ?_, fun e member => ?_, fun none => ?_, scheduled.placed, scheduled.bounded, scheduled.forks⟩
  · exact (scheduled.known e member).trans (by simp)
  · rw [old e (by simp [split])]
    exact scheduled.chain before e later split
  · rw [eventCreated]
    split
    · exact bare
    · exact scheduled.bare e outside
  · rw [old e (List.mem_of_mem_tail member)]
    exact scheduled.entered e member
  · rw [← scheduled.order fun e head => by
      rw [← old e (List.mem_of_mem_head? head)]
      exact none e head]
    exact List.flatMap_congr fun e member => by rw [route, old e member, route]

theorem proceedsCreated {act : EventId → Build Unit} (lines : ∀ e (u : State), u.Lines e (after (act e) u)) :
    Within Proceeds (createEvent kind >>= act) := by
  refine ⟨fun s => ?_⟩
  rw [createEvent, afterModifyGet]
  dsimp only
  have line := lines ⟨s.events.size⟩ { s with
    events := s.events.push { kind, stackBefore := s.stack, localsBefore := s.locals, ip := s.ip } }
  have size := line.events
  rw [Array.size_push] at size
  refine ⟨⟨line.forks, line.links, line.kept, line.placed, line.still, line.next⟩, by omega, fun es scheduled => ?_⟩
  have new : ⟨s.events.size⟩ ∉ es := fun member => Nat.lt_irrefl _ (scheduled.known _ member)
  obtain ⟨more, young, scheduled⟩ := line.scheduled es new (by simp) (scheduledNewEvent scheduled ⟨rfl, rfl, rfl⟩)
  refine ⟨more, fun x member => ?_, scheduled⟩
  rcases young x member with rfl | young
  · exact le_rfl
  · rw [Array.size_push] at young
    omega

theorem proceedsAppendDummy : Within Proceeds appendDummy := by
  refine ⟨fun s => ?_⟩
  have calm : ∀ (u : State) (stack : Option StackId) (l : LocalsId), u.Calm { u with stack, locals := l } :=
    fun u stack l => .still rfl rfl rfl rfl rfl
  rw [afterAppendDummy]
  cases found : instructionAt s.ip s with
  | error err t =>
    rw [afterBindError found]
    exact (instructionWithin (R := Proceeds) s.ip).fails found
  | ok entry t =>
    rw [afterBindOk found, afterAppendDummyIn]
    have appended := (proceedsCreated linesLinkEvent : Within Proceeds (createEvent .dummy >>= linkEvent)).keeps
      { t with stack := entry.stack, locals := entry.locals }
    exact ((instructionWithin (R := Proceeds) s.ip).holds found).trans
      ((Proceeds.calm (calm ..)).trans (appended.trans (.calm (calm ..))))

theorem proceedsEnsureEvent : Within Proceeds ensureEvent :=
  .bind .get fun _ => .bind (instructionWithin _) fun _ => .ite proceedsAppendDummy .pure

theorem appendSteps (e : EventId) (s : State) : appendEvent e s = (match s.instruction? s.ip with
    | some entry =>
      if entry.firstEvent.isNone && (s.stack != entry.stack || s.locals != entry.locals) then
        appendDummy >>= fun _ => linkEvent e
      else linkEvent e
    | none => throw (Error.invariant (.notStarted s.ip))) s := by
  rw [appendEvent, getBind]
  simp only [bind, EStateM.bind, foundInstruction]
  cases s.instruction? s.ip <;> rfl

theorem linesAppendEvent (e : EventId) (s : State) : s.Lines e (after (appendEvent e) s) := by
  have linked : ∀ {act : Build Unit}, Within Proceeds act → ∀ u : State, u.Lines e (after (act >>= fun _ => linkEvent e) u) := by
    intro act within u
    cases ran : act u with
    | error err t =>
      rw [afterBindError ran]
      exact (within.fails ran).lines
    | ok a t =>
      rw [afterBindOk ran]
      have proceeds := within.holds ran
      have lines := linesLinkEvent e t
      refine ⟨proceeds.toStrings.trans lines.toStrings, proceeds.events.trans lines.events, fun es new inside scheduled => ?_⟩
      obtain ⟨more, young, scheduled⟩ := proceeds.scheduled es scheduled
      have new' : e ∉ es ++ more := fun member =>
        (List.mem_append.mp member).elim new fun member => absurd inside (Nat.not_lt.mpr (young e member))
      obtain ⟨more', young', scheduled⟩ := lines.scheduled _ new' (inside.trans_le proceeds.events) scheduled
      refine ⟨more ++ more', fun x member => ?_, List.append_assoc es more more' ▸ scheduled⟩
      rcases List.mem_append.mp member with old | last
      · exact .inr (young x old)
      · exact (young' x last).imp_right proceeds.events.trans
  have steps := appendSteps e s
  generalize appendEvent e = act at steps ⊢
  rw [after, steps, ← after]
  cases s.instruction? s.ip with
  | none => exact (Proceeds.calm (.refl s)).lines
  | some entry =>
    dsimp only
    split
    · exact linked proceedsAppendDummy s
    · exact linesLinkEvent e s

/-! Appending operations. -/

theorem proceedsOperation {reads : EventId → Build Unit} (each : ∀ e, Within Calm (reads e)) :
    Within Proceeds (Append.operation kind reads) := by
  refine proceedsCreated fun e s => ?_
  cases ran : reads e s with
  | error err t =>
    rw [afterBindError ran]
    exact (Proceeds.calm ((each e).fails ran)).lines
  | ok a t =>
    rw [afterBindOk ran]
    exact ((each e).holds ran).lines (linesAppendEvent e t)

theorem calmLinkRead (e : Option EventId) (v : ValueId) (r : ReadId) : Within Calm (linkRead e v r) := by
  have rest : ∀ s : State, s.Calm (after (linkRead none v r) s) := fun s => by
    rw [(prolongsLink v r s).endows]
    exact .still rfl rfl rfl rfl rfl
  cases e with
  | none => exact ⟨rest⟩
  | some e =>
    refine .bind (.modify fun s => ?_) fun _ => ⟨rest⟩
    have event := Calm.modifyEvent { s with reads := s.reads.setEvent r e } e (f := fun d => { d with reads := d.reads ++ [r] })
      (fun _ => rfl) (fun _ => rfl) fun _ => rfl
    exact Calm.trans (t := { s with reads := s.reads.setEvent r e }) (.still rfl rfl rfl rfl rfl) event

theorem calmGive (e : Option EventId) (v : ValueId) (k : ReadKind) (s : State) :
    s.Calm (after (linkRead e v (s.reads.push v k).1) { s with reads := (s.reads.push v k).2 }) :=
  Calm.trans (t := { s with reads := (s.reads.push v k).2 }) (.still rfl rfl rfl rfl rfl) ((calmLinkRead e v _).keeps _)

theorem calmNewValueAt (s : State) (kind : ValueKind) (site : Site) : s.Calm (s.newValueAt kind site).2 := by
  cases site <;> exact .still rfl rfl rfl rfl rfl

theorem proceedsSuits : Suits (fun _ => True) Calm Proceeds where
  weaken := .calm
  quiet quiet := by
    rw [quiet]
    exact .still rfl rfl rfl rfl rfl
  home _ _ _ := .still rfl rfl rfl rfl rfl
  demand e v mask successor := ⟨fun s => by
    rw [demand, afterModifyGet]
    exact calmGive (some e) v _ s⟩
  call e f := .modify fun s => .modifyEvent s e (fun d => by cases d.kind <;> rfl) (fun d => by cases d.kind <;> rfl)
    fun d => by cases d.kind <;> rfl
  value _ _ := .calm (.still rfl rfl rfl rfl rfl)
  valueAt s kind _ _ := .calm (calmNewValueAt s kind _)
  operation _ reads := proceedsOperation reads

end

end Lowering
