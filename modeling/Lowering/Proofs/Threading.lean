import Lowering.Proofs.Fanning
import Lowering.Proofs.Stepping
/-!
Describing straight-line code.

An event that is appended follows the one before and has its own reads at the end of the queue, so that what was
described earlier stays as it is.
-/
namespace Lowering

open State Build

variable {s s' t u : State} {es : List EventId} {queue : List ReadId} {e x : EventId} {v w : ValueId} {r : ReadId}
  {mask : SiteMask} {successor : Option ValueId} {kind : EventKind}

/-! The events. -/

structure State.Threaded (es : List EventId) (s : State) : Prop where
  scheduled : s.Scheduled es
  straight : s.Straight
  cursor : s.predecessor = es.getLast?
  ending : ∀ e, e ∉ es.dropLast → (s.event e).successors = []
  fork : s.fork = none

theorem modifyEventField {β : Type} (s : State) (p x : EventId) {f : Event → Event} (g : Event → β)
    (same : ∀ d, g (f d) = g d) : g ((s.modifyEvent p f).event x) = g (s.event x) := by
  rw [eventModify]
  split
  · rename_i here
    rw [same, here.1]
  · rfl

theorem lineUpField {β : Type} (s : State) (e x : EventId) (g : Event → β) (following : ∀ d y, g { d with following := y } = g d)
    (before : ∀ d ls, g { d with predecessors := ls } = g d) (after : ∀ d ls, g { d with successors := ls } = g d) :
    g ((s.lineUp e).event x) = g (s.event x) := by
  obtain ⟨u, placed, linked⟩ := lineUpCases s e
  have first : g (u.event x) = g (s.event x) := by
    rcases placed with ⟨-, rfl⟩ | ⟨l, -, rfl⟩
    · rfl
    · exact modifyEventField s l x g fun d => following d _
  rw [← first]
  rcases linked with ⟨-, linked⟩ | ⟨p, -, linked⟩ <;> rw [linked]
  · rfl
  · refine (modifyEventField _ p x g fun d => after d _).trans ?_
    exact modifyEventField { u with links := _ } e x g fun d => before d _

theorem lineUpSuccessors (s : State) (e x : EventId) : ((s.lineUp e).event x).successors =
    if s.predecessor = some x ∧ x.index < s.events.size then (s.event x).successors ++ [⟨s.links.size⟩]
    else (s.event x).successors := by
  obtain ⟨u, placed, linked⟩ := lineUpCases s e
  have first : (u.event x).successors = (s.event x).successors ∧ u.links.size = s.links.size ∧
      u.events.size = s.events.size := by
    rcases placed with ⟨-, rfl⟩ | ⟨l, -, rfl⟩
    · exact ⟨rfl, rfl, rfl⟩
    · exact ⟨modifyEventField s l x Event.successors fun d => rfl, rfl, by simp [modifyEvent]⟩
  obtain ⟨first, links, size⟩ := first
  rw [← first]
  rcases linked with ⟨next, linked⟩ | ⟨p, next, linked⟩ <;> rw [linked, next]
  · rw [if_neg (by simp)]
    rfl
  · let w := State.modifyEvent { u with links := u.links.push { predecessor := p, successor := e, fork := s.fork } } e fun d =>
      { d with predecessors := d.predecessors ++ [⟨u.links.size⟩] }
    have here : (u.newLink p e s.fork).2.event x =
        (w.modifyEvent p fun d => { d with successors := d.successors ++ [⟨u.links.size⟩] }).event x := rfl
    have before : ∀ y, (w.event y).successors = (u.event y).successors := fun y =>
      modifyEventField { u with links := _ } e y Event.successors fun _ => rfl
    have count : w.events.size = s.events.size := by simpa [w, modifyEvent] using size
    change ((u.newLink p e s.fork).2.event x).successors = _
    rw [here, eventModify, count, links]
    by_cases same : x = p
    · subst same
      by_cases inside : x.index < s.events.size <;> simp [inside, before]
    · simp [same, Ne.symm same, before]

theorem linkEventOk (ok : linkEvent e s = .ok () t) : t = (s.lineUp e).tell e := by
  rw [linkedEvent] at ok
  split at ok
  · cases ok
    rfl
  · cases ok

theorem State.Threaded.link (h : Threaded es s) (new : e ∉ es) (inside : e.index < s.events.size)
    (ok : linkEvent e s = .ok () t) : Threaded (es ++ [e]) t := by
  obtain rfl := linkEventOk ok
  obtain ⟨-, -, predecessor, fork, -, -, -, -, -⟩ := lineUpRest (s := s) e
  have event : ∀ x, ((s.lineUp e).tell e).event x = (s.lineUp e).event x := fun _ => rfl
  have outside : ∀ x, x ∉ es → x ∉ es.dropLast := fun x other member => other (List.mem_of_mem_dropLast member)
  have last : ∀ x, s.predecessor = some x → x ∈ es ∧ (s.event x).successors = [] := by
    intro x here
    rw [h.cursor] at here
    refine ⟨List.mem_of_getLast? here, h.ending x fun member => ?_⟩
    obtain ⟨before, rfl⟩ := List.getLast?_eq_some_iff.mp here
    rw [List.dropLast_concat] at member
    exact (List.nodup_append.mp h.scheduled.once).2.2 x member x (by simp) rfl
  refine ⟨scheduledTell (h.scheduled.lineUp new inside) (by simp), ⟨fun x => ?_, fun x => ?_, fun x => ?_, fun x => ?_,
    fun x => ?_, fun l => ?_⟩, by rw [List.getLast?_concat]; exact predecessor, fun x other => ?_, fork⟩
  · rw [event, (lineUpEvent inside x).1]
    split
    · rename_i here
      rw [here.1, (h.scheduled.bare e new).1]
      simp
    · exact h.straight.predecessors x
  · rw [event, lineUpSuccessors]
    split
    · rename_i here
      rw [(last x here.1).2]
      simp
    · exact h.straight.successors x
  · rw [event, (lineUpEvent inside x).2.1]
    exact h.straight.revisits x
  · rw [event, lineUpField s e x Event.junction (fun _ _ => rfl) (fun _ _ => rfl) fun _ _ => rfl]
    exact h.straight.junction x
  · rw [event, lineUpField s e x Event.kind (fun _ _ => rfl) (fun _ _ => rfl) fun _ _ => rfl]
    exact h.straight.kind x
  · have links : ((s.lineUp e).tell e).links = (s.lineUp e).links := rfl
    rw [State.link, links, lineUpLinks]
    cases s.predecessor with
    | none => exact h.straight.links l
    | some p =>
      dsimp only
      rw [Array.getD_eq_getD_getElem?, Array.getElem?_push]
      split
      · exact ⟨h.fork, rfl⟩
      · rw [← Array.getD_eq_getD_getElem?]
        exact h.straight.links l
  · rw [List.dropLast_concat] at other
    rw [event, lineUpSuccessors, if_neg fun here => other (last x here.1).1]
    exact h.ending x (outside x other)

theorem State.Threaded.create (h : Threaded es s) (on : kind.goesOn = true) (ok : createEvent kind s = .ok e t) :
    Threaded es t ∧ e ∉ es ∧ e.index < t.events.size ∧
      t = { s with events := s.events.push { kind, stackBefore := s.stack, localsBefore := s.locals, ip := s.ip } } ∧
      e = ⟨s.events.size⟩ := by
  obtain ⟨rfl, rfl⟩ := Prod.ext_iff.mp (modifyGetOk.mp ok)
  have each : ∀ {P : Event → Prop} x, P { kind, stackBefore := s.stack, localsBefore := s.locals, ip := s.ip } →
      P (s.event x) → P (State.event { s with events := s.events.push { kind, stackBefore := s.stack, localsBefore := s.locals, ip := s.ip } } x) := by
    intro P x new old
    rw [eventCreated]
    split
    · exact new
    · exact old
  refine ⟨⟨scheduledNewEvent h.scheduled ⟨rfl, rfl, rfl⟩, ⟨fun x => ?_, fun x => ?_, fun x => ?_, fun x => ?_, fun x => ?_,
    h.straight.links⟩, h.cursor, fun x other => ?_, h.fork⟩, fun member => ?_, by simp, rfl, rfl⟩
  · exact each (P := fun d => d.predecessors.length ≤ 1) x (by simp) (h.straight.predecessors x)
  · exact each (P := fun d => d.successors.length ≤ 1) x (by simp) (h.straight.successors x)
  · exact each (P := fun d => d.revisits = []) x rfl (h.straight.revisits x)
  · exact each (P := fun d => d.junction = none) x rfl (h.straight.junction x)
  · exact each (P := fun d => d.kind.goesOn = true) x on (h.straight.kind x)
  · exact each (P := fun d => d.successors = []) x rfl (h.ending x other)
  · exact absurd (h.scheduled.known _ member) (Nat.lt_irrefl _)

/-! The reads. -/

namespace ReadTable

variable {t t' : ReadTable} {front : Option ReadId} {rs : List ReadId} {last : ReadId}

theorem Chained.ends (chained : t.Chained front (rs ++ [last])) : ∃ mask successor, t.kind last = .single mask successor none := by
  induction rs generalizing front with
  | nil =>
    obtain ⟨-, mask, successor, next, kind, later⟩ := chained
    cases later
    exact ⟨mask, successor, kind⟩
  | cons x rest ih =>
    obtain ⟨-, mask, successor, next, kind, later⟩ := chained
    exact ih later

theorem Chained.snoc (chained : t.Chained front (rs ++ [last])) (others : ∀ x ∈ rs, x ≠ last → t'.kind x = t.kind x)
    (before : ∃ mask successor, t'.kind last = .single mask successor (some r))
    (new : ∃ mask successor, t'.kind r = .single mask successor none) : t'.Chained front (rs ++ [last] ++ [r]) := by
  induction rs generalizing front with
  | nil =>
    obtain ⟨mask, successor, kind⟩ := before
    obtain ⟨mask', successor', kind'⟩ := new
    exact ⟨chained.1, mask, successor, some r, kind, rfl, mask', successor', none, kind', rfl⟩
  | cons x rest ih =>
    obtain ⟨mask, successor, next, kind, later⟩ := chained.2
    have other : x ≠ last := by
      rintro rfl
      obtain ⟨mask', successor', ends⟩ := later.ends
      cases kind.symm.trans ends
      exact absurd (later.eqNone.mp rfl) (by simp)
    exact ⟨chained.1, mask, successor, next, (others x List.mem_cons_self other).trans kind,
      ih later fun y member => others y (List.mem_cons_of_mem _ member)⟩

theorem Chained.congr (chained : t.Chained front rs) (same : ∀ x ∈ rs, t'.kind x = t.kind x) : t'.Chained front rs := by
  induction rs generalizing front with
  | nil => exact chained
  | cons x rest ih =>
    obtain ⟨here, mask, successor, next, kind, later⟩ := chained
    exact ⟨here, mask, successor, next, (same x List.mem_cons_self).trans kind,
      ih later fun y member => same y (List.mem_cons_of_mem _ member)⟩

end ReadTable

structure State.Lined (queue : List ReadId) (s : State) : Prop where
  queued : s.Queued queue
  lasts : ∀ v, (s.value v).lastRead = (s.readsOf queue v).getLast?

structure State.Retells (es : List EventId) (s s' : State) : Prop where
  kind : ∀ e ∈ es, (s'.event e).kind = (s.event e).kind
  reads : ∀ e ∈ es, (s'.event e).reads = (s.event e).reads
  value : ∀ r, s.reads.IsRead r → s'.reads.value r = s.reads.value r
  known : s.reads.size ≤ s'.reads.size
  demands : ∀ {r mask}, s.Demands r mask → s'.Demands r mask

structure State.Houses (s s' : State) : Prop where
  size : s'.values.size = s.values.size
  listed : ∀ v, (s'.value v).sites = (s.value v).sites
  sites : s'.sites = s.sites
  waiting : s'.registerValues = s.registerValues
  promises : s'.promises = s.promises
  resources : s'.resources = s.resources
  geometry : s'.geometry = s.geometry
  machine : s'.machine = s.machine
  emitter : s'.emitter = s.emitter

namespace State

theorem Retells.trans (first : Retells es s t) (second : Retells es t s') : Retells es s s' :=
  ⟨fun e member => (second.kind e member).trans (first.kind e member),
    fun e member => (second.reads e member).trans (first.reads e member),
    fun r known => (second.value r (Nat.lt_of_lt_of_le known first.known)).trans (first.value r known),
    first.known.trans second.known, fun demands => second.demands (first.demands demands)⟩

theorem Houses.refl (s : State) : Houses s s := ⟨rfl, fun _ => rfl, rfl, rfl, rfl, rfl, rfl, rfl, rfl⟩

theorem Houses.trans (first : Houses s t) (second : Houses t s') : Houses s s' :=
  ⟨second.size.trans first.size, fun v => (second.listed v).trans (first.listed v), second.sites.trans first.sites,
    second.waiting.trans first.waiting, second.promises.trans first.promises, second.resources.trans first.resources,
    second.geometry.trans first.geometry, second.machine.trans first.machine, second.emitter.trans first.emitter⟩

structure Uses (e : EventId) (v : ValueId) (mask : SiteMask) (s s' : State) : Prop where
  rest : s' = { s with values := s'.values, reads := s'.reads, events := s'.events }
  events : s'.events = s.events.modify e.index fun d => { d with reads := d.reads ++ [⟨s.reads.size⟩] }
  size : s'.values.size = s.values.size
  others : ∀ w, w ≠ v → s'.value w = s.value w
  own : s'.value v = { s.value v with reads := (s.value v).reads.or (some ⟨s.reads.size⟩), lastRead := some ⟨s.reads.size⟩ }
  count : s'.reads.size = s.reads.size + 1
  value : ∀ x, s'.reads.value x = if x = ⟨s.reads.size⟩ then v else s.reads.value x
  kind : ∃ successor, s'.reads.kind ⟨s.reads.size⟩ = .single mask successor none
  same : ∀ x, x ≠ ⟨s.reads.size⟩ → (s.value v).lastRead ≠ some x → s'.reads.kind x = s.reads.kind x
  next : ∀ last, (s.value v).lastRead = some last → ∀ m successor, s.reads.kind last = .single m successor none →
    s'.reads.kind last = .single m successor (some ⟨s.reads.size⟩)

end State

theorem demandUses (known : s.IsValue v) (bare : (s.value v).lastRead = none → (s.value v).reads = none)
    (some' : ∀ last, (s.value v).lastRead = some last → (s.value v).reads.isSome ∧ s.reads.IsRead last ∧
      ∃ m successor, s.reads.kind last = .single m successor none) (ok : demand e v mask successor s = .ok () t) :
    Uses e v mask s t := by
  let r : ReadId := ⟨s.reads.size⟩
  let table := (s.reads.push v (.single mask successor none)).2.setEvent r e
  let u : State := State.modifyEvent { s with reads := table } e fun d => { d with reads := d.reads ++ [r] }
  have get : ∀ x, table.get x = if x = r then ⟨v, some e, .single mask successor none⟩ else s.reads.get x := by
    intro x
    have inside : (s.reads.push v (.single mask successor none)).2.IsRead r := (s.reads.readOfPush v _).known
    simp only [table, ReadTable.getSetEvent, ReadTable.getPush, r, inside, and_true, if_true]
    by_cases same : x = ⟨s.reads.size⟩
    · simp [same]
    · have apart : x.index ≠ s.reads.size := fun here => same (by cases x; simp_all)
      simp [same, apart]
  have count : table.size = s.reads.size + 1 := by
    simp [table, ReadTable.setEvent, ReadTable.push, ReadTable.size]
  have linked : linkRead none v r u = .ok () t := ok
  have values : ∀ w, u.value w = s.value w := fun _ => rfl
  have other : ∀ w, w ≠ v → ∀ (x : State) (f : Value → Value), (x.modifyValue v f).value w = x.value w := fun w apart x f => by
    rw [valueModify, if_neg fun here => apart here.1]
  have value : ∀ x, table.value x = if x = r then v else s.reads.value x := fun x => by
    rw [ReadTable.value, get]
    split <;> rfl
  have kind : ∀ x, x ≠ r → table.kind x = s.reads.kind x := fun x apart => by rw [ReadTable.kind, get, if_neg apart, ReadTable.kind]
  have new : table.kind r = .single mask successor none := by rw [ReadTable.kind, get, if_pos rfl]
  cases last : (s.value v).lastRead with
  | none =>
    have last' : (u.value v).lastRead = none := last
    simp only [linkRead, getBind, last'] at linked
    cases linked
    refine ⟨rfl, rfl, by simp [u, modifyEvent], fun w apart => ?_, ?_, count, value, ⟨successor, new⟩,
      fun x apart _ => kind x apart, fun x before => by simp [last] at before⟩
    · rw [other w apart, other w apart, values]
    · have inside : (u.modifyValue v fun d => { d with reads := some r }).IsValue v := by
        simpa [IsValue, u, modifyEvent, modifyValue] using known
      rw [valueModify, if_pos ⟨rfl, inside⟩, valueModify, if_pos ⟨rfl, known⟩, values, bare last]
      rfl
  | some x =>
    have last' : (u.value v).lastRead = some x := last
    obtain ⟨head, old, m, follower, ending⟩ := some' x last
    have apart : x ≠ r := by
      rintro rfl
      exact absurd old (Nat.lt_irrefl _)
    have appended : table.append x r = (none, table.setKind x (.single m follower (some r))) := by
      rw [ReadTable.append, kind x apart, ending]
    have tables : u.reads = table := rfl
    simp only [linkRead, getBind, last', tables, appended] at linked
    cases linked
    have isRead : table.IsRead x := by
      show x.index < table.size
      rw [count]
      exact Nat.lt_succ_of_lt old
    refine ⟨rfl, rfl, by simp [u, modifyEvent], fun w apart => ?_, ?_, ?_, fun y => ?_, ⟨successor, ?_⟩, fun y other before => ?_, ?_⟩
    · rw [other w apart]
      rfl
    · rw [valueModify, if_pos ⟨rfl, known⟩]
      have same : State.value { u with reads := table.setKind x (.single m follower (some r)) } v = s.value v := rfl
      rw [same, Option.or_of_isSome head]
    · exact (ReadTable.sizeSetKind ..).trans count
    · refine Eq.trans ?_ (value y)
      show (table.setKind x _).value y = _
      rw [ReadTable.value, ReadTable.getSetKind]
      split
      · rename_i here
        rw [here.1, ReadTable.value]
      · rfl
    · exact (ReadTable.kindSetKind ..).trans ((if_neg fun here => apart here.1.symm).trans new)
    · refine (ReadTable.kindSetKind ..).trans ((if_neg fun here => ?_).trans (kind y other))
      exact before (here.1 ▸ last)
    · intro z here m' follower' ends
      cases last.symm.trans here
      cases ending.symm.trans ends
      exact (ReadTable.kindSetKind ..).trans (if_pos ⟨rfl, isRead⟩)

namespace State

theorem Lined.isRead (h : s.Lined queue) (member : r ∈ queue) : s.reads.IsRead r := h.queued.isRead member

theorem Lined.uses (h : s.Lined queue) (known : s.IsValue v) (ok : demand e v mask successor s = .ok () t) :
    Uses e v mask s t := by
  refine demandUses known (fun none => ?_) (fun last here => ?_) ok
  · rw [h.lasts, List.getLast?_eq_none_iff] at none
    exact (h.queued v).eqNone.mpr none
  · rw [h.lasts] at here
    have chained := h.queued v
    obtain ⟨before, split⟩ := List.getLast?_eq_some_iff.mp here
    have member : last ∈ s.readsOf queue v := List.mem_of_getLast? here
    refine ⟨?_, h.isRead (memReadsOf.mp member).1, ?_⟩
    · rw [Option.isSome_iff_ne_none, ne_eq, chained.eqNone]
      exact List.ne_nil_of_mem member
    · rw [split] at chained
      exact chained.ends

theorem Uses.demands {x : ReadId} {m : SiteMask} (h : Uses e v mask s t) (lined : s.Lined queue) (known : s.reads.IsRead x)
    (demands : s.Demands x m) : t.Demands x m := by
  obtain ⟨successor, next, kind⟩ := demands
  have apart : x ≠ ⟨s.reads.size⟩ := by
    rintro rfl
    exact absurd known (Nat.lt_irrefl _)
  by_cases last : (s.value v).lastRead = some x
  · have chained := lined.queued v
    rw [lined.lasts] at last
    obtain ⟨before, split⟩ := List.getLast?_eq_some_iff.mp last
    rw [split] at chained
    obtain ⟨m', successor', ends⟩ := chained.ends
    cases kind.symm.trans ends
    exact ⟨_, _, h.next x (by rw [lined.lasts, last]) _ _ ends⟩
  · exact ⟨successor, next, (h.same x apart last).trans kind⟩

theorem Uses.lined (h : Uses e v mask s t) (lined : s.Lined queue) : t.Lined (queue ++ [⟨s.reads.size⟩]) := by
  have fresh : ∀ x ∈ queue, x ≠ ⟨s.reads.size⟩ := by
    rintro x member rfl
    exact absurd (lined.isRead member) (Nat.lt_irrefl _)
  have old : ∀ w, t.readsOf queue w = s.readsOf queue w := fun w =>
    List.filter_congr fun x member => by rw [h.value, if_neg (fresh x member)]
  have reads : ∀ w, t.readsOf (queue ++ [⟨s.reads.size⟩]) w =
      s.readsOf queue w ++ if w = v then [⟨s.reads.size⟩] else [] := by
    intro w
    have split : t.readsOf (queue ++ [⟨s.reads.size⟩]) w = t.readsOf queue w ++ t.readsOf [⟨s.reads.size⟩] w :=
      List.filter_append ..
    rw [split, old]
    congr 1
    simp only [State.readsOf, List.filter_cons, List.filter_nil, h.value, if_true, beq_iff_eq]
    by_cases same : w = v
    · simp [same]
    · simp [same, Ne.symm same]
  have kind : ∀ w, ∀ x ∈ s.readsOf queue w, (s.value v).lastRead ≠ some x → t.reads.kind x = s.reads.kind x :=
    fun w x member other => h.same x (fresh x (memReadsOf.mp member).1) other
  refine ⟨fun w => ?_, fun w => ?_⟩
  · rw [reads]
    have chained := lined.queued w
    by_cases same : w = v
    · subst same
      rw [if_pos rfl, h.own]
      dsimp only
      cases last : (s.value w).lastRead with
      | none =>
        have empty := last
        rw [lined.lasts, List.getLast?_eq_none_iff] at empty
        rw [empty, chained.eqNone.mpr empty]
        obtain ⟨successor, new⟩ := h.kind
        exact ⟨rfl, mask, successor, none, new, rfl⟩
      | some x =>
        have ending := last
        rw [lined.lasts] at ending
        obtain ⟨before, split⟩ := List.getLast?_eq_some_iff.mp ending
        have head : (s.value w).reads.isSome := by
          rw [Option.isSome_iff_ne_none, ne_eq, chained.eqNone, split]
          simp
        rw [Option.or_of_isSome head, split]
        rw [split] at chained
        obtain ⟨m, successor, ends⟩ := chained.ends
        obtain ⟨successor', new⟩ := h.kind
        refine chained.snoc (fun y member other => ?_) ⟨_, _, h.next x last _ _ ends⟩ ⟨_, _, new⟩
        refine kind w y (by rw [split]; exact List.mem_append_left _ member) fun same => other ?_
        exact Option.some.inj (same.symm.trans last)
    · rw [if_neg same, List.append_nil, h.others w same]
      refine chained.congr fun x member => kind w x member fun last => ?_
      rw [lined.lasts] at last
      have own := (memReadsOf.mp (List.mem_of_getLast? last)).2
      exact same ((memReadsOf.mp member).2.symm.trans own)
  · rw [reads]
    by_cases same : w = v
    · subst same
      rw [if_pos rfl, h.own, List.getLast?_concat]
    · rw [if_neg same, List.append_nil, h.others w same]
      exact lined.lasts w

theorem Uses.houses (h : Uses e v mask s t) : Houses s t := by
  have fields : t.sites = s.sites ∧ t.registerValues = s.registerValues ∧ t.promises = s.promises ∧
      t.resources = s.resources ∧ t.geometry = s.geometry ∧ t.machine = s.machine ∧ t.emitter = s.emitter := by
    rw [h.rest]
    exact ⟨rfl, rfl, rfl, rfl, rfl, rfl, rfl⟩
  obtain ⟨sites, waiting, promises, resources, geometry, machine, emitter⟩ := fields
  refine ⟨h.size, fun w => ?_, sites, waiting, promises, resources, geometry, machine, emitter⟩
  by_cases same : w = v
  · rw [same, h.own]
  · rw [h.others w same]

theorem Uses.event (h : Uses e v mask s t) (x : EventId) : t.event x =
    if x = e ∧ e.index < s.events.size then { s.event e with reads := (s.event e).reads ++ [⟨s.reads.size⟩] } else s.event x := by
  rw [← eventModify s e x fun d => { d with reads := d.reads ++ [⟨s.reads.size⟩] }, State.event, h.events]
  rfl

end State

namespace State

theorem Threaded.calm (h : Threaded es s) (calm : s.Calm t) (links : t.links = s.links) (same : ∀ x,
    (t.event x).successors = (s.event x).successors ∧ (t.event x).junction = (s.event x).junction ∧
      (t.event x).kind = (s.event x).kind) : Threaded es t := by
  refine ⟨h.scheduled.calm calm, ⟨fun x => ?_, fun x => ?_, fun x => ?_, fun x => ?_, fun x => ?_, fun l => ?_⟩,
    calm.predecessor.trans h.cursor, fun x other => ?_, calm.fork.trans h.fork⟩
  · rw [(calm.event x).1]
    exact h.straight.predecessors x
  · rw [(same x).1]
    exact h.straight.successors x
  · rw [(calm.event x).2.1]
    exact h.straight.revisits x
  · rw [(same x).2.1]
    exact h.straight.junction x
  · rw [(same x).2.2]
    exact h.straight.kind x
  · rw [State.link, links]
    exact h.straight.links l
  · rw [(same x).1]
    exact h.ending x other

theorem Threaded.rebound (h : Threaded es s) (links : t.links = s.links) (events : t.events = s.events) (forks : t.forks = s.forks)
    (place : (t.firstEvent, t.lastEvent, t.predecessor, t.fork) = (s.firstEvent, s.lastEvent, s.predecessor, s.fork))
    (bounded : ∀ p, some p ∈ t.bounds → (∀ e ∈ p.1, e ∈ es) ∧ ∀ e ∈ p.2, e ∈ es) : Threaded es t := by
  simp only [Prod.mk.injEq] at place
  obtain ⟨firstEvent, lastEvent, predecessor, fork⟩ := place
  have event : t.event = s.event := by funext x; rw [State.event, events, State.event]
  have link : t.link = s.link := by funext l; rw [State.link, links, State.link]
  have straight := h.straight
  exact ⟨h.scheduled.rebound links events forks (by rw [firstEvent, lastEvent, predecessor]) bounded,
    ⟨by rw [event]; exact straight.predecessors, by rw [event]; exact straight.successors, by rw [event]; exact straight.revisits,
      by rw [event]; exact straight.junction, by rw [event]; exact straight.kind, by rw [link]; exact straight.links⟩,
    predecessor.trans h.cursor, by rw [event]; exact h.ending, fork.trans h.fork⟩

theorem Uses.field {β : Type} (h : Uses e v mask s t) (x : EventId) (g : Event → β) (reads : ∀ d rs, g { d with reads := rs } = g d) :
    g (t.event x) = g (s.event x) := by
  rw [h.event]
  split
  · rename_i here
    rw [here.1, reads]
  · rfl

theorem Uses.calm (h : Uses e v mask s t) : s.Calm t := by
  have fields : t.firstEvent = s.firstEvent ∧ t.lastEvent = s.lastEvent ∧ t.predecessor = s.predecessor ∧ t.fork = s.fork ∧
      t.forks = s.forks ∧ t.ip = s.ip ∧ t.bounds = s.bounds ∧ t.links = s.links := by
    rw [h.rest]
    exact ⟨rfl, rfl, rfl, rfl, rfl, rfl, rfl, rfl⟩
  obtain ⟨firstEvent, lastEvent, predecessor, fork, forks, ip, bounds, links⟩ := fields
  exact ⟨firstEvent, lastEvent, predecessor, fork, forks, ip, bounds, by rw [links], by simp [h.events], fun x =>
    ⟨h.field x Event.predecessors fun _ _ => rfl, h.field x Event.revisits fun _ _ => rfl,
      h.field x Event.following fun _ _ => rfl⟩⟩

theorem Uses.retells (h : Uses e v mask s t) (lined : s.Lined queue) (new : e ∉ es) : Retells es s t := by
  refine ⟨fun x _ => h.field x Event.kind fun _ _ => rfl, fun x member => ?_, fun x known => ?_, ?_, fun {x m} demands => ?_⟩
  · rw [h.event, if_neg]
    rintro ⟨rfl, -⟩
    exact new member
  · rw [h.value, if_neg]
    rintro rfl
    exact absurd known (Nat.lt_irrefl _)
  · rw [h.count]
    exact Nat.le_succ _
  · refine h.demands lined ?_ demands
    obtain ⟨_, _, kind⟩ := demands
    exact ReadTable.isReadOfPending (.single kind)

structure Reading (es : List EventId) (e : EventId) (uses : List (ValueId × SiteMask × Option ValueId)) (s t : State) : Prop where
  threaded : Threaded es t
  retells : Retells es s t
  houses : Houses s t
  size : t.events.size = s.events.size
  rest : t = { s with values := t.values, reads := t.reads, events := t.events }
  fields : (t.event e).kind = (s.event e).kind ∧ (t.event e).ip = (s.event e).ip
  lined : t.Lined (es.flatMap (fun x => (t.event x).reads) ++ (t.event e).reads)
  reads : ∃ rs, (t.event e).reads = (s.event e).reads ++ rs ∧
    List.Forall₂ (fun u r => t.reads.value r = u.1 ∧ t.Demands r u.2.1) uses rs

end State

theorem demandsRead (uses : List (ValueId × SiteMask × Option ValueId)) : ∀ {s : State}, Threaded es s → e ∉ es →
    e.index < s.events.size → s.Lined (es.flatMap (fun x => (s.event x).reads) ++ (s.event e).reads) →
    (∀ u ∈ uses, s.IsValue u.1) → uses.forM (fun u => demand e u.1 u.2.1 u.2.2) s = .ok () t → Reading es e uses s t := by
  induction uses with
  | nil =>
    intro s threaded _ _ lined _ ok
    obtain ⟨-, rfl⟩ := pureOk.mp ok
    exact ⟨threaded, ⟨fun _ _ => rfl, fun _ _ => rfl, fun _ _ => rfl, le_rfl, id⟩, .refl s, rfl, rfl, ⟨rfl, rfl⟩, lined, [], by simp, .nil⟩
  | cons use rest ih =>
    intro s threaded new inside lined known ok
    obtain ⟨⟨⟩, u, first, later⟩ := bindOk.mp ok
    have uses := lined.uses (known use List.mem_cons_self) first
    have event : u.event e = { s.event e with reads := (s.event e).reads ++ [⟨s.reads.size⟩] } := by
      rw [uses.event, if_pos ⟨rfl, inside⟩]
    have retells := uses.retells lined new
    have old : es.flatMap (fun x => (u.event x).reads) = es.flatMap fun x => (s.event x).reads :=
      List.flatMap_congr fun x member => retells.reads x member
    have links : u.links = s.links := by rw [uses.rest]
    have count : u.events.size = s.events.size := by simp [uses.events]
    have next := ih (s := u) (threaded.calm uses.calm links fun x => ⟨uses.field x Event.successors fun _ _ => rfl,
      uses.field x Event.junction fun _ _ => rfl, uses.field x Event.kind fun _ _ => rfl⟩) new (by rwa [count])
      (by rw [old, event, ← List.append_assoc]; exact uses.lined lined)
      (fun w member => by
        rw [IsValue, uses.size]
        exact known w (List.mem_cons_of_mem _ member)) later
    obtain ⟨rs, reads, served⟩ := next.reads
    refine ⟨next.threaded, retells.trans next.retells, uses.houses.trans next.houses, next.size.trans count, ?_,
      ⟨next.fields.1.trans (by rw [event]), next.fields.2.trans (by rw [event])⟩, next.lined, ⟨s.reads.size⟩ :: rs, ?_, .cons ⟨?_, ?_⟩ served⟩
    · rw [next.rest, uses.rest]
    · rw [reads, event]
      simp
    · rw [next.retells.value _ (by rw [ReadTable.IsRead, uses.count]; exact Nat.lt_succ_self _), uses.value, if_pos rfl]
    · obtain ⟨successor, kind⟩ := uses.kind
      exact next.retells.demands ⟨successor, none, kind⟩

/-! Appending. -/

structure State.Annexes (s s' : State) : Prop where
  rest : s' = { s with
    events := s'.events, links := s'.links, instructions := s'.instructions, firstEvent := s'.firstEvent
    lastEvent := s'.lastEvent, predecessor := s'.predecessor, fork := s'.fork }
  reads : ∀ x, x.index < s.events.size → (s'.event x).reads = (s.event x).reads
  kind : ∀ x, x.index < s.events.size → (s'.event x).kind = (s.event x).kind
  place : ∀ x, x.index < s.events.size → (s'.event x).ip = (s.event x).ip
  count : s.events.size ≤ s'.events.size

namespace State.Annexes

theorem trans (first : Annexes s t) (second : Annexes t s') : Annexes s s' :=
  ⟨by rw [second.rest, first.rest], fun x inside => (second.reads x (inside.trans_le first.count)).trans (first.reads x inside),
    fun x inside => (second.kind x (inside.trans_le first.count)).trans (first.kind x inside),
    fun x inside => (second.place x (inside.trans_le first.count)).trans (first.place x inside), first.count.trans second.count⟩

theorem houses (h : Annexes s t) : Houses s t := by
  have fields : t.values = s.values ∧ t.sites = s.sites ∧ t.registerValues = s.registerValues ∧ t.promises = s.promises ∧
      t.resources = s.resources ∧ t.geometry = s.geometry ∧ t.machine = s.machine ∧ t.emitter = s.emitter := by
    rw [h.rest]
    exact ⟨rfl, rfl, rfl, rfl, rfl, rfl, rfl, rfl⟩
  obtain ⟨values, sites, waiting, promises, resources, geometry, machine, emitter⟩ := fields
  exact ⟨by rw [values], fun v => by rw [State.value, values, State.value], sites, waiting, promises, resources, geometry,
    machine, emitter⟩

theorem readTable (h : Annexes s t) : t.reads = s.reads := by rw [h.rest]

theorem lined (h : Annexes s t) (lined : s.Lined queue) : t.Lined queue := by
  have reads := h.readTable
  have value : ∀ v, t.value v = s.value v := fun v => by rw [h.rest]; rfl
  have own : ∀ v, t.readsOf queue v = s.readsOf queue v := fun v => by rw [State.readsOf, reads, State.readsOf]
  exact ⟨fun v => by rw [reads, value, own]; exact lined.queued v, fun v => by rw [value, own]; exact lined.lasts v⟩

theorem retells (h : Annexes s t) (known : ∀ x ∈ es, x.index < s.events.size) : Retells es s t := by
  have reads := h.readTable
  refine ⟨fun x member => h.kind x (known x member), fun x member => h.reads x (known x member), fun r _ => by rw [reads],
    by rw [reads], fun {r m} demands => ?_⟩
  rwa [State.Demands, reads]

end State.Annexes

theorem linkAnnexes (ok : linkEvent e s = .ok () t) : Annexes s t := by
  obtain rfl := linkEventOk ok
  have event : ∀ x, ((s.lineUp e).tell e).event x = (s.lineUp e).event x := fun _ => rfl
  refine ⟨?_, fun x _ => ?_, fun x _ => ?_, fun x _ => ?_, ?_⟩
  · unfold State.tell State.lineUp newLink modifyEvent
    cases s.lastEvent <;> cases s.predecessor <;> rfl
  · rw [event, lineUpField s e x Event.reads (fun _ _ => rfl) (fun _ _ => rfl) fun _ _ => rfl]
  · rw [event, lineUpField s e x Event.kind (fun _ _ => rfl) (fun _ _ => rfl) fun _ _ => rfl]
  · rw [event, lineUpField s e x Event.ip (fun _ _ => rfl) (fun _ _ => rfl) fun _ _ => rfl]
  · obtain ⟨-, -, -, -, -, -, size, -⟩ := lineUpRest (s := s) e
    exact size.ge

theorem createAnnexes (ok : createEvent kind s = .ok e t) : Annexes s t := by
  obtain ⟨rfl, rfl⟩ := Prod.ext_iff.mp (modifyGetOk.mp ok)
  have event : ∀ x : EventId, x.index < s.events.size → State.event { s with
      events := s.events.push { kind, stackBefore := s.stack, localsBefore := s.locals, ip := s.ip } } x = s.event x :=
    fun x inside => by rw [eventCreated, if_neg (Nat.ne_of_lt inside)]
  refine ⟨rfl, fun x inside => ?_, fun x inside => ?_, fun x inside => ?_, by simp⟩ <;> exact congrArg _ (event x inside)

theorem linkTells (ok : linkEvent e s = .ok () t) : ∃ d, t.instruction? (s.event e).ip = some d ∧ d.lastEvent.isSome := by
  have place := lineUpField s e e Event.ip (fun _ _ => rfl) (fun _ _ => rfl) fun _ _ => rfl
  rw [linkedEvent] at ok
  split at ok
  · rename_i d found
    cases ok
    rw [place] at found
    refine ⟨d.lengthen e, ?_, rfl⟩
    have told : ((s.lineUp e).tell e).instructions = (s.lineUp e).instructions.modify ((s.event e).ip + 1).toNat
        (Option.map (Instruction.lengthen e)) := by
      rw [← place]
      rfl
    unfold instruction? at found ⊢
    split at found
    · cases found
    · rename_i low
      rw [if_neg low, told, Array.getD_eq_getD_getElem?, Array.getElem?_modify, if_pos rfl]
      rw [Array.getD_eq_getD_getElem?] at found
      cases here : (s.lineUp e).instructions[((s.event e).ip + 1).toNat]? with
      | none => simp [here] at found
      | some i =>
        rw [here] at found
        simp_all
  · cases ok

theorem appendDummyOk (ok : appendDummy s = .ok () t) : ∃ stack l d u w, createEvent .dummy { s with stack, locals := l } = .ok d u ∧
    linkEvent d u = .ok () w ∧ t = { w with stack := s.stack, locals := s.locals } := by
  unfold appendDummy at ok
  rw [getBind, getBind, getBind] at ok
  obtain ⟨entry, s₁, found, ok⟩ := bindOk.mp ok
  obtain rfl : s₁ = s := by
    rw [foundInstruction] at found
    split at found
    · cases found
      rfl
    · cases found
  rw [modifyBind, ensuringOk] at ok
  obtain ⟨w, linked, rfl⟩ := ok
  obtain ⟨d, u, created, linked⟩ := bindOk.mp linked
  exact ⟨_, _, d, u, w, created, linked, rfl⟩

theorem dummyAppends (threaded : Threaded es s) (ok : appendDummy s = .ok () t) :
    ∃ d, Threaded (es ++ [d]) t ∧ s.events.size ≤ d.index ∧ Annexes s t ∧ (t.event d).kind = .dummy ∧ (t.event d).reads = [] := by
  obtain ⟨stack, l, d, u, w, created, linked, rfl⟩ := appendDummyOk ok
  have before : Threaded es { s with stack, locals := l } :=
    threaded.calm (.still rfl rfl rfl rfl rfl) rfl fun _ => ⟨rfl, rfl, rfl⟩
  obtain ⟨threaded₁, new, inside, state, here⟩ := before.create rfl created
  have first := createAnnexes created
  have second := linkAnnexes linked
  have threaded₂ := threaded₁.link new inside linked
  have after : Threaded (es ++ [d]) { w with stack := s.stack, locals := s.locals } :=
    threaded₂.calm (.still rfl rfl rfl rfl rfl) rfl fun _ => ⟨rfl, rfl, rfl⟩
  have event : u.event d = { kind := .dummy, stackBefore := stack, localsBefore := l, ip := s.ip } := by
    rw [state, here]
    exact (eventCreated _ _).trans (if_pos rfl)
  have all := first.trans second
  refine ⟨d, after, by rw [here], ⟨?_, all.reads, all.kind, all.place, all.count⟩, ?_, ?_⟩
  · have rest := all.rest
    rw [rest]
  · show (w.event d).kind = _
    rw [second.kind d inside, event]
  · show (w.event d).reads = _
    rw [second.reads d inside, event]

structure State.Appended (es : List EventId) (kind : EventKind) (uses : List (ValueId × SiteMask × Option ValueId)) (s t : State)
    (ds : List EventId) (e : EventId) : Prop where
  threaded : Threaded (es ++ ds ++ [e]) t
  lined : t.Lined ((es ++ ds ++ [e]).flatMap fun x => (t.event x).reads)
  retells : Retells es s t
  houses : Houses s t
  frames : t.frames = s.frames ∧ t.stack = s.stack ∧ t.locals = s.locals ∧ t.ip = s.ip
  told : ∃ d, t.instruction? t.ip = some d ∧ d.lastEvent.isSome
  idle : ∀ d ∈ ds, (t.event d).kind = .dummy ∧ (t.event d).reads = []
  kind : (t.event e).kind = kind
  reads : List.Forall₂ (fun u r => t.reads.value r = u.1 ∧ t.Demands r u.2.1) uses (t.event e).reads

theorem appendEventOk (ok : appendEvent e s = .ok () t) :
    linkEvent e s = .ok () t ∨ ∃ u, appendDummy s = .ok () u ∧ linkEvent e u = .ok () t := by
  rw [appendSteps] at ok
  cases found : s.instruction? s.ip with
  | none => simp [found] at ok
  | some entry =>
    simp only [found] at ok
    split at ok
    · obtain ⟨⟨⟩, u, first, second⟩ := bindOk.mp ok
      exact .inr ⟨u, first, second⟩
    · exact .inl ok

theorem operationAppends {uses : List (ValueId × SiteMask × Option ValueId)} (threaded : Threaded es s)
    (lined : s.Lined (es.flatMap fun x => (s.event x).reads)) (on : kind.goesOn = true) (known : ∀ u ∈ uses, s.IsValue u.1)
    (ok : Append.operation kind (fun e => uses.forM fun u => demand e u.1 u.2.1 u.2.2) s = .ok () t) :
    ∃ ds e, Appended es kind uses s t ds e := by
  obtain ⟨e, u, created, ok⟩ := bindOk.mp ok
  obtain ⟨⟨⟩, w, demanded, appended⟩ := bindOk.mp ok
  obtain ⟨threaded₁, new, inside, state, here⟩ := threaded.create on created
  have first := createAnnexes created
  have retold := first.retells threaded.scheduled.known
  have event : u.event e = { kind, stackBefore := s.stack, localsBefore := s.locals, ip := s.ip } := by
    rw [state, here]
    exact (eventCreated _ _).trans (if_pos rfl)
  have old : es.flatMap (fun x => (u.event x).reads) = es.flatMap fun x => (s.event x).reads :=
    List.flatMap_congr fun x member => retold.reads x member
  have lined₁ : u.Lined (es.flatMap (fun x => (u.event x).reads) ++ (u.event e).reads) := by
    rw [old, event]
    simpa using first.lined lined
  have reading := demandsRead uses threaded₁ new inside lined₁ (fun p member => by
    have size : u.values.size = s.values.size := by rw [state]
    rw [IsValue, size]
    exact known p member) demanded
  have finish : ∀ ds v, Threaded (es ++ ds) v → Annexes w v → e ∉ es ++ ds →
      (∀ d ∈ ds, (v.event d).kind = .dummy ∧ (v.event d).reads = []) → linkEvent e v = .ok () t →
      Appended es kind uses s t ds e := by
    intro ds v strung annexed outside idle linked
    have inside' : e.index < w.events.size := by rwa [reading.size]
    have last := linkAnnexes linked
    have whole := strung.link outside (inside'.trans_le annexed.count) linked
    have annexed' := annexed.trans last
    have idle' : ∀ d ∈ ds, (t.event d).kind = .dummy ∧ (t.event d).reads = [] := fun d member => by
      have there := strung.scheduled.known d (List.mem_append_right _ member)
      rw [last.kind d there, last.reads d there]
      exact idle d member
    have retells := (retold.trans reading.retells).trans (annexed'.retells reading.threaded.scheduled.known)
    have readers : (t.event e).reads = (w.event e).reads := annexed'.reads e inside'
    refine ⟨whole, ?_, retells, (first.houses.trans reading.houses).trans annexed'.houses, ?_, ?_, idle', ?_, ?_⟩
    · have none : ds.flatMap (fun x => (t.event x).reads) = [] := List.flatMap_eq_nil_iff.mpr fun d member => (idle' d member).2
      have same : es.flatMap (fun x => (t.event x).reads) = es.flatMap fun x => (w.event x).reads :=
        List.flatMap_congr fun x member => annexed'.reads x (reading.threaded.scheduled.known x member)
      rw [List.flatMap_append, List.flatMap_append, none, same, List.append_nil, List.flatMap_cons, List.flatMap_nil,
        List.append_nil, readers]
      exact annexed'.lined reading.lined
    · rw [annexed'.rest, reading.rest, first.rest]
      exact ⟨rfl, rfl, rfl, rfl⟩
    · have place : (v.event e).ip = t.ip := by
        rw [annexed.place e inside', reading.fields.2, event, annexed'.rest, reading.rest, first.rest]
      rw [← place]
      exact linkTells linked
    · rw [annexed'.kind e inside', reading.fields.1, event]
    · obtain ⟨rs, reads, served⟩ := reading.reads
      rw [event, List.nil_append] at reads
      rw [readers, reads]
      have table := annexed'.readTable
      simpa only [State.Demands, table] using served
  rcases appendEventOk appended with linked | ⟨v, dummied, linked⟩
  · refine ⟨[], e, finish [] w (by simpa using reading.threaded) ⟨rfl, fun _ _ => rfl, fun _ _ => rfl, fun _ _ => rfl, le_rfl⟩
      (by simpa using new) (by simp) linked⟩
  · obtain ⟨d, strung, later, annexed, kind', reads'⟩ := dummyAppends reading.threaded dummied
    refine ⟨[d], e, finish [d] v strung annexed (fun member => ?_) (by simp [kind', reads']) linked⟩
    rcases List.mem_append.mp member with member | member
    · exact new member
    · rw [List.mem_singleton.mp member, ← reading.size] at inside
      exact absurd inside (Nat.not_lt.mpr later)

end Lowering
