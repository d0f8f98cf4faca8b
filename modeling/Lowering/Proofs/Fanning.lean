import Lowering.Proofs.Following
/-!
The reads of paths.

After a branch point every value that was saved there is read on each path where it was read first on that path, if
it was read there at all. The paths are numbered when they are opened, and they are counted again when their links
are followed.
-/
namespace Lowering

open Build State

variable {s s' t u : State} {es : List EventId} {opened before later : List OpenedPath} {o : OpenedPath}

/-! The method that is compiled. -/

theorem eventsScheduled (scheduled : t.Scheduled es) : Compile.eventsFrom t t.events.size t.firstEvent = es := by
  have walk : ∀ (later before : List EventId) (fuel : Nat), es = before ++ later → later.length ≤ fuel →
      Compile.eventsFrom t fuel later.head? = later := by
    intro later
    induction later with
    | nil => intro before fuel _ _; cases fuel <;> rfl
    | cons e rest ih =>
      intro before fuel split enough
      obtain ⟨fuel, rfl⟩ : ∃ n, fuel = n + 1 := Nat.exists_eq_succ_of_ne_zero (by simp at enough; omega)
      have next := scheduled.chain before e rest split
      change e :: Compile.eventsFrom t fuel (t.event e).following = e :: rest
      rw [next, ih (before ++ [e]) fuel (by simpa using split) (by simpa using enough)]
  rw [scheduled.first]
  refine walk es [] t.events.size rfl ?_
  have indices : (es.map EventId.index).Nodup := scheduled.once.map fun a b same => by cases a; cases b; simpa using same
  have inside : es.map EventId.index ⊆ List.range t.events.size := fun i member => by
    obtain ⟨e, inside, rfl⟩ := List.mem_map.mp member
    exact List.mem_range.mpr (scheduled.known e inside)
  simpa using (indices.subperm inside).length_le

theorem steadyClaims : Within Steady Compile.claimRegisterValues := by
  refine .bind .get fun s => .bind (.modify fun _ => ⟨.still rfl rfl rfl rfl rfl, rfl, le_rfl⟩) fun _ => .forM fun o => ?_
  refine .bind (steadyGrants.firmly (stirringLive _).firmly) fun _ => .ite (.bind .get fun _ => ?_) .pure
  exact .ite (steadyGrants.firmly (stirringAcquire ..).firmly) .pure

theorem prologueSteady {handler : Option Int} {limitOffset : Nat} (ok : Compile.prologue handler limitOffset s = .ok () t) :
    ∃ u, ensureEvent s = .ok () u ∧ u.Steady t := by
  have emits : ∀ q, Within Steady (emit q) := fun q => steadyGrants.firmly (stirringEmit q).firmly
  have frame : Within Steady (do
      emit (.allocateFrame (← get).frameSize)
      Compile.claimRegisterValues : Build Unit) := .bind .get fun _ => .bind (emits _) fun _ => steadyClaims
  obtain ⟨⟨⟩, u, ensured, rest⟩ := bindOk.mp ok
  refine ⟨u, ensured, ?_⟩
  cases handler with
  | none => exact frame.holds rest
  | some h => exact (Within.bind (emits _) fun _ => frame).holds rest

theorem State.Tracks.forked (tracks : s.Tracks opened) (drafted : s.Drafted) : s.Forked := by
  refine ⟨tracks.exist, tracks.distinct, fun f => ?_, tracks.apart⟩
  have values : ((s.forkAt f).forks.map (·.2)).map s.reads.value = s.captured f := by
    rw [List.map_map, captured]
    exact List.map_congr_left fun p member => (drafted.readOf member).value
  exact (values ▸ tracks.distinct f : (((s.forkAt f).forks.map (·.2)).map s.reads.value).Nodup).of_map

theorem State.Forked.grow (forked : s.Forked) (forks : s'.forks = s.forks) (values : s.values.size ≤ s'.values.size) :
    s'.Forked := by
  have fork : s'.forkAt = s.forkAt := by funext f; simp only [forkAt, forks]
  refine ⟨fun f v member => ?_, fun f => ?_, fun f => ?_, ?_⟩
  · rw [captured, fork] at member
    exact (forked.exist f v member).trans_le values
  · rw [captured, fork]
    exact forked.values f
  · rw [fork]
    exact forked.reads f
  · rw [fork]
    exact forked.apart

/-! The number of a path. -/

/- The links that leave the state of a path before it are those of the paths that were opened on it earlier. -/
theorem departuresBefore (marks : t.Marks (before ++ o :: later)) (apart : Apart (before ++ o :: later))
    (belongs : ∀ i < o.link.index, (t.link ⟨i⟩).fork = some o.fork → ∃ p ∈ before, p.link = ⟨i⟩) :
    t.departures o.fork o.link.index = before.countP (·.fork = o.fork) := by
  obtain ⟨earlier, -, ordered⟩ := List.pairwise_append.mp apart
  have below : ∀ p ∈ before, p.link.index < o.link.index := fun p member => ordered p member o List.mem_cons_self
  have leaves : ∀ p ∈ before, (t.link p.link).fork = some p.fork := fun p member =>
    marks.made p (by simp [member]) ((below p member).trans_le (marks.bound o (by simp)))
  have same : ((List.range o.link.index).filter fun i => (t.link ⟨i⟩).fork = some o.fork).Perm
      ((before.filter (·.fork = o.fork)).map (·.link.index)) := by
    refine (List.perm_ext_iff_of_nodup (List.nodup_range.filter _) ?_).mpr fun i => ?_
    · exact List.pairwise_map.mpr ((earlier.sublist List.filter_sublist).imp fun below => below.ne)
    · simp only [List.mem_filter, List.mem_range, List.mem_map, decide_eq_true_eq]
      constructor
      · rintro ⟨inside, fork⟩
        obtain ⟨p, member, link⟩ := belongs i inside fork
        have here := leaves p member
        rw [link, fork] at here
        exact ⟨p, ⟨member, (Option.some.inj here).symm⟩, congrArg LinkId.index link⟩
      · rintro ⟨p, ⟨member, fork⟩, rfl⟩
        exact ⟨below p member, by rw [← fork]; exact leaves p member⟩
  rw [departures, List.countP_eq_length_filter, same.length_eq, List.length_map, List.countP_eq_length_filter]

theorem countFor {v : ValueId} (captured : v ∈ s.captured o.fork) (before : List OpenedPath) :
    (s.openedFor v before).countP (·.fork = o.fork) = before.countP (·.fork = o.fork) := by
  rw [openedFor, List.countP_filter]
  refine List.countP_congr fun p _ => ?_
  simp only [Bool.and_eq_true, decide_eq_true_eq, and_iff_left_iff_imp]
  intro same
  rw [same]
  exact captured

/- When the link of a path is followed, every value that was saved is read next where it was read first after the path
was opened and before a path was opened on a state, this one or another, that captured it too. -/
theorem pathsReceiveFirst {machine : Description} {settings : Settings} {emitter : Emitter} {helpers : Option HelperAddress}
    {calls : List ClientCall} {handler : Option Int} {limitOffset : Nat} {v : ValueId} {r : ReadId}
    (describes : ∀ c ∈ calls, c.Describes) (fits : ∀ c ∈ calls, c.Fits fun _ => True)
    (grounded : (fresh machine settings emitter helpers).Grounded calls)
    (history : s = (fresh machine settings emitter helpers).history calls)
    (split : (fresh machine settings emitter helpers).opened calls = before ++ o :: later)
    (apart : Apart (before ++ o :: later))
    (prologue : Compile.prologue handler limitOffset s = .ok () t)
    (belongs : ∀ i < o.link.index, (t.link ⟨i⟩).fork = some o.fork → ∃ p ∈ before, p.link = ⟨i⟩)
    (entry : ∀ e ∈ t.firstEvent, (t.event e).predecessors = [])
    (captured : (v, r) ∈ (s.forkAt o.fork).forks)
    (comes : Compile.ComesTo (Compile.eventsFrom t t.events.size t.firstEvent) t o.link u) :
    (u.link o.link).fork = some o.fork ∧
      ((u.takePaths o.fork).value v).reads =
        s.reads.received? v o.reads (((s.openedFor v later).head?.map (·.reads)).getD s.reads.size) := by
  have drafted := (historyDrafts describes fits (draftedFresh machine settings emitter helpers)).drafted
  have tracks := tracksHistory describes fits grounded
  have strung := strungHistory describes fits grounded (by rwa [split])
  rw [← history, split] at tracks strung
  rw [← history] at drafted
  obtain ⟨w, ensured, steady⟩ := prologueSteady prologue
  have links := linksEnsureEvent.holds ensured
  have strung := (Proceeds.calm steady.calm).strung ((proceedsEnsureEvent.holds ensured).strung strung)
  obtain ⟨es, scheduled⟩ := strung.scheduled
  have forks : t.forks = s.forks := steady.calm.forks.trans (by rw [links])
  have values : s.values.size ≤ t.values.size := le_trans (by rw [links]) steady.values
  have paths : t.reads.paths? = s.reads.paths? := steady.paths.trans (by rw [links])
  have forked := (tracks.forked drafted).grow forks values
  have numbered : es.flatMap t.route = (List.range' 0 t.links.size).map LinkId.mk := by
    rw [scheduled.order fun e head => entry e (by rwa [scheduled.first]), List.range_eq_range']
  rw [eventsScheduled scheduled] at comes
  obtain ⟨member, course⟩ := Compile.courseComes forked comes (.begins t es) scheduled.once numbered
  have below : o.link.index < t.links.size := by
    rw [numbered] at member
    obtain ⟨i, inside, same⟩ := List.mem_map.mp member
    rw [← same]
    simpa using inside
  refine ⟨(course.link o.link).trans (strung.marks.made o (by simp) below), ?_⟩
  have inside : v ∈ s.captured o.fork := isCaptured captured
  have there : (v, r) ∈ (u.forkAt o.fork).forks := by rwa [forkAt, course.forks, forks, ← forkAt]
  have cursor := course.cursor o.fork (v, r) (by rwa [forkAt, forks, ← forkAt]) _
    (by rw [paths]; exact tracks.slots o.fork (v, r) captured)
  rw [departuresBefore strung.marks apart belongs, ← countFor inside before] at cursor
  have forked := forked.grow course.forks course.values
  have takes := takesAll (forked.values o.fork) (forked.reads o.fork)
  rw [takes.heads (v, r) there (forked.exist o.fork v (isCaptured there)) _ _ cursor]
  have window : s.openedFor v (before ++ o :: later) = s.openedFor v before ++ o :: s.openedFor v later := by
    simp [openedFor, inside]
  rw [window, ReadTable.firstsAt]
  rfl

/-- A method that saves a value at a branch point and returns it on both paths. -/
def ClientCall.forking : List ClientCall :=
  [.start 2 0 0 2, .startInstruction 0, .register 7, .push 1 ⟨0⟩, .saveState, .leave (some ⟨0⟩), .restoreState ⟨0⟩,
    .barrier .loadBarrier, .leave (some ⟨0⟩)]

theorem forkingReceivesFirst : ∃ s t u, s = described ClientCall.forking ∧ Compile.prologue none 0 s = .ok () t ∧
    Compile.ComesTo (Compile.eventsFrom t t.events.size t.firstEvent) t ⟨2⟩ u ∧
    ((u.takePaths ⟨0⟩).value ⟨0⟩).reads = some ⟨2⟩ := by
  obtain ⟨⟨⟩, t, prologue, ⟨events, belongs, entry⟩, ⟨⟩, w, compiled, ⟨⟩, u, began, first⟩ :
      Reaches (Compile.prologue none 0) (described ClientCall.forking) fun t =>
        (Compile.eventsFrom t t.events.size t.firstEvent = [⟨0⟩, ⟨1⟩, ⟨2⟩] ++ [⟨3⟩, ⟨4⟩] ∧
          (∀ i < 2, (t.link ⟨i⟩).fork = some ⟨0⟩ → ∃ p ∈ [OpenedPath.mk ⟨0⟩ 1 ⟨1⟩], p.link = ⟨i⟩) ∧
          ∀ e ∈ t.firstEvent, (t.event e).predecessors = []) ∧
        Reaches ([⟨0⟩, ⟨1⟩, ⟨2⟩].forM Compile.one) t fun w =>
          Reaches (Compile.begin ⟨3⟩) w fun u => (u.event ⟨3⟩).predecessors = [⟨2⟩] := by
    decide +kernel
  have comes : Compile.ComesTo (Compile.eventsFrom t t.events.size t.firstEvent) t ⟨2⟩ u := by
    rw [events]
    exact Compile.comesAfter compiled (.enter began first)
  have split : (fresh (X64.describe {}) {} (.recording {}) none).opened ClientCall.forking =
      [⟨⟨0⟩, 1, ⟨1⟩⟩] ++ ⟨⟨0⟩, 2, ⟨2⟩⟩ :: [] := by
    decide +kernel
  obtain ⟨-, reads⟩ := pathsReceiveFirst (v := ⟨0⟩) (r := ⟨0⟩) (by simp [ClientCall.forking, ClientCall.Describes])
    (by simp [ClientCall.forking, ClientCall.Fits]) (by decide +kernel) rfl split (by decide +kernel) prologue belongs entry
    (by decide +kernel) comes
  exact ⟨_, t, u, rfl, prologue, comes, reads.trans (by decide +kernel)⟩

/-! Other methods. -/

/-- On every path that is opened, each value that was saved is read next where it was received first before any other
path was opened. -/
def State.ReadsFirst (calls : List ClientCall) : Prop :=
  ∀ (before later : List OpenedPath) (o : OpenedPath) (v : ValueId) (r : ReadId) (t u : State),
    (fresh (X64.describe {}) {} (.recording {}) none).opened calls = before ++ o :: later →
    (v, r) ∈ ((described calls).forkAt o.fork).forks → Compile.prologue none 0 (described calls) = .ok () t →
    Compile.ComesTo (Compile.eventsFrom t t.events.size t.firstEvent) t o.link u →
    ((u.takePaths o.fork).value v).reads =
      (described calls).reads.received? v o.reads ((later.head?.map (·.reads)).getD (described calls).reads.size)

/-- A method that goes on after a return from a subroutine, and only then with what comes after its call. -/
def ClientCall.returning : List ClientCall :=
  [.start 4 0 0 2, .startInstruction 0, .startSubroutine, .startInstruction 1, .register 7, .push 1 ⟨0⟩,
    .constant 4096 .general, .returnFromSubroutine ⟨0⟩ ⟨1⟩, .startInstruction 2, .barrier .loadBarrier, .linkSubroutine ⟨0⟩,
    .startInstruction 3, .pop 1, .leave (some ⟨0⟩)]

theorem returningMisses : ¬ ReadsFirst ClientCall.returning := by
  intro all
  obtain ⟨⟨⟩, t, prologue, events, ⟨⟩, w, compiled, ⟨⟩, u, began, first, lost⟩ :
      Reaches (Compile.prologue none 0) (described ClientCall.returning) fun t =>
        Compile.eventsFrom t t.events.size t.firstEvent = [⟨0⟩, ⟨1⟩, ⟨3⟩, ⟨2⟩, ⟨4⟩, ⟨5⟩] ++ [⟨7⟩, ⟨6⟩] ∧
        Reaches ([⟨0⟩, ⟨1⟩, ⟨3⟩, ⟨2⟩, ⟨4⟩, ⟨5⟩].forM Compile.one) t fun w => Reaches (Compile.begin ⟨7⟩) w fun u =>
          (u.event ⟨7⟩).predecessors = [⟨5⟩] ∧ ((u.takePaths ⟨0⟩).value ⟨0⟩).reads = none := by
    decide +kernel
  have missed := all [] [] ⟨⟨0⟩, 2, ⟨5⟩⟩ ⟨0⟩ ⟨1⟩ t u (by decide +kernel) (by decide +kernel) prologue
    (by rw [events]; exact Compile.comesAfter compiled (.enter began first))
  rw [lost] at missed
  exact absurd missed (by decide +kernel)

/-- A method that saves a value at a branch point and returns it on a path from an older one. -/
def ClientCall.straying : List ClientCall :=
  [.start 2 0 0 2, .startInstruction 0, .constant 5 .general, .saveState, .barrier .loadBarrier, .push 1 ⟨0⟩, .saveState,
    .barrier .loadBarrier, .restoreState ⟨0⟩, .leave (some ⟨0⟩)]

/- The older state has not captured the value, so the value still receives its reads on the path from the later one. -/
theorem strayingMisses : ¬ ReadsFirst ClientCall.straying := by
  intro all
  obtain ⟨⟨⟩, t, prologue, events, ⟨⟩, w, compiled, ⟨⟩, u, began, first, found⟩ :
      Reaches (Compile.prologue none 0) (described ClientCall.straying) fun t =>
        Compile.eventsFrom t t.events.size t.firstEvent = [⟨0⟩, ⟨1⟩, ⟨2⟩] ++ [⟨3⟩, ⟨4⟩] ∧
        Reaches ([⟨0⟩, ⟨1⟩, ⟨2⟩].forM Compile.one) t fun w => Reaches (Compile.begin ⟨3⟩) w fun u =>
          (u.event ⟨3⟩).predecessors = [⟨2⟩] ∧ ((u.takePaths ⟨1⟩).value ⟨0⟩).reads = some ⟨1⟩ := by
    decide +kernel
  have stray := all [⟨⟨0⟩, 0, ⟨1⟩⟩] [⟨⟨0⟩, 1, ⟨3⟩⟩] ⟨⟨1⟩, 1, ⟨2⟩⟩ ⟨0⟩ ⟨0⟩ t u (by decide +kernel) (by decide +kernel) prologue
    (by rw [events]; exact Compile.comesAfter compiled (.enter began first))
  rw [found] at stray
  exact absurd stray (by decide +kernel)

/-- A method that goes back from a branch point to what comes before the first instruction. -/
def ClientCall.reentering : List ClientCall :=
  [.start 2 0 0 2, .startInstruction 0, .register 7, .push 1 ⟨0⟩, .saveState, .visitInstruction 4294967295,
    .restoreState ⟨0⟩, .leave (some ⟨0⟩)]

theorem reenteringMisses : ¬ ReadsFirst ClientCall.reentering := by
  intro all
  obtain ⟨⟨⟩, t, prologue, events, ⟨⟩, w, compiled, ⟨⟩, x, lowered, links, found⟩ :
      Reaches (Compile.prologue none 0) (described ClientCall.reentering) fun t =>
        Compile.eventsFrom t t.events.size t.firstEvent = [⟨0⟩] ++ [⟨1⟩, ⟨2⟩] ∧
        Reaches ([⟨0⟩].forM Compile.one) t fun w =>
          Reaches (Compile.lower ⟨1⟩) w fun x =>
            (x.event ⟨1⟩).revisits = [] ++ [⟨1⟩] ∧
            (((x.modifyEvent ⟨1⟩ fun d => { d with revisits := [] }).takePaths ⟨0⟩).value ⟨0⟩).reads = some ⟨2⟩ := by
    decide +kernel
  have again := all [] [⟨⟨0⟩, 2, ⟨2⟩⟩] ⟨⟨0⟩, 1, ⟨1⟩⟩ ⟨0⟩ ⟨0⟩ t (x.modifyEvent ⟨1⟩ fun d => { d with revisits := [] })
    (by decide +kernel) (by decide +kernel) prologue
    (by rw [events]; exact Compile.comesAfter compiled (.revisit lowered links rfl))
  rw [found] at again
  exact absurd again (by decide +kernel)

/- In each of them every path has a link of its own. -/
theorem pathsMissFirst :
    (Apart ((fresh (X64.describe {}) {} (.recording {}) none).opened ClientCall.returning) ∧
      ¬ ReadsFirst ClientCall.returning) ∧
    (Apart ((fresh (X64.describe {}) {} (.recording {}) none).opened ClientCall.straying) ∧
      ¬ ReadsFirst ClientCall.straying) ∧
    Apart ((fresh (X64.describe {}) {} (.recording {}) none).opened ClientCall.reentering) ∧
      ¬ ReadsFirst ClientCall.reentering :=
  ⟨⟨by decide +kernel, returningMisses⟩, ⟨by decide +kernel, strayingMisses⟩, by decide +kernel, reenteringMisses⟩

end Lowering
