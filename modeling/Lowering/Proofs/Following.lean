import Lowering.Proofs.Agreement
import Lowering.Proofs.Marking
import Lowering.Proofs.Settling
/-!
Following links.

When a link is followed, every fork of the state that it leaves goes on to its next path. Links are followed in the
order in which they were made, so the path that is taken is the one that was opened when the link was made next, and
each value is read first where it was read first on that path.
-/
namespace Lowering

open Build State

/-! Taking the paths of a state. -/

def ReadTable.advance (slots : List (Option ReadId) × Nat) : List (Option ReadId) × Nat := (slots.1, slots.2 + 1)

theorem ReadTable.pathsTaken (t : ReadTable) (r x : ReadId) :
    (t.takePath r).2.paths? x = if x = r then (t.paths? x).map advance else t.paths? x := by
  cases here : t.paths? r with
  | some slots =>
    obtain ⟨paths, taken⟩ := slots
    rw [(pathsTakePath here).2, Function.update_apply]
    split
    · rename_i same
      rw [same, here]
      rfl
    · rfl
  | none =>
    have same : (t.takePath r).2 = t := by
      unfold takePath
      split
      · rename_i kind
        rw [pathsFork kind] at here
        cases here
      · rfl
    rw [same]
    split
    · rename_i same
      rw [same, here]
      rfl
    · rfl

namespace State

variable {s s' t u : State} {v w : ValueId} {r : ReadId} {f g : ForkId} {forks : List (ValueId × ReadId)}

theorem Fixed.calm (fixed : s.Fixed s') (revisits : ∀ e, (s'.event e).revisits = (s.event e).revisits) : s.Calm s' := by
  have events : ∀ {β : Type} (g : Event → β), (∀ d, g d.plan = g d) → s'.events.map g = s.events.map g := fun g own => by
    have plans := congrArg (fun t => t.events.map g) fixed.same
    simp only [fixture, Array.map_map] at plans
    rwa [show g ∘ Event.plan = g from funext own] at plans
  have bounds : s'.bounds = s.bounds := by
    have started := congrArg (fun t => t.instructions.map (Option.map fun i => (i.firstEvent, i.lastEvent))) fixed.same
    simp only [fixture, Array.map_map, Option.map_comp_map] at started
    exact started
  have size := congrArg Array.size (events Event.ip fun _ => rfl)
  simp only [Array.size_map] at size
  exact ⟨congrArg (·.firstEvent) fixed.same, congrArg (·.lastEvent) fixed.same, congrArg (·.predecessor) fixed.same,
    congrArg (·.fork) fixed.same, congrArg (·.forks) fixed.same, congrArg (·.ip) fixed.same, bounds,
    congrArg (fun t => t.links.map Link.fork) fixed.same, size, fun e =>
    ⟨getDMap (events Event.predecessors fun _ => rfl) e.index default, revisits e,
      getDMap (events Event.following fun _ => rfl) e.index default⟩⟩

structure Steady (s s' : State) : Prop where
  calm : s.Calm s'
  paths : s'.reads.paths? = s.reads.paths?
  values : s.values.size ≤ s'.values.size

theorem Steady.trans (first : s.Steady t) (second : t.Steady s') : s.Steady s' :=
  ⟨first.calm.trans second.calm, second.paths.trans first.paths, first.values.trans second.values⟩

instance : Std.Refl Steady := ⟨fun s => ⟨.refl s, rfl, le_rfl⟩⟩

instance : Trans Steady Steady Steady := ⟨Steady.trans⟩

theorem Firm.steady (firm : s.Firm s') : s.Steady s' := ⟨firm.fixed.calm firm.revisits, firm.paths, firm.values⟩

theorem steadyShares {j : JunctionId} (shares : Shares j s s') : s.Steady s' := by
  have rest := shares.rest
  have event : ∀ e, (s'.event e).predecessors = (s.event e).predecessors ∧ (s'.event e).revisits = (s.event e).revisits ∧
      (s'.event e).following = (s.event e).following := fun e => by
    rcases shares.event e with same | ⟨-, given⟩
    · rw [same]
      exact ⟨rfl, rfl, rfl⟩
    · rw [given]
      exact ⟨rfl, rfl, rfl⟩
  refine ⟨⟨by rw [rest], by rw [rest], by rw [rest], by rw [rest], by rw [rest], by rw [rest], by rw [bounds, rest, bounds],
    by rw [rest], shares.size, event⟩, by rw [rest], by rw [rest]⟩

theorem steadyGrants : Grants Steady where
  firm := Firm.steady
  opens s e := by
    unfold openTable
    split
    · exact Std.Refl.refl s
    · refine .trans ?_ (steadyShares (shareShares _ _ _))
      exact ⟨.still rfl rfl rfl rfl rfl, rfl, le_rfl⟩
  fills committed := ((firmlyCommit ..).holds committed).steady.trans ⟨.still rfl rfl rfl rfl rfl, rfl, le_rfl⟩

def takeFork (s : State) (p : ValueId × ReadId) : State :=
  let taken := s.reads.takePath p.2
  let t := { s with reads := taken.2 }.modifyValue p.1 fun d => { d with reads := taken.1 }
  if (t.isLive p.1).1 then (t.isLive p.1).2 else (t.isLive p.1).2.clearSites p.1

structure TakesPaths (forks : List (ValueId × ReadId)) (s s' : State) : Prop where
  calm : s.Calm s'
  values : s.values.size ≤ s'.values.size
  paths : ∀ x, s'.reads.paths? x =
    if x ∈ forks.map (·.2) then (s.reads.paths? x).map ReadTable.advance else s.reads.paths? x
  heads : ∀ p ∈ forks, s.IsValue p.1 → ∀ slots taken, s.reads.paths? p.2 = some (slots, taken) →
    (s'.value p.1).reads = slots[taken]?.join
  others : ∀ w, w ∉ forks.map (·.1) → (s'.value w).reads = (s.value w).reads

theorem headsSweep (v w : ValueId) :
    ((if (s.isLive v).1 then (s.isLive v).2 else (s.isLive v).2.clearSites v).value w).reads = (s.value w).reads := by
  have pending : ∀ (vs : List ValueId) (t : State), (t.firstPending vs).2.values = t.values := by
    intro vs
    induction vs with
    | nil => exact fun _ => rfl
    | cons x rest ih =>
      intro t
      have asked : (t.isPending (t.value x).reads).2.values = t.values := by
        unfold isPending
        split <;> rfl
      unfold firstPending
      dsimp only
      split
      · exact asked
      · exact (ih _).trans asked
  have live : (s.isLive v).2.value w = s.value w := by
    have values : (s.isLive v).2.values = s.values := pending (s.ring v) s
    rw [value, values, value]
  have cleared : ∀ u : State, ((u.clearSites v).value w).reads = (u.value w).reads := fun u =>
    (keepsClearSites u v).head w
  split
  · rw [live]
  · rw [cleared, live]

theorem takesFork (s : State) (p : ValueId × ReadId) : s.TakesPaths [p] (s.takeFork p) := by
  let t := { s with reads := (s.reads.takePath p.2).2 }.modifyValue p.1 fun d => { d with reads := (s.reads.takePath p.2).1 }
  have swept : t.Steady (s.takeFork p) := (stirsSweep p.1).firm.steady
  have heads : ∀ w, ((s.takeFork p).value w).reads = (t.value w).reads := headsSweep p.1
  refine ⟨Calm.trans (t := t) (.still rfl rfl rfl rfl rfl) swept.calm, ?_, fun x => ?_, fun q member known slots taken here => ?_,
    fun w other => ?_⟩
  · exact (sizeModifyValue ..).symm.trans_le swept.values
  · have taken : t.reads.paths? x = if x = p.2 then (s.reads.paths? x).map ReadTable.advance else s.reads.paths? x :=
      s.reads.pathsTaken p.2 x
    rw [swept.paths, taken]
    simp only [List.map_singleton, List.mem_singleton]
  · cases List.mem_singleton.mp member
    rw [heads, valueModify, if_pos ⟨rfl, known⟩]
    exact (ReadTable.pathsTakePath here).1
  · rw [heads, valueModify, if_neg fun here => other (by simp [here.1])]
    rfl

theorem takesPaths (values : (forks.map (·.1)).Nodup) (reads : (forks.map (·.2)).Nodup) :
    s.TakesPaths forks (forks.foldl takeFork s) := by
  induction forks generalizing s with
  | nil => exact ⟨.refl s, le_rfl, fun _ => rfl, nofun, fun _ _ => rfl⟩
  | cons p rest ih =>
    obtain ⟨fresh, values⟩ := List.nodup_cons.mp values
    obtain ⟨own, reads⟩ := List.nodup_cons.mp reads
    have first := takesFork s p
    have later := ih (s := s.takeFork p) values reads
    refine ⟨first.calm.trans later.calm, first.values.trans later.values, fun x => ?_,
      List.forall_mem_cons.mpr ⟨fun known slots taken here => ?_, fun q member known slots taken here => ?_⟩, fun w other => ?_⟩
    · have single : x ∈ [p].map (·.2) ↔ x = p.2 := by simp
      have entry : x ∈ (p :: rest).map (·.2) ↔ x = p.2 ∨ x ∈ rest.map (·.2) := by simp
      rw [List.foldl_cons, later.paths, first.paths]
      simp only [single, entry]
      by_cases same : x = p.2
      · rw [same, if_neg own, if_pos rfl, if_pos (.inl rfl)]
      · simp only [same, if_false, false_or]
    · exact (later.others p.1 fresh).trans (first.heads p (List.mem_singleton_self p) known slots taken here)
    · refine later.heads q member (known.trans_le first.values) slots taken ?_
      rw [first.paths, if_neg, here]
      intro again
      exact own (List.mem_map.mpr ⟨q, member, List.mem_singleton.mp again⟩)
    · obtain ⟨apart, other⟩ := not_or.mp (mt List.mem_cons.mpr other)
      exact (later.others w other).trans (first.others w (by simpa using apart))

theorem takesAll (values : (s.captured f).Nodup) (reads : ((s.forkAt f).forks.map (·.2)).Nodup) :
    s.TakesPaths (s.forkAt f).forks (s.takePaths f) := takesPaths values reads

/-! Following links in order. -/

def departures (s : State) (f : ForkId) (n : Nat) : Nat := (List.range n).countP fun i => (s.link ⟨i⟩).fork = some f

theorem departuresNext (s : State) (f : ForkId) (n : Nat) :
    s.departures f (n + 1) = s.departures f n + if (s.link ⟨n⟩).fork = some f then 1 else 0 := by
  simp [departures, List.range_succ]

structure Forked (s : State) : Prop where
  exist : ∀ f, ∀ v ∈ s.captured f, s.IsValue v
  values : ∀ f, (s.captured f).Nodup
  reads : ∀ f, ((s.forkAt f).forks.map (·.2)).Nodup
  apart : ∀ f g, ∀ p ∈ (s.forkAt f).forks, ∀ q ∈ (s.forkAt g).forks, p.2 = q.2 → f = g

structure Course (t : State) (n : Nat) (es : List EventId) (u : State) : Prop where
  forks : u.forks = t.forks
  link : ∀ l, (u.link l).fork = (t.link l).fork
  predecessors : ∀ e, (u.event e).predecessors = (t.event e).predecessors
  revisits : ∀ e ∈ es, (u.event e).revisits = (t.event e).revisits
  values : t.values.size ≤ u.values.size
  cursor : ∀ f, ∀ p ∈ (t.forkAt f).forks, ∀ slots, t.reads.paths? p.2 = some (slots, 0) →
    u.reads.paths? p.2 = some (slots, t.departures f n)

def turn (s : State) (l : LinkId) : State :=
  match (s.link l).fork with
  | some f => s.takePaths f
  | none => s

variable {n : Nat} {es : List EventId}

namespace Course

theorem begins (t : State) (es : List EventId) : t.Course 0 es t :=
  ⟨rfl, fun _ => rfl, fun _ => rfl, fun _ _ => rfl, le_rfl, fun _ _ _ _ here => here⟩

theorem mono {es' : List EventId} (course : t.Course n es u) (fewer : ∀ e ∈ es', e ∈ es) : t.Course n es' u :=
  ⟨course.forks, course.link, course.predecessors, fun e member => course.revisits e (fewer e member), course.values,
    course.cursor⟩

theorem steady (course : t.Course n es u) (steady : u.Steady s) : t.Course n es s where
  forks := steady.calm.forks.trans course.forks
  link l := (steady.calm.linkFork l).trans (course.link l)
  predecessors e := (steady.calm.event e).1.trans (course.predecessors e)
  revisits e member := (steady.calm.event e).2.1.trans (course.revisits e member)
  values := course.values.trans steady.values
  cursor f p member slots here := by
    rw [steady.paths]
    exact course.cursor f p member slots here

theorem turn (forked : t.Forked) (course : t.Course n es u) : t.Course (n + 1) es (u.turn ⟨n⟩) := by
  have fork : u.forkAt = t.forkAt := by funext f; simp only [forkAt, course.forks]
  unfold State.turn
  rw [course.link]
  cases leaves : (t.link ⟨n⟩).fork with
  | none =>
    refine ⟨course.forks, course.link, course.predecessors, course.revisits, course.values, fun f p member slots here => ?_⟩
    rw [departuresNext, leaves]
    exact course.cursor f p member slots here
  | some g =>
    have takes : u.TakesPaths (t.forkAt g).forks (u.takePaths g) := by
      have values := forked.values g
      have reads := forked.reads g
      rw [captured, ← fork] at values
      rw [← fork] at reads ⊢
      exact takesAll values reads
    refine ⟨takes.calm.forks.trans course.forks, fun l => (takes.calm.linkFork l).trans (course.link l),
      fun e => (takes.calm.event e).1.trans (course.predecessors e),
      fun e member => (takes.calm.event e).2.1.trans (course.revisits e member), course.values.trans takes.values,
      fun f p member slots here => ?_⟩
    dsimp only
    rw [takes.paths, course.cursor f p member slots here, departuresNext, leaves]
    by_cases same : g = f
    · subst same
      rw [if_pos (List.mem_map_of_mem member), if_pos rfl]
      rfl
    · rw [if_neg, if_neg fun again => same (Option.some.inj again)]
      · rfl
      · intro again
        obtain ⟨q, member', equal⟩ := List.mem_map.mp again
        exact same (forked.apart g f q member' p member equal)

end Course

end State

def consumeStubs (l : LinkId) : Build Unit := do
  ((← get).link l).stubs.reduceOption.forM fun (v, stub) => do
    if ((← get).value v).reads == some stub then consumeRead none v

theorem followTurns (l : LinkId) : followLink l = modify (·.turn l) >>= fun _ => consumeStubs l := rfl

theorem firmlyConsumeStubs (l : LinkId) : (consumeStubs l).Firmly :=
  .bind .get fun _ => .forM fun _ => .bind .get fun _ => .ite (firmlyConsumeRead ..) .pure

section

variable {s s' t u : State} {n : Nat} {es : List EventId}

theorem State.Course.follow (forked : t.Forked) (course : t.Course n es s) (ok : followLink ⟨n⟩ s = .ok () u) :
    t.Course (n + 1) es u := by
  rw [followTurns, modifyBind] at ok
  exact (course.turn forked).steady ((firmlyConsumeStubs _).holds ok).steady

theorem State.Course.followAll (forked : t.Forked) (course : t.Course n es s) {links : List LinkId}
    (numbered : links = (List.range' n links.length).map LinkId.mk) (ok : links.forM followLink s = .ok () u) :
    t.Course (n + links.length) es u := by
  induction links generalizing n s with
  | nil =>
    obtain ⟨-, rfl⟩ := pureOk.mp ok
    exact course
  | cons l rest ih =>
    obtain ⟨⟨⟩, w, first, later⟩ := bindOk.mp ok
    rw [List.length_cons, List.range'_succ, List.map_cons, List.cons.injEq] at numbered
    obtain ⟨rfl, numbered⟩ := numbered
    have course' := ih (course.follow forked first) numbered later
    rwa [List.length_cons, show n + (rest.length + 1) = n + 1 + rest.length by omega]

namespace Compile

/-- Compiling events from a state comes to a link, which is followed next. -/
inductive ComesTo : List EventId → State → LinkId → State → Prop
  | enter {e : EventId} {rest : List EventId} {s u : State} {l : LinkId} {later : List LinkId}
      (began : begin e s = .ok () u) (first : (u.event e).predecessors = l :: later) : ComesTo (e :: rest) s l u
  | revisit {e : EventId} {rest : List EventId} {s w u : State} {l : LinkId} {before later : List LinkId}
      (lowered : lower e s = .ok () w)
      (links : (w.event e).revisits = before ++ l :: later)
      (followed : before.forM followLink (w.modifyEvent e fun d => { d with revisits := [] }) = .ok () u) :
      ComesTo (e :: rest) s l u
  | later {e : EventId} {rest : List EventId} {s w u : State} {l : LinkId}
      (compiled : one e s = .ok () w) (comes : ComesTo rest w l u) : ComesTo (e :: rest) s l u

theorem comesAfter {done rest : List EventId} {s w u : State} {l : LinkId} (compiled : done.forM one s = .ok () w)
    (comes : ComesTo rest w l u) : ComesTo (done ++ rest) s l u := by
  induction done generalizing s with
  | nil =>
    obtain ⟨-, rfl⟩ := pureOk.mp compiled
    exact comes
  | cons e later ih =>
    obtain ⟨⟨⟩, t, first, compiled⟩ := bindOk.mp compiled
    exact .later first (ih compiled)

theorem steadyBegin (e : EventId) : Within Steady (begin e) :=
  .bind (.modify fun _ => ⟨.still rfl rfl rfl rfl rfl, rfl, le_rfl⟩) fun _ => steadyGrants.firmly (firmlyBindStart e)

theorem steadySupply (e : EventId) : Within Steady (supply e) := by
  refine .bind .get fun s => ?_
  have sources := (stirringChooseSources (s.event e).reads).firmly
  exact .ite (steadyGrants.withTables e sources) (steadyGrants.firmly sources)

theorem steadyConclude (e : EventId) : Within Steady (conclude e) :=
  .bind .get fun _ => .ite (steadyGrants.withTables e .pure) .pure

variable {e : EventId}

theorem courseLowered (forked : t.Forked) (course : t.Course n es s)
    (first : ∀ l ∈ (t.event e).predecessors.head?, l = ⟨n⟩)
    (ok : lower e s = .ok () u) : t.Course (n + (t.event e).predecessors.head?.toList.length) es u := by
  obtain ⟨⟨⟩, s₀, approached, ok⟩ := bindOk.mp ok
  obtain ⟨⟨⟩, s₁, began, approached⟩ := bindOk.mp approached
  obtain ⟨⟨⟩, s₂, entered, supplied⟩ := bindOk.mp approached
  have course₁ := course.steady ((steadyBegin e).holds began)
  have rest : Within Steady (do event e; conclude e : Build Unit) :=
    .bind (steadyGrants.firmly (firmlyEvent e)) fun _ => steadyConclude e
  refine (State.Course.steady ?_ ((steadySupply e).holds supplied)).steady (rest.holds ok)
  have same := course₁.predecessors e
  unfold Lowering.enter at entered
  rw [getBind] at entered
  cases links : (t.event e).predecessors with
  | nil =>
    rw [same, links] at entered
    obtain ⟨-, rfl⟩ := pureOk.mp entered
    exact course₁
  | cons oldest later =>
    rw [same, links] at entered
    obtain ⟨⟨⟩, s₃, followed, rest⟩ := bindOk.mp entered
    have here := first oldest (by rw [links]; rfl)
    subst here
    exact (course₁.follow forked followed).steady ((firmlyAfterFirstLink e _ _).holds rest).steady

theorem clearCourse {rest : List EventId} (course : t.Course n (e :: rest) s) (once : e ∉ rest) :
    t.Course n rest (s.modifyEvent e fun d => { d with revisits := [] }) := by
  refine ⟨course.forks, course.link, fun x => ?_, fun x member => ?_, course.values, course.cursor⟩
  · rw [eventModify, ← course.predecessors x]
    split
    · rename_i here
      rw [here.1]
    · rfl
  · have other : x ≠ e := fun same => once (same ▸ member)
    rw [eventModify, if_neg fun here => other here.1]
    exact course.revisits x (List.mem_cons_of_mem _ member)

theorem rangeSplit {xs ys : List LinkId} {k : Nat} (all : xs ++ ys = (List.range' n k).map LinkId.mk) :
    xs = (List.range' n xs.length).map LinkId.mk ∧ ys = (List.range' (n + xs.length) ys.length).map LinkId.mk := by
  have length : xs.length + ys.length = k := by simpa using congrArg List.length all
  rw [← length, ← List.range'_append_1, List.map_append] at all
  exact List.append_inj all (by simp)

theorem courseRoute {links : List LinkId} {k : Nat} (numbered : t.route e ++ links = (List.range' n k).map LinkId.mk) :
    (∀ l ∈ (t.event e).predecessors.head?, l = ⟨n⟩) ∧
      (t.event e).revisits = (List.range' (n + (t.event e).predecessors.head?.toList.length)
        (t.event e).revisits.length).map LinkId.mk ∧
      links = (List.range' (n + (t.route e).length) links.length).map LinkId.mk := by
  obtain ⟨own, others⟩ := rangeSplit numbered
  obtain ⟨first, later⟩ := rangeSplit own
  refine ⟨fun l head => ?_, later, others⟩
  rw [Option.mem_def] at head
  rw [head] at first
  simpa using first

theorem courseOne {rest : List EventId} {links : List LinkId} {k : Nat} (forked : t.Forked) (course : t.Course n (e :: rest) s)
    (once : e ∉ rest) (numbered : t.route e ++ links = (List.range' n k).map LinkId.mk) (ok : one e s = .ok () u) :
    t.Course (n + (t.route e).length) rest u := by
  obtain ⟨first, revisits, -⟩ := courseRoute numbered
  obtain ⟨⟨⟩, s₃, lowered, ok⟩ := bindOk.mp ok
  obtain ⟨⟨⟩, s₄, revisited, counted⟩ := bindOk.mp ok
  have course₃ := courseLowered forked course first lowered
  have same := course₃.revisits e List.mem_cons_self
  rw [revisit, getBind, modifyBind, same] at revisited
  have course₄ := (clearCourse course₃ once).followAll forked revisits revisited
  have steady : s₄.Steady u := by
    rw [modifyOk.mp counted]
    exact ⟨.still rfl rfl rfl rfl rfl, rfl, le_rfl⟩
  rw [route, List.length_append, ← Nat.add_assoc]
  exact course₄.steady steady

theorem courseComes {l : LinkId} {k : Nat} (forked : t.Forked) (comes : ComesTo es s l u) (course : t.Course n es s)
    (once : es.Nodup) (numbered : es.flatMap t.route = (List.range' n k).map LinkId.mk) :
    l ∈ es.flatMap t.route ∧ t.Course l.index [] u := by
  induction comes generalizing n k with
  | @enter e rest s u l later began first =>
    have course := course.steady ((steadyBegin e).holds began)
    rw [course.predecessors] at first
    rw [List.flatMap_cons] at numbered ⊢
    have here := (courseRoute numbered).1 l (by rw [first]; rfl)
    subst here
    exact ⟨List.mem_append_left _ (by simp [route, first]), course.mono nofun⟩
  | @revisit e rest s w u l before later lowered links followed =>
    rw [List.flatMap_cons] at numbered ⊢
    obtain ⟨first, revisits, -⟩ := courseRoute numbered
    have course := courseLowered forked course first lowered
    rw [course.revisits e List.mem_cons_self] at links
    rw [links] at revisits
    obtain ⟨earlier, next⟩ := rangeSplit revisits
    rw [List.length_cons, List.range'_succ, List.map_cons, List.cons.injEq] at next
    obtain ⟨rfl, -⟩ := next
    refine ⟨List.mem_append_left _ (by simp [route, links]), ?_⟩
    exact ((clearCourse course (List.nodup_cons.mp once).1).followAll forked earlier followed).mono nofun
  | @later e rest s w u l compiled comes ih =>
    rw [List.flatMap_cons] at numbered ⊢
    obtain ⟨fresh, once⟩ := List.nodup_cons.mp once
    obtain ⟨member, course⟩ := ih (courseOne forked course fresh numbered compiled) once (courseRoute numbered).2.2
    exact ⟨List.mem_append_right _ member, course⟩

end Compile

end

end Lowering
