import Lowering.Proofs.Merging
import Mathlib.Algebra.Order.BigOperators.Group.Finset
/-!
One table for all events that lead to a merge.

A table is handed to the events that lead to a merge, then to those that lead to any successor of
these, and so on. An event that has a table keeps it and passes nothing on. This leaves no two
tables before one event, because there were none before: whoever leads to a common successor of an
event without a table is without one too. Each link is looked at once, so the handing on ends.
-/
namespace Lowering

open State

section

variable {s t u : State} {j : JunctionId} {e f p q : EventId} {pending rest : List EventId}

/-- The lists of the events and the links describe one graph. There may be several links between
two events, and from an event to itself. -/
structure State.Graph (s : State) : Prop where
  linked : ∀ e, s.Linked e
  entered : ∀ e, ∀ l ∈ (s.event e).predecessors,
    (s.link l).successor = e ∧ l ∈ (s.event (s.link l).predecessor).successors
  known : ∀ e, ∀ l ∈ (s.event e).successors, l.index < s.links.size
  once : ∀ e, (s.event e).successors.Nodup

theorem State.graphIff : (∀ k < s.events.size, s.Linked ⟨k⟩ ∧
    (∀ l ∈ (s.event ⟨k⟩).predecessors,
      (s.link l).successor = ⟨k⟩ ∧ l ∈ (s.event (s.link l).predecessor).successors) ∧
    (∀ l ∈ (s.event ⟨k⟩).successors, l.index < s.links.size) ∧
    (s.event ⟨k⟩).successors.Nodup) ↔ s.Graph := by
  constructor
  · intro all
    have outside : ∀ e : EventId, ¬ e.index < s.events.size → s.event e = default := fun e out => by
      simp [event, out]
    refine ⟨fun e => ?_, fun e => ?_, fun e => ?_, fun e => ?_⟩ <;>
      by_cases inside : e.index < s.events.size
    · exact (all e.index inside).1
    · simp [State.Linked, outside e inside, default]
    · exact (all e.index inside).2.1
    · simp [outside e inside, default]
    · exact (all e.index inside).2.2.1
    · simp [outside e inside, default]
    · exact (all e.index inside).2.2.2
    · simp [outside e inside, default]
  · exact fun graph k _ => ⟨graph.linked ⟨k⟩, graph.entered ⟨k⟩, graph.known ⟨k⟩, graph.once ⟨k⟩⟩

instance : Decidable s.Graph := decidable_of_iff _ graphIff

/-- Events that lead to a common successor have the same table, or none of them has one. -/
def State.Uniform (s : State) : Prop :=
  ∀ f, ∀ p ∈ s.predecessorsOf f, ∀ q ∈ s.predecessorsOf f,
    (s.event p).junction = (s.event q).junction

inductive State.Region (s : State) (pending : List EventId) : EventId → Prop
  | first {f p : EventId} (waits : f ∈ pending) (leads : p ∈ s.predecessorsOf f)
      (without : (s.event p).junction = none) : s.Region pending p
  | further {q f p : EventId} (before : s.Region pending q) (follows : f ∈ s.successorsOf q)
      (leads : p ∈ s.predecessorsOf f) (without : (s.event p).junction = none) :
      s.Region pending p

inductive Rounds (j : JunctionId) : Nat → List EventId → State → List EventId → State → Prop
  | stop (pending : List EventId) (s : State) : Rounds j 0 pending s pending s
  | round {n : Nat} {e : EventId} {pending rest pending' : List EventId} {s s' : State}
      (takes : pending.Perm (e :: rest))
      (later : Rounds j n ((s.shareBefore j e).1 ++ rest) (s.shareBefore j e).2 pending' s') :
      Rounds j (n + 1) pending s pending' s'

/-! The graph stays. -/

theorem Shares.successors (h : Shares j s t) (e : EventId) :
    (t.event e).successors = (s.event e).successors := by
  rcases h.event e with same | ⟨-, given⟩
  · rw [same]
  · rw [given]

theorem Shares.predecessors (h : Shares j s t) (e : EventId) :
    (t.event e).predecessors = (s.event e).predecessors := by
  rcases h.event e with same | ⟨-, given⟩
  · rw [same]
  · rw [given]

theorem Shares.link (h : Shares j s t) (l : LinkId) : t.link l = s.link l := by
  rw [h.rest]
  rfl

theorem Shares.successorsOf (h : Shares j s t) (e : EventId) :
    t.successorsOf e = s.successorsOf e := by
  simp only [State.successorsOf, h.successors, h.link]

theorem Shares.predecessorsOf (h : Shares j s t) (e : EventId) :
    t.predecessorsOf e = s.predecessorsOf e := by
  simp only [State.predecessorsOf, h.predecessors, h.link]

theorem Shares.graph (h : Shares j s t) (graph : s.Graph) : t.Graph := by
  refine ⟨fun e l outgoing => ?_, fun e l incoming => ?_, fun e l outgoing => ?_, fun e => ?_⟩
  · rw [h.successors] at outgoing
    rw [h.link, h.predecessors]
    exact graph.linked e l outgoing
  · rw [h.predecessors] at incoming
    rw [h.link, h.successors]
    exact graph.entered e l incoming
  · rw [h.successors] at outgoing
    rw [h.rest]
    exact graph.known e l outgoing
  · rw [h.successors]
    exact graph.once e

theorem Shares.kept {k : JunctionId} (h : Shares j s t) (had : (s.event e).junction = some k) :
    (t.event e).junction = some k := by
  rcases h.event e with same | ⟨none, -⟩
  · rw [same, had]
  · rw [none] at had
    cases had

theorem Shares.table (h : Shares j s t) (without : (s.event e).junction = none)
    (has : (t.event e).junction ≠ none) : (t.event e).junction = some j := by
  rcases h.event e with same | ⟨-, given⟩
  · rw [same, without] at has
    exact absurd rfl has
  · rw [given]

theorem Graph.follows (graph : s.Graph) (leads : p ∈ s.predecessorsOf f) :
    f ∈ s.successorsOf p ∧ p.index < s.events.size := by
  obtain ⟨l, incoming, rfl⟩ := List.mem_map.mp leads
  obtain ⟨target, outgoing⟩ := graph.entered f l incoming
  refine ⟨List.mem_map.mpr ⟨l, outgoing, target⟩, ?_⟩
  by_contra outside
  have empty : s.event (s.link l).predecessor = default := by simp [event, outside]
  rw [empty] at outgoing
  cases outgoing

/-! How many rounds there can be. -/

def State.untold (s : State) : Nat :=
  ∑ n ∈ Finset.range s.events.size,
    if (s.event ⟨n⟩).junction = none then (s.event ⟨n⟩).successors.length else 0

theorem untoldModify (inside : p.index < s.events.size) (without : (s.event p).junction = none) :
    (s.modifyEvent p fun d => { d with junction := some j }).untold + (s.event p).successors.length =
      s.untold := by
  obtain ⟨index⟩ := p
  have size : (s.modifyEvent ⟨index⟩ fun d => { d with junction := some j }).events.size =
      s.events.size := by simp [modifyEvent]
  have member : index ∈ Finset.range s.events.size := Finset.mem_range.mpr inside
  have others : ∀ n ∈ (Finset.range s.events.size).erase index,
      (s.modifyEvent ⟨index⟩ fun d => { d with junction := some j }).event ⟨n⟩ = s.event ⟨n⟩ := by
    intro n other
    rw [eventModify, if_neg]
    intro both
    exact (Finset.mem_erase.mp other).1 (congrArg EventId.index both.1)
  have own : (s.modifyEvent ⟨index⟩ fun d => { d with junction := some j }).event ⟨index⟩ =
      { s.event ⟨index⟩ with junction := some j } := by
    rw [eventModify, if_pos ⟨rfl, inside⟩]
  unfold State.untold
  rw [size, ← Finset.add_sum_erase _ _ member, ← Finset.add_sum_erase _ _ member,
    Finset.sum_congr rfl fun n other => by rw [others n other], own]
  simp only [reduceCtorEq, if_false, without, if_true]
  omega

theorem Graph.untold (graph : s.Graph) : s.untold ≤ s.links.size := by
  have apart : ((Finset.range s.events.size : Finset Nat) : Set Nat).PairwiseDisjoint
      fun n => (s.event ⟨n⟩).successors.toFinset := by
    intro m _ n _ differ
    refine Finset.disjoint_left.mpr fun l left right => differ ?_
    have origin := (graph.linked ⟨m⟩ l (List.mem_toFinset.mp left)).1
    have origin' := (graph.linked ⟨n⟩ l (List.mem_toFinset.mp right)).1
    exact congrArg EventId.index (origin.symm.trans origin')
  calc s.untold
      ≤ ∑ n ∈ Finset.range s.events.size, (s.event ⟨n⟩).successors.toFinset.card := by
        refine Finset.sum_le_sum fun n _ => ?_
        rw [List.toFinset_card_of_nodup (graph.once ⟨n⟩)]
        split
        · exact le_rfl
        · exact Nat.zero_le _
    _ = ((Finset.range s.events.size).biUnion fun n => (s.event ⟨n⟩).successors.toFinset).card :=
        (Finset.card_biUnion apart).symm
    _ ≤ ((Finset.range s.links.size).image LinkId.mk).card := by
        refine Finset.card_le_card fun l member => ?_
        obtain ⟨n, -, outgoing⟩ := Finset.mem_biUnion.mp member
        have known := graph.known ⟨n⟩ l (List.mem_toFinset.mp outgoing)
        exact Finset.mem_image.mpr ⟨l.index, Finset.mem_range.mpr known, rfl⟩
    _ ≤ s.links.size := by
        refine Finset.card_image_le.trans ?_
        rw [Finset.card_range]

/-! One round. -/

theorem shareWithSpec (reached : List EventId × State) (inside : p.index < reached.2.events.size) :
    (∀ e, ((shareWith j reached p).2.event e).junction = none ↔
      (reached.2.event e).junction = none ∧ e ≠ p) ∧
    (∀ f, f ∈ (shareWith j reached p).1 ↔ f ∈ reached.1 ∨
      (reached.2.event p).junction = none ∧ f ∈ reached.2.successorsOf p) ∧
    (shareWith j reached p).1.length + (shareWith j reached p).2.untold =
      reached.1.length + reached.2.untold := by
  cases had : (reached.2.event p).junction with
  | some k =>
    have same : shareWith j reached p = reached := by simp [shareWith, had]
    rw [same]
    refine ⟨fun e => ⟨fun none => ⟨none, ?_⟩, And.left⟩, by simp, rfl⟩
    rintro rfl
    rw [had] at none
    cases none
  | none =>
    have step : shareWith j reached p = (reached.1 ++ reached.2.successorsOf p,
        reached.2.modifyEvent p fun d => { d with junction := some j }) := by
      simp [shareWith, had]
    rw [step]
    refine ⟨fun e => ?_, by simp, ?_⟩
    · rw [eventModify]
      by_cases same : e = p
      · simp [same, inside]
      · simp [same]
    · have length : (reached.2.successorsOf p).length = (reached.2.event p).successors.length :=
        List.length_map _
      have told := untoldModify (j := j) inside had
      simp only [List.length_append, length]
      omega

theorem shareWithAll (ps : List EventId) : ∀ reached : List EventId × State,
    (∀ p ∈ ps, p.index < reached.2.events.size) →
    (∀ e, ((ps.foldl (shareWith j) reached).2.event e).junction = none ↔
      (reached.2.event e).junction = none ∧ e ∉ ps) ∧
    (∀ f, f ∈ (ps.foldl (shareWith j) reached).1 ↔ f ∈ reached.1 ∨
      ∃ p ∈ ps, (reached.2.event p).junction = none ∧ f ∈ reached.2.successorsOf p) ∧
    (ps.foldl (shareWith j) reached).1.length + (ps.foldl (shareWith j) reached).2.untold =
      reached.1.length + reached.2.untold := by
  induction ps with
  | nil => exact fun reached _ => ⟨by simp, by simp, rfl⟩
  | cons p rest ih =>
    intro reached inside
    have step : Shares j reached.2 (shareWith j reached p).2 := (shareWithShares [p] reached).1
    obtain ⟨now, next, told⟩ := shareWithSpec (j := j) reached (inside p List.mem_cons_self)
    obtain ⟨without, waits, count⟩ := ih (shareWith j reached p) fun q member => by
      rw [step.size]
      exact inside q (List.mem_cons_of_mem _ member)
    rw [List.foldl_cons]
    refine ⟨fun e => (without e).trans ?_, fun f => (waits f).trans ?_, count.trans told⟩
    · rw [now, List.mem_cons, not_or, and_assoc]
    · simp only [next, now, step.successorsOf, List.exists_mem_cons_iff]
      rw [or_assoc]
      refine or_congr_right ⟨?_, ?_⟩
      · rintro (first | ⟨q, member, ⟨none, -⟩, follows⟩)
        · exact .inl first
        · exact .inr ⟨q, member, none, follows⟩
      · rintro (first | ⟨q, member, none, follows⟩)
        · exact .inl first
        · by_cases same : q = p
          · exact .inl (same ▸ ⟨none, follows⟩)
          · exact .inr ⟨q, member, ⟨none, same⟩, follows⟩

structure Handed (j : JunctionId) (s : State) (e : EventId) (next : List EventId) (t : State) :
    Prop where
  shares : Shares j s t
  without : ∀ p, (t.event p).junction = none ↔
    (s.event p).junction = none ∧ p ∉ s.predecessorsOf e
  waits : ∀ f, f ∈ next ↔
    ∃ p ∈ s.predecessorsOf e, (s.event p).junction = none ∧ f ∈ s.successorsOf p
  count : next.length + t.untold = s.untold

theorem Graph.handed (graph : s.Graph) (j : JunctionId) (e : EventId) :
    Handed j s e (s.shareBefore j e).1 (s.shareBefore j e).2 := by
  obtain ⟨without, waits, count⟩ := shareWithAll (j := j) (s.predecessorsOf e) ([], s)
    fun p leads => (Graph.follows graph leads).2
  rw [← shareBeforeEq] at without waits count
  refine ⟨(shareWithShares (s.predecessorsOf e) ([], s)).1, without, fun f => (waits f).trans ?_,
    count.trans (Nat.zero_add _)⟩
  simp

theorem Handed.region {next : List EventId} (h : Handed j s e next t)
    (takes : pending.Perm (e :: rest)) :
    s.Region pending p ↔ (s.event p).junction = none ∧ p ∈ s.predecessorsOf e ∨
      t.Region (next ++ rest) p := by
  have later : ∀ {q}, (s.event q).junction = none → (t.event q).junction = none ∨
      q ∈ s.predecessorsOf e := by
    intro q none
    by_cases member : q ∈ s.predecessorsOf e
    · exact .inr member
    · exact .inl ((h.without q).mpr ⟨none, member⟩)
  have before : ∀ {f q}, q ∈ s.predecessorsOf f → q ∈ t.predecessorsOf f := fun leads => by
    rwa [h.shares.predecessorsOf]
  constructor
  · intro region
    induction region with
    | @first f p waits leads none =>
      rcases later none with still | handed
      · rcases List.mem_cons.mp (takes.mem_iff.mp waits) with rfl | waits
        · exact .inl ⟨none, leads⟩
        · exact .inr (.first (List.mem_append_right _ waits) (before leads) still)
      · exact .inl ⟨none, handed⟩
    | @further q f p _ follows leads none ih =>
      rcases later none with still | handed
      · rcases ih with ⟨none', leads'⟩ | region
        · have waits := (h.waits f).mpr ⟨q, leads', none', follows⟩
          exact .inr (.first (List.mem_append_left _ waits) (before leads) still)
        · refine .inr (.further region ?_ (before leads) still)
          rwa [h.shares.successorsOf]
      · exact .inl ⟨none, handed⟩
  · have head : e ∈ pending := takes.mem_iff.mpr List.mem_cons_self
    rintro (⟨none, leads⟩ | region)
    · exact .first head leads none
    · induction region with
      | @first f p waits leads still =>
        rw [h.shares.predecessorsOf] at leads
        have none := ((h.without p).mp still).1
        rcases List.mem_append.mp waits with waits | waits
        · obtain ⟨q, leads', none', follows⟩ := (h.waits f).mp waits
          exact .further (.first head leads' none') follows leads none
        · exact .first (takes.mem_iff.mpr (List.mem_cons_of_mem _ waits)) leads none
      | @further q f p _ follows leads still ih =>
        rw [h.shares.predecessorsOf] at leads
        rw [h.shares.successorsOf] at follows
        exact .further ih follows leads ((h.without p).mp still).1

/-! All rounds. -/

theorem roundsCount {n : Nat} {pending' : List EventId} (run : Rounds j n pending s pending' t)
    (graph : s.Graph) : n + (pending'.length + t.untold) = pending.length + s.untold := by
  induction run with
  | stop => exact Nat.zero_add _
  | @round n e pending rest pending' s s' takes _ ih =>
    have handed := Graph.handed graph j e
    have count := handed.count
    have left := ih (handed.shares.graph graph)
    rw [List.length_append] at left
    rw [takes.length_eq, List.length_cons]
    omega

theorem roundsHand {n : Nat} (run : Rounds j n pending s [] t) (graph : s.Graph) :
    Shares j s t ∧ ∀ p, (t.event p).junction = none ↔
      (s.event p).junction = none ∧ ¬ s.Region pending p := by
  generalize finished : ([] : List EventId) = pending' at run
  induction run with
  | stop pending s =>
    subst finished
    have nobody : ∀ p, ¬ s.Region [] p := by
      intro p region
      induction region with
      | first waits => cases waits
      | further _ _ _ _ ih => exact ih
    exact ⟨.refl _, fun p => ⟨fun without => ⟨without, nobody p⟩, And.left⟩⟩
  | @round n e pending rest pending' s s' takes _ ih =>
    have handed := Graph.handed graph j e
    obtain ⟨shares, without⟩ := ih (handed.shares.graph graph) finished
    refine ⟨handed.shares.trans shares, fun p => (without p).trans ?_⟩
    rw [handed.without, Handed.region handed takes, not_or, not_and]
    exact ⟨fun ⟨⟨was, apart⟩, far⟩ => ⟨was, fun _ => apart, far⟩,
      fun ⟨was, apart, far⟩ => ⟨⟨was, apart was⟩, far⟩⟩

theorem Region.without (region : s.Region pending p) : (s.event p).junction = none := by
  cases region with
  | first _ _ without => exact without
  | further _ _ _ without => exact without

theorem roundsAgree {n m : Nat} (run : Rounds j n pending s [] t) (run' : Rounds j m pending s [] u)
    (graph : s.Graph) : u = t := by
  obtain ⟨shares, without⟩ := roundsHand run graph
  obtain ⟨shares', without'⟩ := roundsHand run' graph
  have event : ∀ p, u.event p = t.event p := by
    intro p
    have same := (without' p).trans (without p).symm
    rcases shares.event p with kept | ⟨none, given⟩
    · rcases shares'.event p with kept' | ⟨none', given'⟩
      · rw [kept, kept']
      · rw [kept, given'] at same
        cases same.mpr none'
    · rcases shares'.event p with kept' | ⟨-, given'⟩
      · rw [kept', given] at same
        cases same.mp none
      · rw [given, given']
  have events : u.events = t.events := by
    refine Array.ext (shares'.size.trans shares.size.symm) fun n inside inside' => ?_
    have here := event ⟨n⟩
    simpa [State.event, inside, inside'] using here
  rw [shares'.rest, shares.rest, events]

theorem roundsUniform {n : Nat} (run : Rounds j n pending s [] t) (graph : s.Graph)
    (uniform : s.Uniform) : t.Uniform := by
  obtain ⟨shares, without⟩ := roundsHand run graph
  intro f p leads q leads'
  rw [shares.predecessorsOf] at leads leads'
  have same := uniform f p leads q leads'
  have across : ∀ {x y}, x ∈ s.predecessorsOf f → y ∈ s.predecessorsOf f →
      (s.event x).junction = (s.event y).junction → s.Region pending x → s.Region pending y := by
    intro x y before before' same region
    exact .further region (Graph.follows graph before).1 before'
      (same.symm.trans (Region.without region))
  by_cases region : s.Region pending p
  · have region' := across leads leads' same region
    have had : ∀ {x}, s.Region pending x → (t.event x).junction = some j := fun here =>
      shares.table (Region.without here) fun none => ((without _).mp none).2 here
    rw [had region, had region']
  · have far := fun region' => region (across leads' leads same.symm region')
    cases had : (s.event p).junction with
    | none =>
      rw [(without p).mpr ⟨had, region⟩, (without q).mpr ⟨same.symm.trans had, far⟩]
    | some k => rw [shares.kept had, shares.kept (same.symm.trans had)]

/-! Opening tables. -/

/-- The merge after an event that a table is opened for, the newest one. -/
def State.mergeAfter? (s : State) (e : EventId) : Option EventId :=
  (s.successorsOf e).reverse.find? fun f => (s.event f).predecessors.length > 1

theorem openTableEq (s : State) (e : EventId) : s.openTable e = match s.mergeAfter? e with
    | none => s
    | some merge => share ⟨s.junctions.size⟩ (s.links.size + 1) [merge]
        (s.addTable (s.blankTable e)) := rfl

theorem graphAddTable (graph : s.Graph) (table : List (Option Site)) : (s.addTable table).Graph :=
  ⟨graph.linked, graph.entered, graph.known, graph.once⟩

theorem shareRounds (fuel : Nat) : ∀ {pending : List EventId} {s : State}, s.Graph →
    pending.length + s.untold ≤ fuel → ∃ n, Rounds j n pending s [] (share j fuel pending s) := by
  induction fuel with
  | zero =>
    intro pending s _ enough
    have empty : pending = [] := List.length_eq_zero_iff.mp (by omega)
    subst empty
    exact ⟨0, .stop [] s⟩
  | succ fuel ih =>
    intro pending s graph enough
    cases pending with
    | nil => exact ⟨0, .stop [] s⟩
    | cons e rest =>
      have handed := Graph.handed graph j e
      have count := handed.count
      rw [List.length_cons] at enough
      have enough' : ((s.shareBefore j e).1 ++ rest).length + (s.shareBefore j e).2.untold ≤ fuel := by
        rw [List.length_append]
        omega
      obtain ⟨n, later⟩ := ih (handed.shares.graph graph) enough'
      exact ⟨n + 1, .round (.refl _) later⟩

theorem openTableRounds {merge : EventId} (graph : s.Graph) (found : s.mergeAfter? e = some merge) :
    ∃ n, Rounds ⟨s.junctions.size⟩ n [merge] (s.addTable (s.blankTable e)) [] (s.openTable e) := by
  rw [openTableEq, found]
  refine shareRounds _ (graphAddTable graph _) ?_
  have few := Graph.untold (graphAddTable graph (s.blankTable e))
  rw [List.length_singleton, Nat.add_comm]
  exact Nat.succ_le_succ few

theorem openTableShares (graph : s.Graph) (e : EventId) :
    (s.openTable e).Graph ∧ (s.Uniform → (s.openTable e).Uniform) ∧
      ∀ p k, (s.event p).junction = some k → ((s.openTable e).event p).junction = some k := by
  cases found : s.mergeAfter? e with
  | none =>
    have same : s.openTable e = s := by rw [openTableEq, found]
    rw [same]
    exact ⟨graph, id, fun _ _ => id⟩
  | some merge =>
    obtain ⟨n, run⟩ := openTableRounds graph found
    have graph' := graphAddTable graph (s.blankTable e)
    have shares := (roundsHand run graph').1
    exact ⟨shares.graph graph', fun uniform => roundsUniform run graph' uniform,
      fun p k had => shares.kept had⟩

/-- Tables have been opened one after another, each for an event that had none. -/
inductive State.Opened (s : State) : State → Prop
  | start : s.Opened s
  | next {t : State} {e : EventId} (before : s.Opened t) (without : (t.event e).junction = none) :
      s.Opened (t.openTable e)

theorem Opened.uniform (opened : s.Opened t) (graph : s.Graph)
    (blank : ∀ e, (s.event e).junction = none) : t.Graph ∧ t.Uniform := by
  induction opened with
  | start => exact ⟨graph, fun f p _ q _ => by rw [blank p, blank q]⟩
  | next _ _ ih =>
    obtain ⟨graph', uniform⟩ := ih
    obtain ⟨after, keeps, -⟩ := openTableShares graph' _
    exact ⟨after, keeps uniform⟩

/-- A new table is handed on until no event waits. In whatever order the events that wait are taken,
there are no more rounds than links and one, and the outcome is the same. -/
structure Spread (s : State) (e merge : EventId) (s' : State) : Prop where
  given : (s'.event e).junction = some ⟨s.junctions.size⟩
  finished : ∃ n, Rounds ⟨s.junctions.size⟩ n [merge] (s.addTable (s.blankTable e)) [] s'
  bounded : ∀ n pending t, Rounds ⟨s.junctions.size⟩ n [merge] (s.addTable (s.blankTable e))
    pending t → n ≤ s.links.size + 1
  unique : ∀ n t, Rounds ⟨s.junctions.size⟩ n [merge] (s.addTable (s.blankTable e)) [] t → t = s'

theorem openTableSpread {merge : EventId} (graph : s.Graph) (without : (s.event e).junction = none)
    (found : s.mergeAfter? e = some merge) : Spread s e merge (s.openTable e) := by
  have graph' := graphAddTable graph (s.blankTable e)
  obtain ⟨n, run⟩ := openTableRounds graph found
  have merges : s.Merges e :=
    ⟨merge, List.mem_reverse.mp (List.mem_of_find?_eq_some found), by
      simpa using List.find?_some found⟩
  refine ⟨(openTableSpec (graph.linked e) merges without).2, ⟨n, run⟩, fun m pending t other => ?_,
    fun m t other => roundsAgree run other graph'⟩
  have few : (s.addTable (s.blankTable e)).untold ≤ s.links.size := Graph.untold graph'
  have count := roundsCount other graph'
  rw [List.length_singleton] at count
  omega

theorem predecessorsShareTables (graph : s.Graph) (blank : ∀ e, (s.event e).junction = none)
    (opened : s.Opened t) : t.Uniform ∧ ∀ e, (t.event e).junction = none →
      (∀ p k, (t.event p).junction = some k → ((t.openTable e).event p).junction = some k) ∧
      ∀ merge, t.mergeAfter? e = some merge → Spread t e merge (t.openTable e) := by
  obtain ⟨graph', uniform⟩ := Opened.uniform opened graph blank
  refine ⟨uniform, fun e without => ⟨(openTableShares graph' e).2.2, fun merge found => ?_⟩⟩
  exact openTableSpread graph' without found

end

def State.linkedAs (count : Nat) (ends : List (Nat × Nat)) : State :=
  let links := ends.map fun (p, q) => (⟨⟨p⟩, ⟨q⟩, none, []⟩ : Link)
  let numbered := links.zipIdx
  { State.empty (X64.describe {}) {} (.recording {}) with
    links := links.toArray
    events := ((List.range count).map fun k => { (default : Event) with
      predecessors := (numbered.filter (·.1.successor == ⟨k⟩)).map (⟨·.2⟩)
      successors := (numbered.filter (·.1.predecessor == ⟨k⟩)).map (⟨·.2⟩) }).toArray }

/-- Two branches into the same merges, of which one is the head of a loop, and two links from an
event to one that follows it. -/
def State.tangled : State :=
  linkedAs 7 [(0, 1), (0, 2), (1, 2), (1, 3), (4, 3), (3, 1), (5, 6), (5, 6)]

theorem tangledShares : State.tangled.Graph ∧
    (∀ e, (State.tangled.event e).junction = none) ∧
    ((State.tangled.openTable ⟨4⟩).event ⟨5⟩).junction = none ∧
    ((State.tangled.openTable ⟨4⟩).openTable ⟨5⟩).Uniform ∧
    (List.range 7).map (fun k =>
      (((State.tangled.openTable ⟨4⟩).openTable ⟨5⟩).event ⟨k⟩).junction) =
        [some ⟨0⟩, some ⟨0⟩, none, some ⟨0⟩, some ⟨0⟩, some ⟨1⟩, none] := by
  have graph : State.tangled.Graph := by decide +kernel
  have blank : ∀ e, (State.tangled.event e).junction = none := by
    have inside : ∀ k < State.tangled.events.size, (State.tangled.event ⟨k⟩).junction = none := by
      decide +kernel
    intro e
    by_cases known : e.index < State.tangled.events.size
    · exact inside e.index known
    · simp [event, known, default]
  have without : ((State.tangled.openTable ⟨4⟩).event ⟨5⟩).junction = none := by decide +kernel
  refine ⟨graph, blank, without, ?_, by decide +kernel⟩
  exact (predecessorsShareTables graph blank (.next (.next .start (blank ⟨4⟩)) without)).1

end Lowering
