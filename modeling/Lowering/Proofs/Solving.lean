import Lowering.Proofs.Recording
import Mathlib.Tactic.IntervalCases
/-!
What solved maps are worth.

Two results about logs in which all is closed. Solving settles: a log that was solved stays as it is
when it is solved again, if nothing runs back to an instruction of a subroutine but at the end of a
context, and handlers keep clear of subroutines. And without subroutines the maps are sound: a slot
that is set in the map of a trace is set along every way that control can take to the trace.
-/
namespace Lowering

open Replay

namespace RootLog

variable {l l' : RootLog} {s : Settings} {n : Nat}

/- A further solution of a solved log takes one pass and changes nothing. -/
theorem solvedStaysSolved (recorded : l.Recorded []) (ends : l.VisitsEnd) (apart : l.HandlersApart)
    (ok : (l.solve s).1 = .ok n) : (l.solve s).2.solve s = (.ok 1, (l.solve s).2) := by
  obtain ⟨p, legible⟩ := recorded.legible ends apart
  have whole : solveFrom s l.passFuel 0 l = (.ok n, (l.solve s).2) := Prod.ext ok rfl
  obtain ⟨solved, -, steady⟩ := legible.solved whole
  exact solved.solveAgain steady

def reach (l : RootLog) (ip : Nat) : RootLog :=
  match l.visit ip with
  | .ok (_, l') => l'
  | .error _ => l

theorem Recorded.reach {opened : List Opening} (before : l.Recorded opened) (ip : Nat) :
    (l.reach ip).Recorded opened := by
  unfold RootLog.reach
  split
  · exact .visit before (by assumption)
  · exact before

/-- A subroutine with a loop in it, called twice, and a handler for the code that calls it first. -/
def calling : RootLog :=
  let l := ((((RootLog.new 10 2).reach 0).add (.mark 0)).add (.mark 1)).trace 0
  let first := l.2.startSubroutine 6 ⟨0⟩
  let l := ((first.2.reach 6).trace 6).2.add (.clear 1)
  let l := (((((l.add .pushContext).reach 7).trace 7).2.add (.clear 0)).reach 7).add .popContext
  let l := ((l.endSubroutine first.1).reach 1).add (.clear 0)
  let second := l.startSubroutine 6 ⟨1⟩
  let l := (second.2.reach 6).endSubroutine second.1
  (((l.add (.pushHandler 0 1)).reach 2).trace 2).2.add .popContext

theorem callingRecorded : calling.Recorded [] := by
  have start := Recorded.trace (.mark (.mark (.reach (.new 10 2) 0) 0) 1) 0
  have first := Recorded.call start 6 ⟨0⟩ (by simp)
  have inside := Recorded.clear (.trace (.reach first 6) 6) 1
  have loop := Recorded.leave (.reach (.clear (.trace (.reach (.enter inside) 7) 7) 0) 7)
  have between := Recorded.clear (.reach (.resume loop) 1) 0
  have second := Recorded.call between 6 ⟨1⟩ (by simp)
  exact .leave (.trace (.reach (.handle (.resume (.reach second 6)) 0 1) 2) 2)

/- The entries, where the subroutine begins, that the code with the handler is in none, and how often the log is gone
over until it is solved. -/
theorem callingIs : calling.entries = #[.visit 0, .mark 0, .mark 1, .trace ⟨0⟩,
    .pushSubroutine ⟨0⟩ 15, .visit 6, .trace ⟨1⟩, .clear 1, .pushContext, .visit 7, .trace ⟨2⟩,
    .clear 0, .visit 7, .popContext, .popSubroutine, .visit 1, .clear 0, .pushSubroutine ⟨1⟩ 20,
    .visit 6, .popSubroutine, .pushHandler 0 1, .visit 2, .trace ⟨3⟩, .popContext] ∧
    (calling.region (calling.call ⟨1⟩).region).body ≠ 17 + 1 ∧ calling.regionAt.getD 0 none = none ∧
    (calling.solve {}).1 = .ok 2 := by
  with_unfolding_all decide

theorem callingEnds : calling.VisitsEnd := by
  -- the second entry is the only one that an arrival ends, and it is not the body
  have later : ∀ (k : Nat) (site : CallSiteId),
      calling.entries[k]? = some (.pushSubroutine site (18 + 2)) →
      (calling.region (calling.call site).region).body ≠ k + 1 := by
    intro k site start
    have inside := known start
    rw [callingIs.1] at start inside
    simp only [List.size_toArray, List.length_cons, List.length_nil] at inside
    interval_cases k <;> simp at start
    subst start
    exact callingIs.2.1
  intro i ip here ⟨j, before, earlier⟩
  have inside := known here
  rw [callingIs.1] at here earlier inside
  simp only [List.size_toArray, List.length_cons, List.length_nil] at inside
  interval_cases i <;> simp at here <;> subst here <;> interval_cases j <;> simp at earlier
  · exact .inr (.inl (by rw [callingIs.1]; rfl))
  · exact .inr (.inr ⟨by rw [callingIs.1]; rfl, later⟩)

theorem callingApart : calling.HandlersApart := by
  refine ⟨fun i start stop here => ?_, fun k site resume i start stop entry after before here => ?_⟩
  · have inside := known here
    rw [callingIs.1] at here inside
    simp only [List.size_toArray, List.length_cons, List.length_nil] at inside
    interval_cases i <;> simp at here
    obtain ⟨rfl, rfl⟩ := here
    exact callingIs.2.2.1
  · have inside := known here
    rw [callingIs.1] at here inside entry
    simp only [List.size_toArray, List.length_cons, List.length_nil] at inside
    interval_cases i <;> simp at here
    interval_cases k <;> simp at entry <;> omega

theorem callingStaysSolved : (calling.solve {}).1 = .ok 2 ∧
    (calling.solve {}).2.solve {} = (.ok 1, (calling.solve {}).2) :=
  ⟨callingIs.2.2.2, solvedStaysSolved callingRecorded callingEnds callingApart callingIs.2.2.2⟩

def recurring : RootLog :=
  let l := ((RootLog.new 8 1).reach 0).add (.mark 0)
  let sub := l.startSubroutine 6 ⟨0⟩
  ((((sub.2.reach 6).trace 6).2.add (.clear 0)).reach 6).endSubroutine sub.1

theorem recurringRecorded : recurring.Recorded [] := by
  have sub := Recorded.call (.mark (.reach (.new 8 1) 0) 0) 6 ⟨0⟩ (by simp)
  exact .resume (.reach (.clear (.trace (.reach sub 6) 6) 0) 6)

def traceMaps (l : RootLog) : List (RootMap × List (PathId × RootMap)) :=
  l.traces.toList.map fun t => (t.map, t.paths.map fun q => (q.path, q.map))

theorem recurringIs : recurring.entries = #[.visit 0, .mark 0, .pushSubroutine ⟨0⟩ 8, .visit 6,
      .trace ⟨0⟩, .clear 0, .visit 6, .popSubroutine] ∧ (recurring.solve {}).1 = .ok 1 ∧
    ((recurring.solve {}).2.solve {}).2.traceMaps ≠ (recurring.solve {}).2.traceMaps := by
  with_unfolding_all decide

/- Where the body itself ends with an arrival, a change goes unseen: the first solution settles at
once, and the next one finds other maps. -/
theorem recurringChanges : ¬ ∀ (l : RootLog) (s : Settings) (n : Nat), l.Recorded [] →
    (∀ (i ip : Nat), l.entries[i]? = some (.visit ip) →
      (∃ j < i, l.entries[j]? = some (.visit ip)) → l.entries[i + 1]? = none ∨
        l.entries[i + 1]? = some .popContext ∨ l.entries[i + 1]? = some .popSubroutine) →
    (l.solve s).1 = .ok n → ((l.solve s).2.solve s).1 = .ok 1 ∧
      ((l.solve s).2.solve s).2.traceMaps = (l.solve s).2.traceMaps := by
  intro all
  have ends : ∀ (i ip : Nat), recurring.entries[i]? = some (.visit ip) →
      (∃ j < i, recurring.entries[j]? = some (.visit ip)) → recurring.entries[i + 1]? = none ∨
        recurring.entries[i + 1]? = some .popContext ∨
        recurring.entries[i + 1]? = some .popSubroutine := by
    intro i ip here ⟨j, before, earlier⟩
    have inside := known here
    rw [recurringIs.1] at here earlier inside
    simp only [List.size_toArray, List.length_cons, List.length_nil] at inside
    interval_cases i <;> simp at here <;> subst here <;> interval_cases j <;> simp at earlier
    exact .inr (.inr (by rw [recurringIs.1]; rfl))
  exact recurringIs.2.2 (all recurring {} 1 recurringRecorded ends recurringIs.2.1).2

end RootLog

structure RootMap.Within (a b : RootMap) : Prop where
  room : a.slots.length ≤ b.slots.length
  slots : ∀ slot, a.has slot → b.has slot

namespace RootMap.Within

variable {a b c : RootMap}

theorem refl (a : RootMap) : Within a a := ⟨Nat.le_refl _, fun _ h => h⟩

theorem trans (first : Within a b) (second : Within b c) : Within a c :=
  ⟨Nat.le_trans first.room second.room, fun slot h => second.slots slot (first.slots slot h)⟩

theorem interHas (a b : RootMap) (slot : Nat) : (a.inter b).has slot = (a.has slot && b.has slot) := by
  simp only [has, inter, List.getD_eq_getElem?_getD, List.getElem?_zipWith]
  cases a.slots[slot]? <;> cases b.slots[slot]? <;> simp

theorem interLeft (a b : RootMap) : Within (a.inter b) a :=
  ⟨by simp [inter], fun slot h => by rw [interHas] at h; exact (Bool.and_eq_true_iff.mp h).1⟩

theorem interRight (a b : RootMap) : Within (a.inter b) b :=
  ⟨by simp [inter], fun slot h => by rw [interHas] at h; exact (Bool.and_eq_true_iff.mp h).2⟩

theorem mark (within : Within a b) (slot : Nat) : Within (a.mark slot) (b.mark slot) := by
  refine ⟨by simpa [RootMap.mark] using within.room, fun other h => ?_⟩
  have room := within.room
  have old := within.slots other
  simp only [has, RootMap.mark, List.getD_eq_getElem?_getD, List.getElem?_set] at h old ⊢
  grind

theorem clear (within : Within a b) (slot : Nat) : Within (a.clear slot) (b.clear slot) := by
  refine ⟨by simpa [RootMap.clear] using within.room, fun other h => ?_⟩
  have room := within.room
  have old := within.slots other
  simp only [has, RootMap.clear, List.getD_eq_getElem?_getD, List.getElem?_set] at h old ⊢
  grind

end RootMap.Within

def LogEntry.Plain : LogEntry → Prop
  | .visit _ | .mark _ | .clear _ | .trace _ => True
  | _ => False

def LogEntry.Opens : LogEntry → Prop
  | .pushContext | .pushHandler .. => True
  | _ => False

namespace RootLog

variable {l l' : RootLog} {s : Settings} {n : Nat}

inductive Level (l : RootLog) : Nat → Nat → Prop where
  | done {i} : Level l i i
  | step {i j e} (here : l.entries[i]? = some e) (plain : e.Plain) (after : Level l (i + 1) j) :
      Level l i j
  | nest {i k j e} (here : l.entries[i]? = some e) (opens : e.Opens) (inside : Level l (i + 1) k)
      (close : l.entries[k]? = some .popContext) (after : Level l (k + 1) j) : Level l i j

inductive Flow (l : RootLog) : Nat → Nat → Prop where
  | next {i e} (here : l.entries[i]? = some e) (plain : e.Plain) : Flow l i (i + 1)
  | back {i ip first} (here : l.entries[i]? = some (.visit ip))
      (start : l.entries[first]? = some (.visit ip))
      (least : ∀ k < first, l.entries[k]? ≠ some (.visit ip)) : Flow l i (first + 1)
  | enter {i} (here : l.entries[i]? = some .pushContext) : Flow l i (i + 1)
  | skip {i k e} (here : l.entries[i]? = some e) (opens : e.Opens) (inside : Level l (i + 1) k)
      (close : l.entries[k]? = some .popContext) : Flow l i (k + 1)
  | handle {i h t start stop} (here : l.entries[i]? = some (.trace t))
      (handler : l.entries[h]? = some (.pushHandler start stop))
      (covers : Covers start stop (l.traceAt t)) : Flow l i (h + 1)

def effect (l : RootLog) (i : Nat) (m : RootMap) : RootMap :=
  match l.entries[i]? with
  | some (.mark slot) => m.mark slot
  | some (.clear slot) => m.clear slot
  | _ => m

/-- Control can come to an entry in a way that leaves the slots of `m` set. -/
inductive Travels (l : RootLog) : Nat → RootMap → Prop where
  | start : Travels l 0 (.empty l.mapSize)
  | step {i j m} (way : Travels l i m) (flow : Flow l i j) : Travels l j (l.effect i m)

def walk (l : RootLog) : Nat → RootMap × List RootMap
  | 0 => (.empty l.mapSize, [])
  | i + 1 =>
    let (m, outer) := l.walk i
    match l.entries[i]? with
    | some (.mark slot) => (m.mark slot, outer)
    | some (.clear slot) => (m.clear slot, outer)
    | some (.visit ip) =>
      (if 1 < l.visitCount ip then m.inter (l.still.mapAt none ip) else m, outer)
    | some .pushContext => (m, m :: outer)
    | some (.pushHandler start stop) => ((l.still.handlerRoots none start stop).1, m :: outer)
    | some .popContext => (outer.headD m, outer.tail)
    | _ => (m, outer)

/-- The maps kept for the instructions and traces of a log agree with a replay over them. -/
structure Consistent (l : RootLog) (k : Nat) : Prop where
  trace : ∀ t, l.entries[k]? = some (.trace t) → (l.traceAt t).map = (l.walk k).1
  visit : ∀ ip, l.entries[k]? = some (.visit ip) → 1 < l.visitCount ip →
    (l.still.mapAt none ip).inter (l.walk k).1 = l.still.mapAt none ip

theorem Level.walk {i j : Nat} (level : Level l i j) :
    ∀ {outer}, (l.walk i).2 = outer → (l.walk j).2 = outer := by
  induction level with
  | done => exact id
  | @step i _ e here plain _ ih =>
    intro outer same
    refine ih ?_
    rw [RootLog.walk, here]
    cases e <;> first | exact same | cases plain
  | @nest i k _ e here opens _ close _ ihInside ihAfter =>
    intro outer same
    refine ihAfter ?_
    have inner : (l.walk (i + 1)).2 = (l.walk i).1 :: outer := by
      rw [RootLog.walk, here]
      cases e <;> first | (cases opens; done) | simp [same]
    rw [RootLog.walk, close]
    simp [ihInside inner]

theorem arriveSteady (charted : Charted l) {ip : Nat} {roots : RootMap} {last : Bool}
    (inside : ip < l.maps.size) (same : (l.still.arrive none ip roots last).2 = l.still)
    (again : 1 < l.visitCount ip) :
    (l.still.mapAt none ip).inter roots = l.still.mapAt none ip ∧
      (l.still.arrive none ip roots last).1 = roots.inter (l.still.mapAt none ip) := by
  have count : l.still.log.visitCount ip > 1 := again
  unfold arrive at same ⊢
  simp only [count, if_true] at same ⊢
  have log : (l.still.setMap none ip ((l.still.mapAt none ip).inter roots)).log = l :=
    congrArg Replay.log same
  have known : l.still.log.Knows none := trivial
  have held := heldSetMap (r := l.still) charted known inside
    ((l.still.mapAt none ip).inter roots) none (.instruction ip)
  rw [log, if_pos ⟨rfl, rfl⟩] at held
  have met : l.still.mapAt none ip = (l.still.mapAt none ip).inter roots := Option.some.inj held
  exact ⟨met.symm, by rw [← met]⟩

theorem consistentFrom {i j : Nat} (first : Consistent l i)
    (rest : ∀ k, i + 1 ≤ k → k < j → Consistent l k) (k : Nat) (low : i ≤ k) (high : k < j) :
    Consistent l k := by
  rcases Nat.eq_or_lt_of_le low with rfl | later
  · exact first
  · exact rest k later high

theorem consistentOther {k : Nat} {e : LogEntry} (here : l.entries[k]? = some e)
    (trace : ∀ t, e ≠ .trace t) (visit : ∀ ip, e ≠ .visit ip) : Consistent l k :=
  ⟨fun t at' => absurd (Option.some.inj (here.symm.trans at')) (trace t),
    fun ip at' => absurd (Option.some.inj (here.symm.trans at')) (visit ip)⟩

theorem consistentNested {i k j : Nat} {e : LogEntry} (here : l.entries[i]? = some e) (opens : e.Opens)
    (close : l.entries[k]? = some .popContext) (inside : ∀ m, i + 1 ≤ m → m < k → Consistent l m)
    (after : ∀ m, k + 1 ≤ m → m < j → Consistent l m) (m : Nat) (low : i ≤ m) (high : m < j) :
    Consistent l m := by
  rcases Nat.lt_trichotomy m k with before | rfl | later
  · refine consistentFrom (consistentOther here ?_ ?_) inside m low before
    · rintro t rfl
      exact opens
    · rintro ip rfl
      exact opens
  · exact consistentOther close (by simp) (by simp)
  · exact after m later high

theorem Reads.walk (charted : Charted l)
    (flat : ∀ (k : Nat) site resume, l.entries[k]? ≠ some (.pushSubroutine site resume))
    {depth i j : Nat} {p : Passage} (reads : Reads l depth i p j) :
    ∀ (c : Cursor) (outer : List RootMap), p.Steady l none c → l.walk i = (c.roots, outer) →
      l.walk j = ((p.play none l.still c).2.roots, outer) ∧
      ∀ k, i ≤ k → k < j → Consistent l k := by
  induction reads with
  | done => exact fun _ _ _ at' => ⟨at', fun k low high => by omega⟩
  | mark here _ ih | clear here _ ih =>
    intro c outer steady at'
    obtain ⟨stop, rest⟩ := ih _ outer steady (by simp only [RootLog.walk, at', here])
    exact ⟨stop, consistentFrom (consistentOther here (by simp) (by simp)) rest⟩
  | @visit _ i _ ip rest here known _ ih =>
    rintro c outer ⟨same, steady⟩ at'
    have onward : l.walk (i + 1) = ((l.still.arrive none ip c.roots (l.endsAfter i)).1, outer) := by
      by_cases again : 1 < l.visitCount ip
      · simp only [RootLog.walk, at', here, again, if_true,
          (arriveSteady charted known same again).2]
      · have once : ¬ l.still.log.visitCount ip > 1 := again
        simp only [RootLog.walk, at', here, again, if_false, arrive, once]
    obtain ⟨stop, later⟩ := ih _ outer steady onward
    rw [Passage.playVisit, same]
    refine ⟨stop, consistentFrom ⟨fun t other => ?_, fun ip' at'' again => ?_⟩ later⟩
    · cases here.symm.trans other
    · cases here.symm.trans at''
      rw [at']
      exact (arriveSteady charted known same again).1
  | @trace _ i _ t rest here known _ ih =>
    rintro c outer ⟨same, steady⟩ at'
    obtain ⟨stop, later⟩ := ih _ outer steady (by simp only [RootLog.walk, at', here])
    rw [Passage.playTrace, same]
    refine ⟨stop, consistentFrom ⟨fun u at'' => ?_, fun ip other => ?_⟩ later⟩
    · cases here.symm.trans at''
      have held : (l.still.recordTrace t none c.roots).log.held none (.trace t) = _ :=
        heldRecord known c.roots none (.trace t)
      rw [same, if_pos ⟨rfl, rfl⟩] at held
      rw [at']
      exact Option.some.inj held
    · cases here.symm.trans other
  | @context _ i k _ body rest here inside close _ ihInside ihAfter =>
    rintro c outer ⟨within, steady⟩ at'
    obtain ⟨ended, during⟩ := ihInside _ (c.roots :: outer) within
      (by simp only [RootLog.walk, at', here, Cursor.entered])
    obtain ⟨stop, later⟩ := ihAfter _ outer steady
      (by simp only [RootLog.walk, ended, close, Cursor.left]; rfl)
    rw [Passage.playContext, within.play]
    exact ⟨stop, consistentNested here trivial close during later⟩
  | @handler _ i k _ start stop body rest here inside close _ ihInside ihAfter =>
    rintro c outer ⟨same, within, steady⟩ at'
    obtain ⟨ended, during⟩ := ihInside _ (c.roots :: outer) within
      (by simp only [RootLog.walk, at', here, Cursor.handling])
    obtain ⟨stop, later⟩ := ihAfter _ outer steady
      (by simp only [RootLog.walk, ended, close]; rfl)
    rw [Passage.playHandler, same, within.play]
    exact ⟨stop, consistentNested here trivial close during later⟩
  | call here => exact absurd here (flat _ _ _)

theorem meetWithin (reports : List (Option RootMap)) (m : RootMap) :
    (reports.foldl RootMap.meet m).Within m ∧
      ∀ n, some n ∈ reports → (reports.foldl RootMap.meet m).Within n := by
  induction reports generalizing m with
  | nil => exact ⟨.refl m, fun n member => absurd member List.not_mem_nil⟩
  | cons o rest ih =>
    obtain ⟨all, each⟩ := ih (m.meet o)
    cases o with
    | none =>
      refine ⟨all, fun n member => each n ?_⟩
      simpa using member
    | some k =>
      refine ⟨all.trans (.interLeft m k), fun n member => ?_⟩
      rcases List.mem_cons.mp member with same | later
      · cases same
        exact all.trans (.interRight m k)
      · exact each n later

theorem handlerWithin {start stop : Nat} {t : TraceId} (known : t.index < l.traces.size)
    (covers : Covers start stop (l.traceAt t)) :
    (l.still.handlerRoots none start stop).1.Within (l.traceAt t).map := by
  rw [handlerRootsReported, ← Array.foldl_toList]
  refine (meetWithin _ _).2 _ ?_
  have here := Array.getElem?_eq_getElem known
  rw [Array.mem_toList_iff, stillLog, Array.mem_map]
  refine ⟨l.traceAt t, ?_, by rw [reported, if_pos covers]⟩
  rw [traceAtIs here]
  exact Array.getElem_mem known

theorem Travels.within (tallied : Tallied l) (consistent : ∀ k < l.entries.size, Consistent l k)
    {i : Nat} {m : RootMap} (travels : Travels l i m) : (l.walk i).1.Within m := by
  induction travels with
  | start => exact .refl _
  | @step i j m _ flow within =>
    cases flow with
    | @next e here plain =>
      simp only [RootLog.walk, effect, here]
      cases e with
      | mark slot => exact within.mark slot
      | clear slot => exact within.clear slot
      | visit ip =>
        simp only
        split
        · exact (RootMap.Within.interLeft _ _).trans within
        · exact within
      | trace t => exact within
      | _ => cases plain
    | @back ip first here start least =>
      simp only [RootLog.walk, effect, here, start]
      split
      · rename_i again
        -- the first arrival goes on with what the map of the instruction allows
        have met := (consistent i (known here)).visit ip here again
        exact (RootMap.Within.interRight _ _).trans
          ((met ▸ RootMap.Within.interRight _ _).trans within)
      · rename_i once
        have same : first = i := by
          rcases Nat.lt_trichotomy first i with before | same | after
          · exact absurd (tallied.recounted first i ip before start here) once
          · exact same
          · exact absurd here (least i after)
        rw [same]
        exact within
    | enter here =>
      simp only [RootLog.walk, effect, here]
      exact within
    | @skip k e here opens inside close =>
      have inner : (l.walk (i + 1)).2 = (l.walk i).1 :: (l.walk i).2 := by
        simp only [RootLog.walk, here]
        cases e <;> first | rfl | cases opens
      have outer := inside.walk inner
      have plain : l.effect i m = m := by
        simp only [effect, here]
        cases e <;> first | rfl | cases opens
      simp only [RootLog.walk, close, plain, outer]
      exact within
    | @handle h t start stop here handler covers =>
      simp only [RootLog.walk, effect, here, handler]
      have map := (consistent i (known here)).trace t here
      exact (map ▸ handlerWithin (tallied.traced i t here) covers).trans within

theorem Level.grow (grows : Grows l l') {i j : Nat} (level : Level l i j) : Level l' i j := by
  induction level with
  | done => exact .done
  | step here plain _ ih => exact .step (grows.entries ▸ here) plain ih
  | nest here opens _ close _ ihInside ihAfter =>
    exact .nest (grows.entries ▸ here) opens ihInside (grows.entries ▸ close) ihAfter

theorem Flow.grow (grows : Grows l l') {i j : Nat} (flow : Flow l i j) : Flow l' i j := by
  cases flow with
  | next here plain => exact .next (grows.entries ▸ here) plain
  | back here start least =>
    exact .back (grows.entries ▸ here) (grows.entries ▸ start) (grows.entries ▸ least)
  | enter here => exact .enter (grows.entries ▸ here)
  | skip here opens inside close =>
    exact .skip (grows.entries ▸ here) opens (inside.grow grows) (grows.entries ▸ close)
  | handle here handler covers =>
    refine .handle (grows.entries ▸ here) (grows.entries ▸ handler) ?_
    rw [Covers, grows.ips]
    exact covers

theorem Travels.grow (grows : Grows l l') {i : Nat} {m : RootMap} (travels : Travels l i m) :
    Travels l' i m := by
  induction travels with
  | start => exact grows.mapSize ▸ .start
  | @step i j m _ flow ih =>
    have same : l.effect i m = l'.effect i m := by rw [effect, effect, grows.entries]
    rw [same]
    exact .step ih (flow.grow grows)

def Flat (l : RootLog) : Prop :=
  ∀ (k : Nat) site resume, l.entries[k]? ≠ some (.pushSubroutine site resume)

/-- An instruction that is reached again ends its context or the log. -/
def VisitsLast (l : RootLog) : Prop :=
  ∀ (i ip : Nat), l.entries[i]? = some (.visit ip) → (∃ j < i, l.entries[j]? = some (.visit ip)) →
    l.entries[i + 1]? = none ∨ l.entries[i + 1]? = some .popContext

theorem Flat.apart (flat : l.Flat) (tallied : Tallied l) : l.HandlersApart := by
  refine ⟨fun i start stop _ => ?_, fun k site resume i start stop here => absurd here (flat _ _ _)⟩
  have none : l.regions.size = 0 := by
    rcases Nat.eq_zero_or_pos l.regions.size with none | some
    · exact none
    · obtain ⟨k, site, resume, here⟩ := tallied.begun some
      exact absurd here (flat _ _ _)
  exact (tallied.bare none).2 start

/- A slot that is set in the map of a trace is set on every way to the trace. -/
theorem solvedMapsAreSound (recorded : l.Recorded []) (flat : l.Flat) (ends : l.VisitsLast)
    (ok : (l.solve s).1 = .ok n) {i : Nat} {t : TraceId} {m : RootMap} (travels : Travels l i m)
    (here : l.entries[i]? = some (.trace t)) {slot : Nat}
    (set : ((l.solve s).2.traceAt t).map.has slot) : m.has slot := by
  have tallied := recorded.nested.1
  have ends' : l.VisitsEnd := fun i ip at' again => (ends i ip at' again).imp_right .inl
  obtain ⟨p, legible⟩ := recorded.legible ends' (flat.apart tallied)
  have whole : solveFrom s l.passFuel 0 l = (.ok n, (l.solve s).2) := Prod.ext ok rfl
  obtain ⟨solved, grows, steady⟩ := legible.solved whole
  have kept : Tallied (l.solve s).2 := tallied.grow ⟨grows, solved.charted⟩
  -- the solved log is replayed over its own maps, and the replay is its walk
  obtain ⟨depth, -, reads⟩ := solved.reads
  have flat' : (l.solve s).2.Flat := fun k site resume => grows.entries ▸ flat k site resume
  obtain ⟨-, consistent⟩ := reads.walk solved.charted flat' _ [] steady rfl
  have within := (travels.grow grows).within kept fun k small => consistent k (Nat.zero_le k) small
  have at' : (l.solve s).2.entries[i]? = some (.trace t) := grows.entries ▸ here
  rw [(consistent i (Nat.zero_le i) (known at')).trace t at'] at set
  exact within.slots slot set

def looping : RootLog :=
  let l := (((RootLog.new 4 2).reach 0).add (.mark 0)).add (.mark 1)
  let l := ((l.trace 0).2.add .pushContext).reach 2
  let l := (((l.trace 2).2.add (.clear 1)).reach 2).add .popContext
  let l := (l.add (.pushHandler 0 1)).reach 3
  (l.trace 3).2.add .popContext

theorem loopingRecorded : looping.Recorded [] := by
  have start := Recorded.trace (.mark (.mark (.reach (.new 4 2) 0) 0) 1) 0
  have loop := Recorded.leave (.reach (.clear (.trace (.reach (.enter start) 2) 2) 1) 2)
  exact .leave (.trace (.reach (.handle loop 0 1) 3) 3)

theorem loopingIs : looping.entries = #[.visit 0, .mark 0, .mark 1, .trace ⟨0⟩, .pushContext,
      .visit 2, .trace ⟨1⟩, .clear 1, .visit 2, .popContext, .pushHandler 0 1, .visit 3, .trace ⟨2⟩,
      .popContext] ∧ (looping.solve {}).1 = .ok 2 ∧
    ((looping.solve {}).2.traceAt ⟨1⟩).map.has 0 = true ∧
    ((looping.solve {}).2.traceAt ⟨1⟩).map.has 1 = false := by
  with_unfolding_all decide

theorem loopingFlat : looping.Flat := by
  intro k site resume here
  have inside := known here
  rw [loopingIs.1] at here inside
  simp only [List.size_toArray, List.length_cons, List.length_nil] at inside
  interval_cases k <;> simp at here

theorem loopingLast : looping.VisitsLast := by
  intro i ip here ⟨j, before, earlier⟩
  have inside := known here
  rw [loopingIs.1] at here earlier inside
  simp only [List.size_toArray, List.length_cons, List.length_nil] at inside
  interval_cases i <;> simp at here <;> subst here <;> interval_cases j <;> simp at earlier
  exact .inr (by rw [loopingIs.1]; rfl)

theorem loopingTravels : Travels looping 6
    ([0, 1, 2, 3, 4, 5, 6, 7, 8].foldl (fun m i => looping.effect i m) (.empty looping.mapSize)) := by
  have first : ∀ k < 5, looping.entries[k]? ≠ some (.visit 2) := by
    rw [loopingIs.1]
    decide
  have loop : Travels looping 4 _ := .step (.step (.step (.step .start
    (.next (e := .visit 0) (by rw [loopingIs.1]; rfl) trivial))
    (.next (e := .mark 0) (by rw [loopingIs.1]; rfl) trivial))
    (.next (e := .mark 1) (by rw [loopingIs.1]; rfl) trivial))
    (.next (e := .trace ⟨0⟩) (by rw [loopingIs.1]; rfl) trivial)
  have round : Travels looping 8 _ := .step (.step (.step (.step loop
    (.enter (by rw [loopingIs.1]; rfl)))
    (.next (e := .visit 2) (by rw [loopingIs.1]; rfl) trivial))
    (.next (e := .trace ⟨1⟩) (by rw [loopingIs.1]; rfl) trivial))
    (.next (e := .clear 1) (by rw [loopingIs.1]; rfl) trivial)
  exact .step round (.back (by rw [loopingIs.1]; rfl) (by rw [loopingIs.1]; rfl) first)

/- Slot 0 is in the map of the trace in the loop; slot 1 is not, for it is cleared on the way round. -/
theorem loopingIsSound :
    ((looping.solve {}).2.traceAt ⟨1⟩).map.has 0 = true ∧
      ((looping.solve {}).2.traceAt ⟨1⟩).map.has 1 = false ∧
      ([0, 1, 2, 3, 4, 5, 6, 7, 8].foldl (fun m i => looping.effect i m)
        (.empty looping.mapSize)).has 0 := by
  obtain ⟨entries, solved, set, clear⟩ := loopingIs
  exact ⟨set, clear, solvedMapsAreSound loopingRecorded loopingFlat loopingLast solved loopingTravels
    (by rw [entries]; rfl) set⟩

end RootLog

end Lowering
