import Lowering.Proofs.Solving
import Mathlib.Data.Finset.Card
import Mathlib.Data.Fin.VecNotation
/-!
Solving without subroutines always settles.

Maps of instructions only shrink, but the map of a trace starts empty and is set anew on every pass,
so slots also appear: a handler reads the maps of traces that come later in the log. Slot by slot a
pass is monotone, and a slot that a map has on two passes is in it on all passes between. So a map
gains a slot at most once and loses it at most once; and once a pass gains nothing, or loses
nothing, no later one does. That leaves no more passes with a change than there are maps.
-/
namespace Lowering

open Replay

namespace RootLog

/-- The logs recorded without subroutines, before they are solved. Contexts may be opened and closed
in any order. -/
inductive Simple : RootLog → Prop where
  | new (codeLength mapSize : Nat) : Simple (.new codeLength mapSize)
  | visit {l l' ip first} (before : Simple l) (reached : l.visit ip = .ok (first, l')) : Simple l'
  | mark {l} (before : Simple l) (slot : Nat) : Simple (l.add (.mark slot))
  | clear {l} (before : Simple l) (slot : Nat) : Simple (l.add (.clear slot))
  | enter {l} (before : Simple l) : Simple (l.add .pushContext)
  | handle {l} (before : Simple l) (start stop : Nat) : Simple (l.add (.pushHandler start stop))
  | leave {l} (before : Simple l) : Simple (l.add .popContext)
  | trace {l} (before : Simple l) (ip : Nat) : Simple (l.trace ip).2
  | attach {l} (before : Simple l) (t : TraceId) (address : PromiseId) (argument : Nat) :
      Simple (l.attach t address argument)
  | slot {l} (before : Simple l) (slot : Nat) : Simple (l.setReturnSlot slot)

def room (l : RootLog) : Nat := roundUp l.mapSize 64

structure Unsolved (l : RootLog) : Prop where
  tallied : Tallied l
  flat : l.Flat
  closed : ∀ k : Nat, l.entries[k]? ≠ some .popSubroutine
  regions : l.regions.size = 0
  maps : ∀ ip < l.maps.size, l.maps.getD ip default = .full l.mapSize
  traces : ∀ t : TraceId, t.index < l.traces.size → (l.traceAt t).map = .empty l.mapSize

variable {l l' : RootLog}

theorem Unsolved.add (unsolved : Unsolved l) {e : LogEntry} (visit : ∀ ip, e ≠ .visit ip)
    (trace : ∀ t, e ≠ .trace t) (call : ∀ site resume, e ≠ .pushSubroutine site resume)
    (close : e ≠ .popSubroutine) : Unsolved (l.add e) :=
  ⟨unsolved.tallied.add visit trace call,
    fun _ _ _ here => (entriesAdd here).elim (unsolved.flat _ _ _)
      fun ⟨_, same⟩ => call _ _ same.symm,
    fun _ here => (entriesAdd here).elim (unsolved.closed _) fun ⟨_, same⟩ => close same.symm,
    unsolved.regions, unsolved.maps, unsolved.traces⟩

theorem Unsolved.trace (unsolved : Unsolved l) (ip : Nat) : Unsolved (l.trace ip).2 := by
  let m : RootLog := { l with
    traces := l.traces.push ⟨ip, RootMap.empty l.mapSize, false, none, []⟩ }
  refine ⟨unsolved.tallied.trace ip, fun k site resume here => ?_, fun k here => ?_,
    unsolved.regions, unsolved.maps, fun t inside => ?_⟩
  · exact (entriesAdd (l := m) here).elim (unsolved.flat k site resume) (by simp)
  · exact (entriesAdd (l := m) here).elim (unsolved.closed k) (by simp)
  · have inside : t.index < l.traces.size + 1 := by simpa [RootLog.trace, RootLog.add] using inside
    simp only [RootLog.trace, RootLog.add, traceAt, Array.getD_eq_getD_getElem?, Array.getElem?_push]
    split
    · rfl
    · have known := unsolved.traces t (by omega)
      simpa only [traceAt, Array.getD_eq_getD_getElem?] using known

theorem Unsolved.visit (unsolved : Unsolved l) {ip : Nat} {first : Bool}
    (ok : l.visit ip = .ok (first, l')) : Unsolved l' := by
  have tallied := unsolved.tallied.visit ok
  obtain ⟨-, at', -, rfl⟩ := visitOk ok
  refine ⟨tallied, fun k site resume here => ?_, fun k here => ?_, unsolved.regions, unsolved.maps,
    unsolved.traces⟩
  · exact (entriesAdd here).elim (unsolved.flat k site resume) (by simp)
  · exact (entriesAdd here).elim (unsolved.closed k) (by simp)

theorem Unsolved.attach (unsolved : Unsolved l) (t : TraceId) (address : PromiseId)
    (argument : Nat) : Unsolved (l.attach t address argument) := by
  refine ⟨unsolved.tallied.attach t address argument, unsolved.flat, unsolved.closed,
    unsolved.regions, unsolved.maps, fun u inside => ?_⟩
  have inside : u.index < l.traces.size := by simpa [RootLog.attach] using inside
  have same : ((l.attach t address argument).traceAt u).map = (l.traceAt u).map := by
    rw [traceAt, RootLog.attach, getDModify, apply_ite Trace.map, traceAt, ite_self]
  exact same.trans (unsolved.traces u inside)

theorem Simple.unsolved (simple : Simple l) : Unsolved l := by
  induction simple with
  | new codeLength mapSize =>
    refine ⟨.new codeLength mapSize, fun k site resume here => by simp [RootLog.new] at here,
      fun k here => by simp [RootLog.new] at here, rfl, fun ip inside => ?_,
      fun t inside => absurd inside (Nat.not_lt_zero _)⟩
    have inside : ip < codeLength := by simpa [RootLog.new] using inside
    simp [RootLog.new, inside]
  | visit _ reached ih => exact ih.visit reached
  | mark _ slot ih | clear _ slot ih => exact ih.add (by simp) (by simp) (by simp) (by simp)
  | enter _ ih | leave _ ih => exact ih.add (by simp) (by simp) (by simp) (by simp)
  | handle _ start stop ih => exact ih.add (by simp) (by simp) (by simp) (by simp)
  | trace _ ip ih => exact ih.trace ip
  | attach _ t address argument ih => exact ih.attach t address argument
  | slot _ slot ih =>
    -- outside subroutines there is no slot to set
    have outside := (ih.tallied.bare ih.regions).1
    rw [setReturnSlot, outside]
    exact ih

theorem Unsolved.outside (unsolved : Unsolved l) (ip : Nat) : l.regionAt.getD ip none = none :=
  (unsolved.tallied.bare unsolved.regions).2 ip

end RootLog

open RootLog

namespace RootMap

theorem hasMark (m : RootMap) (slot s : Nat) :
    (m.mark slot).has s = (m.has s || decide (s = slot ∧ slot < m.slots.length)) := by
  simp only [has, mark, List.getD_eq_getElem?_getD, List.getElem?_set]
  by_cases same : slot = s
  · subst same
    by_cases inside : slot < m.slots.length <;> simp [inside]
  · simp [same, Ne.symm same]

theorem hasClear (m : RootMap) (slot s : Nat) :
    (m.clear slot).has s = (m.has s && decide (s ≠ slot)) := by
  simp only [has, clear, List.getD_eq_getElem?_getD, List.getElem?_set]
  by_cases same : slot = s
  · subst same
    by_cases inside : slot < m.slots.length <;> simp [inside]
  · simp [same, Ne.symm same]

theorem hasEmpty (size s : Nat) : (empty size).has s = false := by
  simp only [has, empty, List.getD_eq_getElem?_getD, List.getElem?_replicate]
  split <;> rfl

theorem interRoom {a b : RootMap} {n : Nat} (left : a.slots.length = n) (right : b.slots.length = n) :
    (a.inter b).slots.length = n := by
  simp [inter, left, right]

theorem differ {a b : RootMap} (room : a.slots.length = b.slots.length) (other : a ≠ b) :
    ∃ s, a.has s ≠ b.has s := by
  by_contra all
  push Not at all
  refine other (congrArg RootMap.mk (List.ext_getElem room fun s inA inB => ?_))
  have same := all s
  simpa [has, List.getD_eq_getElem?_getD, List.getElem?_eq_getElem, inA, inB] using same

end RootMap

/-- Whether the map of a place has a slot. The maps of instructions that are reached once are not
read, and do not count. -/
def RootLog.bit (l : RootLog) (s : Nat) : Place → Bool
  | .instruction ip => decide (1 < l.visitCount ip) && (l.maps.getD ip default).has s
  | .trace t => (l.traceAt t).map.has s

namespace Replay

variable {l : RootLog} {r : Replay} {s : Nat}

theorem arriveOutside (ip : Nat) (roots : RootMap) (last : Bool) :
    (r.arrive none ip roots last).2.log =
      { r.log with
        maps := r.log.maps.modify ip fun _ =>
          if r.log.visitCount ip > 1 then (r.mapAt none ip).inter roots else roots } := by
  unfold arrive
  split <;> rfl

theorem bitArrive {ip : Nat} (inside : ip < r.log.maps.size) (roots : RootMap) (last : Bool)
    (x : Place) : (r.arrive none ip roots last).2.log.bit s x =
      (r.log.bit s x && (decide (x ≠ .instruction ip) || roots.has s)) := by
  rw [arriveOutside]
  cases x with
  | trace t => simp [bit, traceAt]
  | instruction other =>
    simp only [bit, visitCount, getDModify, mapAt]
    by_cases same : ip = other
    · subst same
      by_cases again : r.log.visits.getD ip 0 > 1
      · simp only [inside, again, and_self, if_true, RootMap.Within.interHas, ne_eq, not_true,
          decide_false, Bool.false_or, Bool.and_assoc]
      · simp only [show ¬ 1 < r.log.visits.getD ip 0 from again, decide_false, Bool.false_and]
    · simp [same, Ne.symm same]

theorem rootsArrive (ip : Nat) (roots : RootMap) (last : Bool) :
    (r.arrive none ip roots last).1.has s =
      (roots.has s && (decide (r.log.visitCount ip ≤ 1) || r.log.bit s (.instruction ip))) := by
  unfold arrive
  by_cases again : r.log.visitCount ip > 1
  · have many : ¬ r.log.visitCount ip ≤ 1 := by omega
    simp only [again, if_true, RootMap.Within.interHas, bit, mapAt, many]
    cases roots.has s <;> simp
  · have once : r.log.visitCount ip ≤ 1 := by omega
    simp [again, once]

theorem bitRecord {t : TraceId} (known : t.index < r.log.traces.size) (roots : RootMap) (x : Place) :
    (r.recordTrace t none roots).log.bit s x =
      if x = .trace t then roots.has s else r.log.bit s x := by
  cases x with
  | instruction ip => rfl
  | trace u =>
    simp only [bit, traceAtRecord t u none roots known, Place.trace.injEq]
    split <;> rfl

theorem bitHandler (start stop : Nat) (x : Place) :
    (r.handlerRoots none start stop).2.log.bit s x = r.log.bit s x := by
  cases x with
  | instruction ip => rfl
  | trace t =>
    simp only [bit, traceAtHandler]
    split <;> rfl

theorem meetHas (reports : List (Option RootMap)) (m : RootMap) :
    (reports.foldl RootMap.meet m).has s = true ↔
      m.has s ∧ ∀ n, some n ∈ reports → n.has s := by
  induction reports generalizing m with
  | nil => simp
  | cons o rest ih =>
    rw [List.foldl_cons, ih]
    cases o with
    | none => simp [RootMap.meet]
    | some n => simp [RootMap.meet, RootMap.Within.interHas, and_assoc]

theorem rootsHandler (start stop : Nat) : (r.handlerRoots none start stop).1.has s = true ↔
    (RootMap.full r.log.mapSize).has s ∧ ∀ t : TraceId, t.index < r.log.traces.size →
      Covers start stop (r.log.traceAt t) → r.log.bit s (.trace t) := by
  rw [handlerRootsReported, ← Array.foldl_toList, meetHas]
  refine and_congr_right fun _ => ⟨fun all t inside covers => ?_, fun all n member => ?_⟩
  · refine all _ ?_
    rw [Array.mem_toList_iff, Array.mem_map]
    exact ⟨_, Array.getElem_mem inside, by
      rw [← traceAtIs (Array.getElem?_eq_getElem inside), reported, if_pos covers]⟩
  · rw [Array.mem_toList_iff, Array.mem_map] at member
    obtain ⟨d, listed, report⟩ := member
    obtain ⟨t, inside, rfl⟩ := Array.mem_iff_getElem.mp listed
    have same := traceAtIs (l := r.log) (Array.getElem?_eq_getElem inside)
    rw [reported] at report
    split at report
    · cases report
      rw [← same]
      exact all ⟨t⟩ inside (by rw [same]; assumption)
    · cases report

structure Fits (l : RootLog) (r : Replay) : Prop where
  grows : Grows l r.log
  maps : ∀ ip < l.maps.size, (r.log.maps.getD ip default).slots.length = l.room
  traces : ∀ t : TraceId, t.index < l.traces.size → (r.log.traceAt t).map.slots.length = l.room

theorem Fits.arrive (fits : Fits l r) {ip : Nat} (inside : ip < l.maps.size) {roots : RootMap}
    (whole : roots.slots.length = l.room) (last : Bool) :
    Fits l (r.arrive none ip roots last).2 ∧
      (r.arrive none ip roots last).1.slots.length = l.room := by
  have met : ((r.mapAt none ip).inter roots).slots.length = l.room :=
    RootMap.interRoom (fits.maps ip inside) whole
  refine ⟨⟨fits.grows.trans (arriveGrows ..), fun other known => ?_, fun t known => ?_⟩, ?_⟩
  · rw [arriveOutside, getDModify]
    split
    · split
      · exact met
      · exact whole
    · exact fits.maps other known
  · rw [arriveOutside]
    exact fits.traces t known
  · unfold Replay.arrive
    split
    · exact RootMap.interRoom whole met
    · exact whole

theorem Fits.record (fits : Fits l r) {t : TraceId} (known : t.index < l.traces.size)
    {roots : RootMap} (whole : roots.slots.length = l.room) :
    Fits l (r.recordTrace t none roots) := by
  refine ⟨fits.grows.trans (recordTraceGrows ..), fits.maps, fun u inside => ?_⟩
  rw [traceAtRecord t u none roots (fits.grows.traces ▸ known)]
  split
  · exact whole
  · exact fits.traces u inside

theorem meetRoom {n : Nat} (reports : List (Option RootMap)) {m : RootMap}
    (whole : m.slots.length = n) (all : ∀ k, some k ∈ reports → k.slots.length = n) :
    (reports.foldl RootMap.meet m).slots.length = n := by
  induction reports generalizing m with
  | nil => exact whole
  | cons o rest ih =>
    refine ih ?_ fun k later => all k (List.mem_cons_of_mem _ later)
    cases o with
    | none => exact whole
    | some k => exact RootMap.interRoom whole (all k List.mem_cons_self)

theorem Fits.handle (fits : Fits l r) (start stop : Nat) :
    Fits l (r.handlerRoots none start stop).2 ∧
      (r.handlerRoots none start stop).1.slots.length = l.room := by
  refine ⟨⟨fits.grows.trans (handlerRootsGrows ..), fits.maps, fun t inside => ?_⟩, ?_⟩
  · rw [traceAtHandler]
    split <;> exact fits.traces t inside
  · rw [handlerRootsReported, ← Array.foldl_toList]
    refine meetRoom _ (by simp [RootMap.full, room, fits.grows.mapSize]) fun k member => ?_
    rw [Array.mem_toList_iff, Array.mem_map] at member
    obtain ⟨d, listed, report⟩ := member
    obtain ⟨t, inside, rfl⟩ := Array.mem_iff_getElem.mp listed
    have same := traceAtIs (l := r.log) (Array.getElem?_eq_getElem inside)
    rw [reported] at report
    split at report
    · cases report
      rw [← same]
      exact fits.traces ⟨t⟩ (fits.grows.traces ▸ inside)
    · cases report

/-- What every entry preserves of replays of one log that go in step: `I` of the replays before an
entry, and `Q` of their roots. -/
structure Lockstep {ι : Type} (l : RootLog) (I : Nat → (ι → Replay) → Prop)
    (Q : (ι → RootMap) → Prop) : Prop where
  later : ∀ {i j rs}, i ≤ j → I i rs → I j rs
  mark : ∀ {roots} slot, (∀ k, (roots k).slots.length = l.room) → Q roots →
    Q fun k => (roots k).mark slot
  clear : ∀ {roots} slot, Q roots → Q fun k => (roots k).clear slot
  visit : ∀ {i ip rs roots} last, l.entries[i]? = some (.visit ip) → (∀ k, Fits l (rs k)) →
    (∀ k, (roots k).slots.length = l.room) → I i rs → Q roots →
    I (i + 1) (fun k => ((rs k).arrive none ip (roots k) last).2) ∧
      Q fun k => ((rs k).arrive none ip (roots k) last).1
  trace : ∀ {i t rs roots}, l.entries[i]? = some (.trace t) → (∀ k, Fits l (rs k)) →
    (∀ k, (roots k).slots.length = l.room) → I i rs → Q roots →
    I (i + 1) fun k => (rs k).recordTrace t none (roots k)
  handle : ∀ {i rs} start stop, (∀ k, Fits l (rs k)) → I i rs →
    I (i + 1) (fun k => ((rs k).handlerRoots none start stop).2) ∧
      Q fun k => ((rs k).handlerRoots none start stop).1

structure Lockstep.Ends {ι : Type} (l : RootLog) (I : Nat → (ι → Replay) → Prop) (i : Nat)
    (os : ι → Outcome) (j : Nat) : Prop where
  onward : i ≤ j
  inside : j ≤ l.entries.size
  next : ∀ k, (os k).next = some j
  fits : ∀ k, Fits l (os k).replay
  kept : I j fun k => (os k).replay

/- Where a replay goes next does not depend on the maps, so replays of one log meet the same entries.
By induction over the steps: what holds before an entry holds when the context of the entry ends. -/
theorem Lockstep.run {ι : Type} {I : Nat → (ι → Replay) → Prop} {Q : (ι → RootMap) → Prop}
    (unsolved : Unsolved l) (steps : Lockstep l I Q) (fuel : Nat) :
    ∀ {rs : ι → Replay} {roots : ι → RootMap} (leaving : ι → RootMap) (i : Nat) (reached : Bool),
      i ≤ l.entries.size → (∀ k, Fits l (rs k)) → (∀ k, (roots k).slots.length = l.room) →
      I i rs → Q roots →
      ∃ j, Ends l I i (fun k => Replay.run fuel (rs k) (roots k) i none reached (leaving k)) j := by
  induction fuel with
  | zero => exact fun _ i reached inside fits _ kept _ => ⟨i, Nat.le_refl i, inside, fun _ => rfl, fits, kept⟩
  | succ fuel ih =>
    intro rs roots leaving i reached inside fits whole kept rooted
    -- the outcome of the whole is that of what follows
    have onward : ∀ {os : ι → Outcome} {rs' : ι → Replay} {roots' : ι → RootMap}
        (leaving' : ι → RootMap) (reached' : Bool) (i' : Nat), i ≤ i' → i' ≤ l.entries.size → (∀ k, Fits l (rs' k)) →
        (∀ k, (roots' k).slots.length = l.room) → I i' rs' → Q roots' →
        (∀ k, os k = Replay.run fuel (rs' k) (roots' k) i' none reached' (leaving' k)) →
        ∃ j, Ends l I i os j := by
      intro os rs' roots' leaving' reached' i' after inside' fits' whole' kept' rooted' same
      obtain ⟨j, ends⟩ := ih leaving' i' reached' inside' fits' whole' kept' rooted'
      rw [funext same]
      exact ⟨j, Nat.le_trans after ends.onward, ends.inside, ends.next, ends.fits, ends.kept⟩
    cases here : l.entries[i]? with
    | none =>
      have same : ∀ k, Replay.run (fuel + 1) (rs k) (roots k) i none reached (leaving k) =
          (rs k).close (roots k) reached (leaving k) (some l.entries.size) := by
        intro k
        rw [Replay.run, (fits k).grows.entries, here]
      simp only [same]
      exact ⟨_, inside, Nat.le_refl _, fun _ => rfl, fits, steps.later inside kept⟩
    | some e =>
      have small := known here
      cases e with
      | mark slot =>
        refine onward leaving reached (i + 1) (Nat.le_succ i) small fits (fun k => ?_) (steps.later (Nat.le_succ i) kept)
          (steps.mark slot whole rooted) fun k => ?_
        · simpa [RootMap.mark] using whole k
        · rw [Replay.run, (fits k).grows.entries, here]
      | clear slot =>
        refine onward leaving reached (i + 1) (Nat.le_succ i) small fits (fun k => ?_) (steps.later (Nat.le_succ i) kept)
          (steps.clear slot rooted) fun k => ?_
        · simpa [RootMap.clear] using whole k
        · rw [Replay.run, (fits k).grows.entries, here]
      | visit ip =>
        have inMaps := unsolved.tallied.reached i ip here
        obtain ⟨kept', rooted'⟩ := steps.visit (l.endsAfter i) here fits whole kept rooted
        refine onward leaving true (i + 1) (Nat.le_succ i) small
          (fun k => ((fits k).arrive inMaps (whole k) _).1)
          (fun k => ((fits k).arrive inMaps (whole k) _).2) kept' rooted' fun k => ?_
        rw [Replay.run, (fits k).grows.entries, here]
        rfl
      | trace t =>
        have known := unsolved.tallied.traced i t here
        refine onward leaving reached (i + 1) (Nat.le_succ i) small (fun k => (fits k).record known (whole k)) whole
          (steps.trace here fits whole kept rooted) rooted fun k => ?_
        rw [Replay.run, (fits k).grows.entries, here]
      | popContext =>
        have same : ∀ k, Replay.run (fuel + 1) (rs k) (roots k) i none reached (leaving k) =
            (rs k).close (roots k) reached (leaving k) (some (i + 1)) := by
          intro k
          rw [Replay.run, (fits k).grows.entries, here]
        simp only [same]
        exact ⟨i + 1, Nat.le_succ i, small, fun _ => rfl, fits, steps.later (Nat.le_succ i) kept⟩
      | pushContext =>
        obtain ⟨j, inner⟩ := ih leaving (i + 1) false small fits whole
          (steps.later (Nat.le_succ i) kept) rooted
        refine onward (fun k => (Replay.run fuel (rs k) (roots k) (i + 1) none false (leaving k)).leaving)
          reached j (Nat.le_trans (Nat.le_succ i) inner.onward) inner.inside inner.fits whole
          inner.kept rooted fun k => ?_
        rw [Replay.run, (fits k).grows.entries, here]
        simp only [inner.next k]
      | pushHandler start stop =>
        obtain ⟨kept', rooted'⟩ := steps.handle start stop fits kept
        obtain ⟨j, inner⟩ := ih (fun k => ((rs k).handlerRoots none start stop).1) (i + 1)
          false small (fun k => ((fits k).handle start stop).1)
          (fun k => ((fits k).handle start stop).2) kept' rooted'
        refine onward leaving reached j (Nat.le_trans (Nat.le_succ i) inner.onward) inner.inside inner.fits whole
          inner.kept rooted fun k => ?_
        rw [Replay.run, (fits k).grows.entries, here]
        simp only [(fits k).grows.regionAt, unsolved.outside, inner.next k, Option.getD_some]
      | pushSubroutine site resume => exact absurd here (unsolved.flat i site resume)
      | popSubroutine => exact absurd here (unsolved.closed i)

end Replay

namespace RootLog

variable {l : RootLog}

theorem Unsolved.passes {ι : Type} {I : Nat → (ι → Replay) → Prop} {Q : (ι → RootMap) → Prop}
    (unsolved : Unsolved l) (steps : Lockstep l I Q) (ls : ι → RootLog)
    (fits : ∀ k, Fits l (ls k).still) (kept : I 0 fun k => (ls k).still)
    (rooted : Q fun _ => .empty l.mapSize) :
    (∀ k, Fits l (ls k).pass) ∧ I l.entries.size fun k => (ls k).pass := by
  have whole : ∀ _ : ι, (RootMap.empty l.mapSize).slots.length = l.room := by
    simp [RootMap.empty, room]
  obtain ⟨j, ends⟩ := steps.run unsolved l.replayFuel (fun _ => .empty l.mapSize) 0 false
    (Nat.zero_le _) fits whole kept rooted
  have same : ∀ k, (ls k).pass = (Replay.run l.replayFuel (ls k).still (.empty l.mapSize) 0 none
      false (.empty l.mapSize)).replay := by
    intro k
    have grows : Grows l (ls k) := (fits k).grows
    rw [pass, replayFuel, grows.entries, grows.regions, grows.mapSize]
    rfl
  refine ⟨fun k => same k ▸ ends.fits k, ?_⟩
  simp only [same]
  exact steps.later ends.inside ends.kept

def Joint (s : Nat) (ls : Fin 3 → RootLog) : Prop :=
  ∀ x, (ls 0).bit s x → (ls 1).bit s x → (ls 2).bit s x

theorem jointLockstep (unsolved : Unsolved l) (s : Nat) :
    Lockstep l (fun _ rs => Joint s fun k => (rs k).log)
      (fun roots => (roots 0).has s → (roots 1).has s → (roots 2).has s) where
  later _ joint := joint
  mark {roots} slot whole rooted := by
    simp only [RootMap.hasMark, whole, Bool.or_eq_true]
    tauto
  clear {roots} slot rooted := by
    simp only [RootMap.hasClear, Bool.and_eq_true]
    tauto
  visit {i ip rs roots} last here fits whole joint rooted := by
    have inside := unsolved.tallied.reached i ip here
    have inMaps : ∀ k, ip < (rs k).log.maps.size := fun k => (fits k).grows.maps ▸ inside
    have count : ∀ k, (rs k).log.visitCount ip = l.visitCount ip :=
      fun k => by rw [visitCount, (fits k).grows.visits, visitCount]
    refine ⟨fun x => ?_, ?_⟩
    · have old := joint x
      simp only [bitArrive (inMaps _), Bool.and_eq_true, Bool.or_eq_true]
      tauto
    · have old := joint (.instruction ip)
      simp only [rootsArrive, count, Bool.and_eq_true, Bool.or_eq_true]
      tauto
  trace {i t rs roots} here fits whole joint rooted x := by
    have inside := unsolved.tallied.traced i t here
    have old := joint x
    simp only [bitRecord ((fits _).grows.traces ▸ inside)]
    split <;> tauto
  handle {i rs} start stop fits joint := by
    refine ⟨fun x => ?_, fun first second => ?_⟩
    · have old := joint x
      simpa only [bitHandler] using old
    · rw [rootsHandler] at first second ⊢
      refine ⟨?_, fun t inside covers => joint (.trace t) ?_ ?_⟩
      · rw [(fits 2).grows.mapSize, ← (fits 0).grows.mapSize]
        exact first.1
      · refine first.2 t ?_ ?_
        · rwa [(fits 0).grows.traces, ← (fits 2).grows.traces]
        · rwa [Covers, (fits 0).grows.ips, ← (fits 2).grows.ips]
      · refine second.2 t ?_ ?_
        · rwa [(fits 1).grows.traces, ← (fits 2).grows.traces]
        · rwa [Covers, (fits 1).grows.ips, ← (fits 2).grows.ips]

structure Moved (l : RootLog) (before : RootLog) (i : Nat) (r : Replay) : Prop where
  ahead : ∀ (k : Nat) t, i ≤ k → l.entries[k]? = some (.trace t) →
    (r.log.traceAt t).map = (before.traceAt t).map
  shrunk : ∀ ip s, r.log.bit s (.instruction ip) → before.bit s (.instruction ip)
  stale : r.stale → ∃ s x, (∀ t, x = .trace t → ∃ k < i, l.entries[k]? = some (.trace t)) ∧
    r.log.bit s x ≠ before.bit s x

theorem Moved.arrive {before : RootLog} {i ip : Nat} {r : Replay} {roots : RootMap} {last : Bool}
    (moved : Moved l before i r) (inside : ip < r.log.maps.size)
    (whole : ((r.mapAt none ip).inter roots).slots.length = (r.mapAt none ip).slots.length) :
    Moved l before (i + 1) (r.arrive none ip roots last).2 := by
  refine ⟨fun k t low here => ?_, fun other s => ?_, fun stale => ?_⟩
  · rw [arriveOutside]
    exact moved.ahead k t (by omega) here
  · rw [bitArrive inside, Bool.and_eq_true]
    exact fun both => moved.shrunk other s both.1
  · have old : r.stale → ∃ s x, (∀ t, x = .trace t → ∃ k < i + 1, l.entries[k]? = some (.trace t)) ∧
        (r.arrive none ip roots last).2.log.bit s x ≠ before.bit s x := by
      intro before'
      obtain ⟨s, x, past, other⟩ := moved.stale before'
      refine ⟨s, x, fun t same => ?_, ?_⟩
      · obtain ⟨k, low, here⟩ := past t same
        exact ⟨k, by omega, here⟩
      · rw [bitArrive inside]
        cases x with
        | trace t => simpa using other
        | instruction other' =>
          -- the slot was lost, and stays lost
          have lost := moved.shrunk other' s
          cases now : r.log.bit s (.instruction other') <;> simp_all
    unfold Replay.arrive at stale
    split at stale
    · rename_i again
      simp only [Bool.or_eq_true, Bool.and_eq_true, bne_iff_ne] at stale
      rcases stale with before' | ⟨changed, -⟩
      · exact old before'
      · obtain ⟨s, differ⟩ := RootMap.differ whole changed
        rw [RootMap.Within.interHas] at differ
        have had : r.log.bit s (.instruction ip) = (r.mapAt none ip).has s := by
          simp [bit, mapAt, again]
        refine ⟨s, .instruction ip, by simp, ?_⟩
        rw [bitArrive inside, had]
        have lost := moved.shrunk ip s
        rw [had] at lost
        cases now : (r.mapAt none ip).has s <;> simp_all
    · exact old stale

theorem Moved.record {before : RootLog} {i : Nat} {t : TraceId} {r : Replay} {roots : RootMap}
    (tallied : Tallied l) (moved : Moved l before i r) (here : l.entries[i]? = some (.trace t))
    (inside : t.index < r.log.traces.size)
    (whole : (r.log.traceAt t).map.slots.length = roots.slots.length) :
    Moved l before (i + 1) (r.recordTrace t none roots) := by
  have once : ∀ k, l.entries[k]? = some (.trace t) → k = i :=
    fun k there => tallied.tracedOnce k i t there here
  refine ⟨fun k u low there => ?_, moved.shrunk, fun stale => ?_⟩
  · rw [traceAtRecord t u none roots inside, if_neg, moved.ahead k u (by omega) there]
    rintro rfl
    have := once k there
    omega
  · have stale : (r.stale || ((r.log.traceAt t).watched && (r.log.traceAt t).map != roots)) = true :=
      stale
    simp only [Bool.or_eq_true, Bool.and_eq_true, bne_iff_ne] at stale
    rcases stale with before' | ⟨-, changed⟩
    · obtain ⟨s, x, past, other⟩ := moved.stale before'
      refine ⟨s, x, fun u same => ?_, ?_⟩
      · obtain ⟨k, low, there⟩ := past u same
        exact ⟨k, by omega, there⟩
      · rw [bitRecord inside, if_neg]
        · exact other
        · rintro rfl
          obtain ⟨k, low, there⟩ := past t rfl
          have := once k there
          omega
    · obtain ⟨s, differ⟩ := RootMap.differ whole changed
      refine ⟨s, .trace t, fun u same => ⟨i, Nat.lt_succ_self i, by cases same; exact here⟩, ?_⟩
      rw [bitRecord inside, if_pos rfl, bit, ← moved.ahead i t (Nat.le_refl i) here]
      exact Ne.symm differ

theorem movedLockstep (unsolved : Unsolved l) (before : RootLog) :
    Lockstep l (fun i rs => Moved l before i (rs ())) (fun _ => True) where
  later low moved :=
    ⟨fun k t high here => moved.ahead k t (Nat.le_trans low high) here, moved.shrunk, fun stale => by
      obtain ⟨s, x, past, other⟩ := moved.stale stale
      exact ⟨s, x, fun t same => (past t same).imp fun k at' => ⟨Nat.lt_of_lt_of_le at'.1 low, at'.2⟩,
        other⟩⟩
  mark _ _ _ := trivial
  clear _ _ := trivial
  visit {i ip rs roots} last here fits whole moved _ := by
    have inside := unsolved.tallied.reached i ip here
    have room : ((rs ()).mapAt none ip).slots.length = l.room := (fits ()).maps ip inside
    refine ⟨moved.arrive ((fits ()).grows.maps ▸ inside) ?_, trivial⟩
    rw [RootMap.interRoom room (whole ()), room]
  trace {i t rs roots} here fits whole moved _ := by
    have inside := unsolved.tallied.traced i t here
    refine moved.record unsolved.tallied here ((fits ()).grows.traces ▸ inside) ?_
    rw [(fits ()).traces t inside, whole ()]
  handle {i rs} start stop fits moved := by
    refine ⟨⟨fun k t low here => ?_, fun ip s => ?_, fun stale => ?_⟩, trivial⟩
    · rw [traceAtHandler]
      split <;> exact moved.ahead k t (by omega) here
    · rw [bitHandler]
      exact moved.shrunk ip s
    · obtain ⟨s, x, past, other⟩ := moved.stale stale
      refine ⟨s, x, fun t same => (past t same).imp fun k at' => ⟨by omega, at'.2⟩, ?_⟩
      rw [bitHandler]
      exact other

def passed (l : RootLog) : Nat → RootLog
  | 0 => l
  | n + 1 => (l.passed n).pass.log

theorem Unsolved.fits (unsolved : Unsolved l) : Fits l l.still where
  grows := .refl l
  maps ip inside := by
    rw [stillLog, unsolved.maps ip inside]
    simp [RootMap.full, room]
  traces t inside := by
    rw [stillLog, unsolved.traces t inside]
    simp [RootMap.empty, room]

theorem Unsolved.moved (unsolved : Unsolved l) {before : RootLog} (fits : Fits l before.still) :
    Fits l before.pass ∧ Moved l before l.entries.size before.pass := by
  obtain ⟨fits, moved⟩ := unsolved.passes (movedLockstep unsolved before) (fun _ : Unit => before)
    (fun _ => fits) ⟨fun _ _ _ _ => rfl, fun _ _ => id, fun stale => by cases stale⟩ trivial
  exact ⟨fits (), moved⟩

theorem Unsolved.fitsPassed (unsolved : Unsolved l) (n : Nat) : Fits l (l.passed n).still := by
  induction n with
  | zero => exact unsolved.fits
  | succ n ih =>
    obtain ⟨grows, maps, traces⟩ := (unsolved.moved ih).1
    exact ⟨grows, maps, traces⟩

theorem Unsolved.joint (unsolved : Unsolved l) {s : Nat} (n : Fin 3 → Nat)
    (joint : Joint s fun k => l.passed (n k)) : Joint s fun k => l.passed (n k + 1) :=
  (unsolved.passes (jointLockstep unsolved s) _ (fun k => unsolved.fitsPassed (n k)) joint
    fun h _ => h).2

theorem Unsolved.instructionsShrink (unsolved : Unsolved l) {i j : Nat} (order : i ≤ j) (s ip : Nat)
    (now : (l.passed j).bit s (.instruction ip)) : (l.passed i).bit s (.instruction ip) := by
  induction order with
  | refl => exact now
  | step _ ih => exact ih ((unsolved.moved (unsolved.fitsPassed _)).2.shrunk ip s now)

/- A slot that a map has after `i` passes and after `k` is in it after every number between. By
induction on the passes: at first traces have no slot, and instructions only lose them. -/
theorem Unsolved.convex (unsolved : Unsolved l) {s i : Nat} : ∀ {j k : Nat}, i ≤ j → j ≤ k →
    ∀ x, (l.passed i).bit s x → (l.passed k).bit s x → (l.passed j).bit s x := by
  induction i with
  | zero =>
    intro j k _ later x first last
    cases x with
    | instruction ip => exact unsolved.instructionsShrink later s ip last
    | trace t =>
      have none : (l.traceAt t).map.has s = false := by
        by_cases inside : t.index < l.traces.size
        · rw [unsolved.traces t inside, RootMap.hasEmpty]
        · have missing : l.traceAt t = default := by simp [traceAt, inside]
          rw [missing]
          exact RootMap.hasEmpty 0 s
      exact absurd (none.symm.trans first) (by simp)
  | succ i ih =>
    intro j k low high
    obtain ⟨j, rfl⟩ := Nat.exists_eq_add_of_le' (Nat.le_trans (Nat.le_add_left 1 i) low)
    obtain ⟨k, rfl⟩ := Nat.exists_eq_add_of_le' (Nat.le_trans (Nat.le_add_left 1 j) high)
    have before := ih (Nat.le_of_succ_le_succ low) (Nat.le_of_succ_le_succ high)
    exact unsolved.joint ![i, k, j] before

def places (l : RootLog) : List Place :=
  (List.range l.maps.size).map .instruction ++ (List.range l.traces.size).map fun t => .trace ⟨t⟩

theorem lengthPlaces (l : RootLog) : l.places.length = l.maps.size + l.traces.size := by
  simp [places]

theorem bitListed {s : Nat} {x : Place} (set : l.bit s x) : x ∈ l.places := by
  have empty : ¬ (default : RootMap).has s := by
    simp [show (default : RootMap) = .empty 0 from rfl, RootMap.hasEmpty]
  cases x with
  | instruction ip =>
    by_contra missing
    have outside : l.maps.size ≤ ip := by simpa [places] using missing
    refine empty ?_
    simpa [bit, outside] using (Bool.and_eq_true_iff.mp set).2
  | trace t =>
    by_contra missing
    have outside : l.traces.size ≤ t.index := by
      by_contra inside
      exact missing (List.mem_append_right _ (List.mem_map.mpr ⟨t.index, by simpa using inside, rfl⟩))
    have gone : l.traceAt t = default := by simp [traceAt, outside]
    exact empty (by rw [bit, gone] at set; exact set)

def Changes (l : RootLog) (s n : Nat) (v : Bool) : Prop :=
  ∃ x, (l.passed n).bit s x = v ∧ (l.passed (n + 1)).bit s x = !v

theorem Unsolved.noGap (unsolved : Unsolved l) {s n : Nat} {v : Bool} (changes : l.Changes s (n + 1) v) :
    l.Changes s n v := by
  by_contra none
  obtain ⟨x, before, after⟩ := changes
  cases v with
  | true =>
    have kept : ∀ x, (l.passed n).bit s x → (l.passed (n + 1)).bit s x := fun x set => by
      by_contra lost
      exact none ⟨x, set, by simpa using lost⟩
    have := unsolved.joint ![n, n, n + 1] (fun x set _ => kept x set) x before before
    exact absurd (after.symm.trans this) (by simp)
  | false =>
    have kept : ∀ x, (l.passed (n + 1)).bit s x → (l.passed n).bit s x := fun x set => by
      by_contra gained
      exact none ⟨x, by simpa using gained, by simpa using set⟩
    have := unsolved.joint ![n + 1, n + 1, n] (fun x set _ => kept x set) x after after
    exact absurd (before.symm.trans this) (by simp)

theorem Unsolved.changedBefore (unsolved : Unsolved l) {s m n : Nat} {v : Bool} (order : m ≤ n)
    (changes : l.Changes s n v) : l.Changes s m v := by
  induction order with
  | refl => exact changes
  | step _ ih => exact ih (unsolved.noGap changes)

theorem Unsolved.changesFew (unsolved : Unsolved l) {s n : Nat} {v : Bool}
    (changes : l.Changes s n v) : n < l.places.length := by
  have each : ∀ m ≤ n, l.Changes s m v := fun m order => unsolved.changedBefore order changes
  have : Nonempty Place := ⟨.instruction 0⟩
  choose! place before after using each
  have listed : ∀ m ≤ n, place m ∈ l.places := by
    intro m order
    have size : ∀ k, (l.passed k).places = l.places := fun k => by
      have grows : Grows l (l.passed k) := (unsolved.fitsPassed k).grows
      rw [places, grows.maps, grows.traces, places]
    cases v with
    | true => exact size m ▸ bitListed (before m order)
    | false => exact size (m + 1) ▸ bitListed (after m order)
  have apart : ∀ i ≤ n, ∀ j ≤ n, i < j → place i ≠ place j := by
    intro i hi j hj order same
    have first := after i hi
    have second := before j hj
    rw [← same] at second
    cases v with
    | true =>
      have between := unsolved.convex (Nat.le_succ i) order (place i) (before i hi) second
      exact absurd (first.symm.trans between) (by simp)
    | false =>
      have last : (l.passed (j + 1)).bit s (place i) := same ▸ after j hj
      have between := unsolved.convex order (Nat.le_succ j) (place i) first last
      exact absurd (second.symm.trans between) (by simp)
  have few := Finset.card_le_card_of_injOn (s := Finset.range (n + 1)) (t := l.places.toFinset) place
    (fun m low => by simpa using listed m (by simpa [Nat.lt_succ_iff] using low))
    (fun i hi j hj same => by
      have hi : i ≤ n := by simpa [Nat.lt_succ_iff] using hi
      have hj : j ≤ n := by simpa [Nat.lt_succ_iff] using hj
      rcases Nat.lt_trichotomy i j with before | same' | before
      · exact absurd same (apart i hi j hj before)
      · exact same'
      · exact absurd same.symm (apart j hj i hi before))
  have := l.places.toFinset_card_le
  rw [Finset.card_range] at few
  omega

theorem Unsolved.roomy (unsolved : Unsolved l) {s n : Nat} {x : Place} (set : (l.passed n).bit s x) :
    0 < l.mapSize := by
  have inside : ∀ m : RootMap, m.has s → s < m.slots.length := fun m held => by
    by_contra outside
    simp [RootMap.has, List.getD_eq_getElem?_getD, outside] at held
  obtain ⟨grows, maps, traces⟩ := unsolved.fitsPassed n
  have grows : Grows l (l.passed n) := grows
  have listed := bitListed set
  have below : s < l.room := by
    cases x with
    | instruction ip =>
      have known : ip < l.maps.size := by simpa [places, grows.maps] using listed
      exact maps ip known ▸ inside _ (Bool.and_eq_true_iff.mp set).2
    | trace t =>
      have known : t.index < l.traces.size := by
        obtain ⟨k, low, same⟩ : ∃ k < l.traces.size, (⟨k⟩ : TraceId) = t := by
          simpa [places, grows.traces] using listed
        exact same ▸ low
      exact traces t known ▸ inside _ set
  by_contra empty
  have none : l.mapSize = 0 := by omega
  simp [room, none, roundUp] at below

theorem Unsolved.staleFew (unsolved : Unsolved l) {n : Nat} (stale : (l.passed n).pass.stale) :
    n < l.mapSize * (l.maps.size + l.traces.size) := by
  obtain ⟨s, x, -, other⟩ := (unsolved.moved (unsolved.fitsPassed n)).2.stale stale
  have other : (l.passed (n + 1)).bit s x ≠ (l.passed n).bit s x := other
  have changes : l.Changes s n ((l.passed n).bit s x) := ⟨x, rfl, by
    cases h : (l.passed n).bit s x <;> simp_all⟩
  have few := unsolved.changesFew changes
  have some : 0 < l.mapSize := by
    cases before : (l.passed n).bit s x with
    | true => exact unsolved.roomy before
    | false =>
      rw [before] at other
      exact unsolved.roomy (n := n + 1) (by simpa using other)
  rw [lengthPlaces] at few
  exact Nat.lt_of_lt_of_le few (Nat.le_mul_of_pos_left _ some)

theorem Unsolved.bounded (unsolved : Unsolved l) {s : Settings} (uncapped : s.maxFrameMapPasses = none)
    (n : Nat) : 1 + l.mapSize * (l.maps.size + l.traces.size) ≤ (l.passed n).passBound s := by
  have grows : Grows l (l.passed n) := (unsolved.fitsPassed n).grows
  simp only [passBound, uncapped, grows.mapSize, grows.maps, grows.traces]
  refine Nat.add_le_add_left (Nat.mul_le_mul_left _ ?_) 1
  have := Nat.le_mul_of_pos_right l.maps.size (show 0 < 1 + (l.passed n).paths.size by omega)
  omega

theorem Unsolved.settles (unsolved : Unsolved l) {s : Settings} (uncapped : s.maxFrameMapPasses = none)
    (fuel : Nat) : ∀ n, n ≤ l.mapSize * (l.maps.size + l.traces.size) →
      l.mapSize * (l.maps.size + l.traces.size) < n + fuel →
      ∃ m, (solveFrom s fuel n (l.passed n)).1 = .ok m ∧
        m ≤ 1 + l.mapSize * (l.maps.size + l.traces.size) := by
  induction fuel with
  | zero => exact fun n low high => by omega
  | succ fuel ih =>
    intro n low high
    rw [solveFrom]
    simp only
    by_cases stale : (l.passed n).pass.stale
    · have few := unsolved.staleFew stale
      have bound := unsolved.bounded uncapped (n + 1)
      have more : ¬ n + 1 ≥ (l.passed n).pass.log.passBound s := by
        rw [RootLog.passed] at bound
        omega
      simp only [stale, Bool.not_true, Bool.false_eq_true, if_false, more]
      exact ih (n + 1) few (by omega)
    · simp only [stale, Bool.not_false, if_true]
      exact ⟨n + 1, rfl, by omega⟩

theorem Simple.reach {l : RootLog} (before : Simple l) (ip : Nat) : Simple (l.reach ip) := by
  unfold RootLog.reach
  split
  · exact .visit before (by assumption)
  · exact before

end RootLog

end Lowering
