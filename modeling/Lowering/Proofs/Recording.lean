import Lowering.Proofs.Stability
import Mathlib.Data.List.Perm.Subperm
import Mathlib.Data.List.Nodup
/-!
What every recorded log looks like.

A log is recorded with the contexts and subroutines that are open. Closed contexts lie inside each
other, a subroutine is never entered while it is open, and its body is the record of its first
entry; so a log in which all is closed reads as one passage, and its calls are nested no deeper than
there are subroutines.
-/
namespace Lowering

open Replay

inductive Opening where
  | context
  | subroutine (sub : OpenSubroutine)
  deriving DecidableEq

namespace RootLog

/-- The logs that can be recorded, with what is open in them. A subroutine is not entered again
before it is closed, and a log is solved when all is closed. -/
inductive Recorded : RootLog → List Opening → Prop where
  | new (codeLength mapSize : Nat) : Recorded (.new codeLength mapSize) []
  | visit {l l' opened ip first} (before : Recorded l opened)
      (reached : l.visit ip = .ok (first, l')) : Recorded l' opened
  | mark {l opened} (before : Recorded l opened) (slot : Nat) : Recorded (l.add (.mark slot)) opened
  | clear {l opened} (before : Recorded l opened) (slot : Nat) :
      Recorded (l.add (.clear slot)) opened
  | enter {l opened} (before : Recorded l opened) :
      Recorded (l.add .pushContext) (.context :: opened)
  | handle {l opened} (before : Recorded l opened) (start stop : Nat) :
      Recorded (l.add (.pushHandler start stop)) (.context :: opened)
  | leave {l opened} (before : Recorded l (.context :: opened)) :
      Recorded (l.add .popContext) opened
  | trace {l opened} (before : Recorded l opened) (ip : Nat) : Recorded (l.trace ip).2 opened
  | attach {l opened} (before : Recorded l opened) (t : TraceId) (address : PromiseId)
      (argument : Nat) : Recorded (l.attach t address argument) opened
  | call {l opened} (before : Recorded l opened) (ip : Nat) (returnAddress : PromiseId)
      (closed : ∀ sub, .subroutine sub ∈ opened → (l.region sub.region).ip ≠ ip) :
      Recorded (l.startSubroutine ip returnAddress).2
        (.subroutine (l.startSubroutine ip returnAddress).1 :: opened)
  | slot {l opened} (before : Recorded l opened) (slot : Nat) : Recorded (l.setReturnSlot slot) opened
  | resume {l opened sub} (before : Recorded l (.subroutine sub :: opened)) :
      Recorded (l.endSubroutine sub) opened
  | solve {l} (before : Recorded l []) (s : Settings) : Recorded (l.solve s).2 []

end RootLog

section Solving

open RootLog

def RootLog.Keyed (l : RootLog) : Prop :=
  ∀ (k : Nat) site resume, l.entries[k]? = some (.pushSubroutine site resume) →
    site.index < l.calls.size

theorem RootLog.Keyed.grow {l l' : RootLog} (keyed : l.Keyed) (grows : Grows l l') : l'.Keyed :=
  fun k site resume here => grows.calls ▸ keyed k site resume (grows.entries ▸ here)

structure RootLog.Kept (l l' : RootLog) : Prop where
  grows : Grows l l'
  charted : Charted l'

theorem RootLog.Kept.trans {l l' l'' : RootLog} (first : Kept l l') (second : Kept l' l'') :
    Kept l l'' :=
  ⟨first.grows.trans second.grows, second.charted⟩

theorem handlerRootsKept {r : Replay} (charted : Charted r.log) (path : Option PathId)
    (start stop : Nat) : Kept r.log (r.handlerRoots path start stop).2.log := by
  cases path with
  | none => exact ⟨handlerRootsGrows start stop, handlerRootsCharted charted ..⟩
  | some p =>
    have same : ∀ t, ((r.handlerRoots (some p) start stop).2.log.traceAt t).ip =
        (r.log.traceAt t).ip ∧ ((r.handlerRoots (some p) start stop).2.log.traceAt t).watched =
        (r.log.traceAt t).watched := by
      intro t
      simp only [handlerRoots, traceAt, Array.getD_eq_getD_getElem?, Array.getElem?_map]
      cases r.log.traces[t.index]? with
      | none => exact ⟨rfl, rfl⟩
      | some d =>
        simp only [Option.map_some, Option.getD_some]
        split <;> exact ⟨rfl, rfl⟩
    exact ⟨{ Grows.refl r.log with
        traces := by simp [handlerRoots]
        ips := fun t => (same t).1
        watched := fun t watching => (same t).2.trans watching },
      charted.reshaped rfl rfl (fun _ d here => ⟨d, here, rfl, rfl, rfl⟩)
        (fun _ d here => ⟨d, here, rfl⟩)⟩

theorem foldKept {α : Type} {l : RootLog} {f : Replay × Nat → α → Replay × Nat} {xs : List α}
    {P : α → Prop} (holds : ∀ x ∈ xs, P x) {acc : Replay × Nat} (start : Kept l acc.1.log)
    (step : ∀ acc x, Kept l acc.1.log → P x → Kept l (f acc x).1.log) :
    Kept l (xs.foldl f acc).1.log := by
  induction xs generalizing acc with
  | nil => exact start
  | cons x rest ih =>
    exact ih (fun y member => holds y (List.mem_cons_of_mem _ member))
      (step acc x start (holds x List.mem_cons_self))

theorem runKept (fuel : Nat) : ∀ {r : Replay} {path : Option PathId} (roots : RootMap) (i : Nat)
    (reached : Bool) (leaving : RootMap), r.log.Keyed → Charted r.log → r.log.Knows path →
      Kept r.log (run fuel r roots i path reached leaving).replay.log := by
  induction fuel with
  | zero => exact fun _ _ _ _ _ charted _ => ⟨Grows.refl _, charted⟩
  | succ fuel ih =>
    intro r path roots i reached leaving keyed charted knows
    have onward : ∀ {r' : Replay} {path' : Option PathId} (roots i reached leaving),
        Kept r.log r'.log → r'.log.Knows path' →
        Kept r.log (run fuel r' roots i path' reached leaving).replay.log :=
      fun roots i reached leaving kept knows' =>
        kept.trans (ih roots i reached leaving (keyed.grow kept.grows) kept.charted knows')
    have start : Kept r.log r.log := ⟨Grows.refl _, charted⟩
    have on : ∀ {r' : Replay} (roots i reached leaving), Kept r.log r'.log →
        Kept r.log (run fuel r' roots i path reached leaving).replay.log :=
      fun roots i reached leaving kept =>
        onward roots i reached leaving kept (knows.grow kept.grows)
    rw [run]
    split
    · exact start
    · have inside := on roots (i + 1) false leaving start
      simp only
      split
      · exact on _ _ _ _ inside
      · exact inside
    · exact start
    · exact on _ _ _ _ ⟨arriveGrows .., arriveCharted charted ..⟩
    · exact on _ _ _ _ start
    · exact on _ _ _ _ start
    · rename_i low high _
      -- the handler's body is replayed on each path, one after the other
      have handled : ∀ (acc : Replay × Nat) (p : Option PathId), Kept r.log acc.1.log →
          acc.1.log.Knows p → Kept r.log (run fuel (acc.1.handlerRoots p low high).2
            (acc.1.handlerRoots p low high).1 (i + 1) p false
            (acc.1.handlerRoots p low high).1).replay.log := by
        intro acc p kept knows'
        have watching := handlerRootsKept kept.charted p low high
        exact onward _ _ _ _ (kept.trans watching) (knows'.grow watching.grows)
      refine on _ _ _ _ ?_
      split
      · rename_i region _
        have known : ∀ p ∈ (r.log.region region).calls.flatMap (fun c => (r.log.call c).paths),
            r.log.Knows (some p) := by
          intro p member
          obtain ⟨c, -, listed⟩ := List.mem_flatMap.mp member
          obtain ⟨d, here, -⟩ := charted.listed c p listed
          exact (Array.getElem?_eq_some_iff.mp here).1
        refine foldKept known start fun acc p kept member => ?_
        exact handled acc (some p) kept (Knows.grow kept.grows member)
      · exact handled (r, i + 1) none start trivial
    · exact on _ _ _ _ ⟨recordTraceGrows .., recordTraceCharted charted ..⟩
    · rename_i site resume here
      have pathed : Kept r.log (r.pathFor site path).2.log :=
        ⟨pathForGrows .., pathForCharted charted (keyed _ _ _ here) knows⟩
      exact on _ _ _ _ (onward _ _ _ _ pathed (pathForBelow charted site path).knows)
    · exact start

theorem solveKept {l : RootLog} (keyed : l.Keyed) (charted : Charted l) (s : Settings) :
    Kept l (l.solve s).2 := by
  suffices each : ∀ (fuel passes : Nat) {l : RootLog}, l.Keyed → Charted l →
      Kept l (solveFrom s fuel passes l).2 from each _ _ keyed charted
  intro fuel
  induction fuel with
  | zero => exact fun _ _ _ charted => ⟨Grows.refl _, charted⟩
  | succ fuel ih =>
    intro passes l keyed charted
    have passed : Kept l l.pass.log := runKept _ (r := { log := l }) _ _ _ _ keyed charted trivial
    rw [solveFrom]
    simp only
    split
    · exact passed
    · split
      · exact passed
      · exact passed.trans (ih _ (keyed.grow passed.grows) passed.charted)

end Solving

namespace RootLog

variable {l l' : RootLog} {opened : List Opening}

theorem entriesAdd {e x : LogEntry} {k : Nat} (here : (l.add e).entries[k]? = some x) :
    l.entries[k]? = some x ∨ k = l.entries.size ∧ x = e := by
  simp only [add, Array.getElem?_push] at here
  split at here
  · exact .inr ⟨by assumption, (Option.some.inj here).symm⟩
  · exact .inl here

theorem entriesKept (e : LogEntry) {k : Nat} (before : k < l.entries.size) :
    (l.add e).entries[k]? = l.entries[k]? := by
  rw [add, Array.getElem?_push_lt before, Array.getElem?_eq_getElem before]

theorem entriesLast (l : RootLog) (e : LogEntry) :
    (l.add e).entries[l.entries.size]? = some e := Array.getElem?_push_size

theorem known {k : Nat} {e : LogEntry} (here : l.entries[k]? = some e) : k < l.entries.size :=
  (Array.getElem?_eq_some_iff.mp here).1

structure Tallied (l : RootLog) : Prop where
  visits : l.visits.size = l.maps.size
  charted : Charted l
  sited : ∀ (k : Nat) site resume, l.entries[k]? = some (.pushSubroutine site resume) →
    site.index < l.calls.size ∧ (l.call site).region.index < l.regions.size
  calledOnce : ∀ (i j : Nat) site a b, l.entries[i]? = some (.pushSubroutine site a) →
    l.entries[j]? = some (.pushSubroutine site b) → i = j
  traced : ∀ (k : Nat) t, l.entries[k]? = some (.trace t) → t.index < l.traces.size
  tracedOnce : ∀ (i j : Nat) t, l.entries[i]? = some (.trace t) → l.entries[j]? = some (.trace t) →
    i = j
  reached : ∀ (k : Nat) ip, l.entries[k]? = some (.visit ip) → ip < l.maps.size
  counted : ∀ (k : Nat) ip, l.entries[k]? = some (.visit ip) → 0 < l.visitCount ip
  recounted : ∀ (i j : Nat) ip, i < j → l.entries[i]? = some (.visit ip) →
    l.entries[j]? = some (.visit ip) → 1 < l.visitCount ip
  bare : l.regions.size = 0 → l.current = none ∧ ∀ ip, l.regionAt.getD ip none = none
  begun : 0 < l.regions.size → ∃ (k : Nat) (site : CallSiteId) (resume : Nat),
    l.entries[k]? = some (.pushSubroutine site resume)

theorem Tallied.add (tallied : Tallied l) {e : LogEntry} (visit : ∀ ip, e ≠ .visit ip)
    (trace : ∀ t, e ≠ .trace t) (call : ∀ site resume, e ≠ .pushSubroutine site resume) :
    Tallied (l.add e) := by
  have old : ∀ {k x}, (l.add e).entries[k]? = some x → x ≠ e → l.entries[k]? = some x :=
    fun here other => (entriesAdd here).resolve_right fun ⟨_, same⟩ => other same
  refine ⟨tallied.visits, tallied.charted.reshaped rfl rfl (fun _ d here => ⟨d, here, rfl, rfl, rfl⟩)
    (fun _ d here => ⟨d, here, rfl⟩), ?_, ?_, ?_, ?_, ?_, ?_, ?_, tallied.bare, ?_⟩
  · exact fun k site resume here => tallied.sited k site resume (old here (call _ _).symm)
  · exact fun i j site a b here there => tallied.calledOnce i j site a b (old here (call _ _).symm)
      (old there (call _ _).symm)
  · exact fun k t here => tallied.traced k t (old here (trace _).symm)
  · exact fun i j t here there => tallied.tracedOnce i j t (old here (trace _).symm)
      (old there (trace _).symm)
  · exact fun k ip here => tallied.reached k ip (old here (visit _).symm)
  · exact fun k ip here => tallied.counted k ip (old here (visit _).symm)
  · exact fun i j ip before here there => tallied.recounted i j ip before (old here (visit _).symm)
      (old there (visit _).symm)
  · intro some
    obtain ⟨k, site, resume, here⟩ := tallied.begun some
    exact ⟨k, site, resume, (entriesKept e (known here)).trans here⟩

theorem Tallied.new (codeLength mapSize : Nat) : Tallied (.new codeLength mapSize) where
  visits := by simp [RootLog.new]
  charted := by
    have none : ∀ c, ((RootLog.new codeLength mapSize).call c).paths = [] := fun c => rfl
    exact ⟨fun p d here => by simp [RootLog.new] at here, fun p d o here => by simp [RootLog.new] at here,
      fun p d here => by simp [RootLog.new] at here, fun c p member => by simp [none] at member,
      fun p q d e here => by simp [RootLog.new] at here⟩
  sited k site resume here := by simp [RootLog.new] at here
  calledOnce i j site a b here := by simp [RootLog.new] at here
  traced k t here := by simp [RootLog.new] at here
  tracedOnce i j t here := by simp [RootLog.new] at here
  reached k ip here := by simp [RootLog.new] at here
  counted k ip here := by simp [RootLog.new] at here
  recounted i j ip _ here := by simp [RootLog.new] at here
  bare _ := ⟨rfl, fun ip => by
    simp only [RootLog.new, Array.getD_eq_getD_getElem?, Array.getElem?_replicate]
    split <;> rfl⟩
  begun some := by simp [RootLog.new] at some

theorem Tallied.grow (tallied : Tallied l) (kept : Kept l l') : Tallied l' := by
  obtain ⟨grows, charted⟩ := kept
  refine ⟨by rw [grows.visits, grows.maps, tallied.visits], charted, ?_, ?_, ?_, ?_, ?_, ?_, ?_, ?_, ?_⟩
  all_goals simp only [grows.entries, grows.maps, grows.calls, grows.callees, grows.regions,
    grows.traces, visitCount, grows.visits, grows.current, grows.regionAt]
  · exact tallied.sited
  · exact tallied.calledOnce
  · exact tallied.traced
  · exact tallied.tracedOnce
  · exact tallied.reached
  · exact tallied.counted
  · exact tallied.recounted
  · exact tallied.bare
  · exact tallied.begun

theorem visitOk {ip : Nat} {first : Bool} (ok : l.visit ip = .ok (first, l')) :
    ip < l.visits.size ∧ ∃ at', (l.regions.size = 0 → l.current = none →
      (∀ k, l.regionAt.getD k none = none) → ∀ k, at'.getD k none = none) ∧
    l' = ({ l with visits := l.visits.modify ip (fun n => min (n + 1) maxVisits), regionAt := at' }).add (.visit ip) := by
  unfold visit at ok
  split at ok
  · rename_i inside
    refine ⟨inside, ?_⟩
    simp only [Except.ok.injEq, Prod.mk.injEq] at ok
    obtain ⟨-, rfl⟩ := ok
    by_cases never : (l.visitCount ip == 0) = true
    · simp only [never, if_true]
      refine ⟨_, fun _ current none k => ?_, rfl⟩
      rw [getDModify]
      split
      · exact current
      · exact none k
    · simp only [never]
      exact ⟨_, fun _ _ none => none, rfl⟩
  · cases ok

theorem Tallied.visit (tallied : Tallied l) {ip : Nat} {first : Bool}
    (ok : l.visit ip = .ok (first, l')) : Tallied l' := by
  obtain ⟨inside, at', none, rfl⟩ := visitOk ok
  let m : RootLog := { l with
    visits := l.visits.modify ip (fun n => min (n + 1) maxVisits), regionAt := at' }
  have count : m.visitCount ip = min (l.visitCount ip + 1) 65535 := by
    show (l.visits.modify ip fun n => min (n + 1) maxVisits).getD ip 0 = _
    rw [getDModify, if_pos ⟨rfl, inside⟩]
    rfl
  have least : ∀ other, min (l.visitCount other) 2 ≤ m.visitCount other := by
    intro other
    show _ ≤ (l.visits.modify ip fun n => min (n + 1) maxVisits).getD other 0
    rw [getDModify, maxVisits, visitCount]
    split <;> omega
  have old : ∀ {k : Nat} {x : LogEntry}, (m.add (.visit ip)).entries[k]? = some x → x ≠ .visit ip →
      l.entries[k]? = some x :=
    fun here other => (entriesAdd here).resolve_right fun new => other new.2
  have charted : Charted (m.add (.visit ip)) := tallied.charted.reshaped rfl rfl
    (fun _ d here => ⟨d, here, rfl, rfl, rfl⟩) (fun _ d here => ⟨d, here, rfl⟩)
  refine ⟨Array.size_modify.trans tallied.visits, charted, ?_, ?_, ?_, ?_, ?_, ?_, ?_, ?_, ?_⟩
  · exact fun k site resume here => tallied.sited k site resume (old here (by simp))
  · exact fun i j site a b here there => tallied.calledOnce i j site a b (old here (by simp))
      (old there (by simp))
  · exact fun k t here => tallied.traced k t (old here (by simp))
  · exact fun i j t here there => tallied.tracedOnce i j t (old here (by simp)) (old there (by simp))
  · intro k other here
    rcases entriesAdd here with before | ⟨-, same⟩
    · exact tallied.reached k other before
    · cases same
      exact tallied.visits ▸ inside
  · intro k other here
    have := least other
    rcases entriesAdd here with before | ⟨-, same⟩
    · have := tallied.counted k other before
      show 0 < m.visitCount other
      omega
    · cases same
      show 0 < m.visitCount ip
      omega
  · intro i j other before here there
    have := least other
    show 1 < m.visitCount other
    rcases entriesAdd there with earlier | ⟨last, same⟩
    · have here := (entriesAdd here).resolve_right fun new => by
        have := known earlier
        have : i = l.entries.size := new.1
        omega
      have := tallied.recounted i j other before here earlier
      omega
    · cases same
      have here := (entriesAdd here).resolve_right fun new => by have := new.1; omega
      have := tallied.counted i ip here
      omega
  · intro empty
    obtain ⟨current, all⟩ := tallied.bare empty
    exact ⟨current, none empty current all⟩
  · intro some
    obtain ⟨k, site, resume, here⟩ := tallied.begun some
    exact ⟨k, site, resume, (entriesKept (l := m) _ (known here)).trans here⟩

theorem Tallied.trace (tallied : Tallied l) (ip : Nat) : Tallied (l.trace ip).2 := by
  let m : RootLog := { l with traces := l.traces.push ⟨ip, RootMap.empty l.mapSize, false, none, []⟩ }
  have fresh : ∀ (k : Nat) (t : TraceId), l.entries[k]? = some (.trace t) →
      t ≠ ⟨l.traces.size⟩ := by
    rintro k t here rfl
    exact Nat.lt_irrefl _ (tallied.traced k _ here)
  have old : ∀ {k : Nat} {x : LogEntry}, (m.add (.trace ⟨l.traces.size⟩)).entries[k]? = some x →
      x ≠ .trace ⟨l.traces.size⟩ → l.entries[k]? = some x :=
    fun here other => (entriesAdd here).resolve_right fun ⟨_, same⟩ => other same
  have charted : Charted (m.add (.trace ⟨l.traces.size⟩)) := tallied.charted.reshaped rfl rfl
    (fun _ d here => ⟨d, here, rfl, rfl, rfl⟩) (fun _ d here => ⟨d, here, rfl⟩)
  refine ⟨tallied.visits, charted, ?_, ?_, ?_, ?_, ?_, ?_, ?_, tallied.bare, ?_⟩
  · exact fun k site resume here => tallied.sited k site resume (old here (by simp))
  · exact fun i j site a b here there => tallied.calledOnce i j site a b (old here (by simp))
      (old there (by simp))
  · intro k t here
    show t.index < (l.traces.push _).size
    rw [Array.size_push]
    rcases entriesAdd here with before | ⟨-, same⟩
    · exact Nat.lt_succ_of_lt (tallied.traced k t before)
    · cases same
      exact Nat.lt_succ_self _
  · intro i j t here there
    rcases entriesAdd here with before | ⟨first, same⟩
    · rcases entriesAdd there with before' | ⟨-, same⟩
      · exact tallied.tracedOnce i j t before before'
      · cases same
        exact absurd rfl (fresh i _ before)
    · rcases entriesAdd there with before' | ⟨second, -⟩
      · cases same
        exact absurd rfl (fresh j _ before')
      · rw [first, second]
  · exact fun k other here => tallied.reached k other (old here (by simp))
  · exact fun k other here => tallied.counted k other (old here (by simp))
  · exact fun i j other before here there => tallied.recounted i j other before (old here (by simp))
      (old there (by simp))
  · intro some
    obtain ⟨k, site, resume, here⟩ := tallied.begun some
    exact ⟨k, site, resume, (entriesKept (l := m) _ (known here)).trans here⟩

theorem Tallied.same (tallied : Tallied l) (entries : l'.entries = l.entries)
    (visits : l'.visits = l.visits) (maps : l'.maps = l.maps) (traces : l'.traces.size = l.traces.size)
    (calls : l'.calls = l.calls) (paths : l'.paths = l.paths) (regions : l'.regions.size = l.regions.size)
    (current : l'.current = l.current) (regionAt : l'.regionAt = l.regionAt) : Tallied l' := by
  have charted : Charted l' := tallied.charted.reshaped calls (by rw [maps])
    (fun p d here => ⟨d, paths ▸ here, rfl, rfl, rfl⟩) (fun p d here => ⟨d, paths ▸ here, rfl⟩)
  refine ⟨by rw [visits, maps, tallied.visits], charted, ?_, ?_, ?_, ?_, ?_, ?_, ?_, ?_, ?_⟩
  all_goals simp only [entries, maps, RootLog.call, calls, regions, traces, visitCount, visits,
    current, regionAt]
  · exact tallied.sited
  · exact tallied.calledOnce
  · exact tallied.traced
  · exact tallied.tracedOnce
  · exact tallied.reached
  · exact tallied.counted
  · exact tallied.recounted
  · exact tallied.bare
  · exact tallied.begun

theorem Tallied.attach (tallied : Tallied l) (t : TraceId) (address : PromiseId) (argument : Nat) :
    Tallied (l.attach t address argument) :=
  tallied.same rfl rfl rfl (by simp [RootLog.attach]) rfl rfl rfl rfl rfl

theorem Tallied.slot (tallied : Tallied l) (slot : Nat) : Tallied (l.setReturnSlot slot) := by
  unfold setReturnSlot
  split
  · exact tallied.same rfl rfl rfl rfl rfl rfl (by simp) rfl rfl
  · exact tallied

structure Starts (l l' : RootLog) (ip : Nat) (sub : OpenSubroutine) : Prop where
  entry : sub.entry = l.entries.size
  entries : l'.entries = l.entries.push (.pushSubroutine ⟨l.calls.size⟩ 0)
  visits : l'.visits = l.visits
  maps : l'.maps = l.maps
  traces : l'.traces = l.traces
  paths : l'.paths = l.paths
  calls : ∃ address, l'.calls = l.calls.push ⟨sub.region, address, []⟩
  bodies : ∀ g : RegionId, g.index < l.regions.size → (l'.region g).body = (l.region g).body
  region : sub.region.index < l.regions.size ∧ (l.region sub.region).ip = ip ∧
      l'.regions.size = l.regions.size ∨
    sub.region.index = l.regions.size ∧ l'.regions.size = l.regions.size + 1 ∧
      (l'.region sub.region).body = l.entries.size + 1

theorem bodyListed (regions : Array Region) (g h : Nat) (calls : List CallSiteId) :
    ((regions.modify h fun r => { r with calls := r.calls ++ calls }).getD g default).body =
      (regions.getD g default).body := by
  rw [getDModify]
  split <;> rfl

theorem startStarts (l : RootLog) (ip : Nat) (address : PromiseId) :
    Starts l (l.startSubroutine ip address).2 ip (l.startSubroutine ip address).1 := by
  cases found : l.regions.findIdx? (·.ip == ip) with
  | some i =>
    obtain ⟨inside, same, -⟩ := Array.findIdx?_eq_some_iff_getElem.mp found
    have at' : (l.region ⟨i⟩).ip = ip := by
      rw [RootLog.region, Array.getD_eq_getD_getElem?, Array.getElem?_eq_getElem inside]
      simpa using same
    simp only [startSubroutine, regionFor, found]
    exact ⟨rfl, rfl, rfl, rfl, rfl, rfl, ⟨address, rfl⟩, fun g _ => bodyListed l.regions g.index i _,
      .inl ⟨inside, at', Array.size_modify⟩⟩
  | none =>
    simp only [startSubroutine, regionFor, found]
    refine ⟨rfl, rfl, rfl, rfl, rfl, rfl, ⟨address, rfl⟩, fun g old => ?_, .inr ⟨rfl, ?_, ?_⟩⟩
    · refine (bodyListed (l.regions.push _) g.index l.regions.size _).trans ?_
      rw [RootLog.region, Array.getD_eq_getD_getElem?, Array.getD_eq_getD_getElem?,
        Array.getElem?_push_lt old, Array.getElem?_eq_getElem old]
    · exact Array.size_modify.trans (Array.size_push _)
    · refine (bodyListed (l.regions.push _) l.regions.size l.regions.size _).trans ?_
      rw [Array.getD_eq_getD_getElem?, Array.getElem?_push_size]
      rfl

theorem Starts.callee {ip : Nat} {sub : OpenSubroutine} (starts : Starts l l' ip sub)
    {site : CallSiteId} (old : site.index < l.calls.size) : l'.call site = l.call site := by
  obtain ⟨address, calls⟩ := starts.calls
  rw [RootLog.call, RootLog.call, calls, Array.getD_eq_getD_getElem?, Array.getD_eq_getD_getElem?,
    Array.getElem?_push_lt old, Array.getElem?_eq_getElem old]

theorem Starts.called {ip : Nat} {sub : OpenSubroutine} (starts : Starts l l' ip sub) :
    (l'.call ⟨l.calls.size⟩).region = sub.region ∧ (l'.call ⟨l.calls.size⟩).paths = [] := by
  obtain ⟨address, calls⟩ := starts.calls
  rw [RootLog.call, calls, Array.getD_eq_getD_getElem?, Array.getElem?_push_size]
  exact ⟨rfl, rfl⟩

theorem Starts.size {ip : Nat} {sub : OpenSubroutine} (starts : Starts l l' ip sub) :
    l'.calls.size = l.calls.size + 1 ∧ l.regions.size ≤ l'.regions.size ∧
      sub.region.index < l'.regions.size := by
  obtain ⟨address, calls⟩ := starts.calls
  refine ⟨by rw [calls, Array.size_push], ?_⟩
  obtain ⟨old, -, same⟩ | ⟨new, more, -⟩ := starts.region <;> omega

theorem pathsListed {c : CallSiteId} {p : PathId} (member : p ∈ (l.call c).paths) :
    c.index < l.calls.size := by
  by_cases inside : c.index < l.calls.size
  · exact inside
  · rw [RootLog.call, Array.getD_eq_getD_getElem?, Array.getElem?_eq_none (by omega)] at member
    cases member

theorem Starts.charted {ip : Nat} {sub : OpenSubroutine} (starts : Starts l l' ip sub)
    (charted : Charted l) : Charted l' := by
  constructor
  · intro p d here
    have member := charted.call p d (starts.paths ▸ here)
    rwa [starts.callee (pathsListed member)]
  · exact fun p d o here => charted.outer p d o (starts.paths ▸ here)
  · intro p d here
    rw [starts.maps]
    exact charted.maps p d (starts.paths ▸ here)
  · intro c p member
    rw [starts.paths]
    by_cases old : c.index < l.calls.size
    · exact charted.listed c p (starts.callee old ▸ member)
    · have new : c = ⟨l.calls.size⟩ := by
        have := pathsListed member
        have := starts.size.1
        cases c
        simp_all
        omega
      rw [new, starts.called.2] at member
      cases member
  · exact fun p q d e here there => charted.single p q d e (starts.paths ▸ here)
      (starts.paths ▸ there)

theorem Tallied.call (tallied : Tallied l) {ip : Nat} {sub : OpenSubroutine}
    (starts : Starts l l' ip sub) : Tallied l' := by
  have old : ∀ {k : Nat} {x : LogEntry}, l'.entries[k]? = some x →
      l.entries[k]? = some x ∨ k = l.entries.size ∧ x = .pushSubroutine ⟨l.calls.size⟩ 0 := by
    intro k x here
    rw [starts.entries] at here
    exact entriesAdd (l := l) here
  obtain ⟨size, more, region⟩ := starts.size
  refine ⟨by rw [starts.visits, starts.maps, tallied.visits], starts.charted tallied.charted, ?_, ?_, ?_, ?_, ?_, ?_, ?_, ?_, ?_⟩
  · intro k site resume here
    rcases old here with before | ⟨-, same⟩
    · obtain ⟨known, inside⟩ := tallied.sited k site resume before
      rw [starts.callee known]
      omega
    · cases same
      rw [starts.called.1]
      exact ⟨by simp only; omega, region⟩
  · intro i j site a b here there
    rcases old here with before | ⟨first, same⟩
    · rcases old there with before' | ⟨-, same⟩
      · exact tallied.calledOnce i j site a b before before'
      · cases same
        exact absurd (tallied.sited i _ a before).1 (Nat.lt_irrefl _)
    · rcases old there with before' | ⟨second, -⟩
      · cases same
        exact absurd (tallied.sited j _ b before').1 (Nat.lt_irrefl _)
      · rw [first, second]
  · intro k t here
    rw [starts.traces]
    exact tallied.traced k t ((old here).resolve_right (by simp))
  · exact fun i j t here there => tallied.tracedOnce i j t ((old here).resolve_right (by simp))
      ((old there).resolve_right (by simp))
  · intro k other here
    rw [starts.maps]
    exact tallied.reached k other ((old here).resolve_right (by simp))
  · intro k other here
    rw [visitCount, starts.visits]
    exact tallied.counted k other ((old here).resolve_right (by simp))
  · intro i j other before here there
    rw [visitCount, starts.visits]
    exact tallied.recounted i j other before ((old here).resolve_right (by simp))
      ((old there).resolve_right (by simp))
  · intro empty
    omega
  · intro _
    exact ⟨l.entries.size, ⟨l.calls.size⟩, 0, by rw [starts.entries, Array.getElem?_push_size]⟩

def closing (resume : Nat) : LogEntry → LogEntry
  | .pushSubroutine call _ => .pushSubroutine call resume
  | e => e

theorem endEntry (l : RootLog) (sub : OpenSubroutine) (k : Nat) :
    (l.endSubroutine sub).entries[k]? =
      if sub.entry = k then (l.add .popSubroutine).entries[k]?.map (closing (l.entries.size + 1))
      else (l.add .popSubroutine).entries[k]? := by
  have size : (l.add .popSubroutine).entries.size = l.entries.size + 1 := Array.size_push _
  simp only [endSubroutine, Array.getElem?_modify, size]
  rfl

theorem endEntries {sub : OpenSubroutine} {k : Nat} {x : LogEntry}
    (here : (l.endSubroutine sub).entries[k]? = some x) :
    l.entries[k]? = some x ∨ k = l.entries.size ∧ x = .popSubroutine ∨
      ∃ site old, k = sub.entry ∧ l.entries[k]? = some (.pushSubroutine site old) ∧
        x = .pushSubroutine site (l.entries.size + 1) := by
  rw [endEntry] at here
  split at here
  · rename_i at'
    obtain ⟨e, before, rfl⟩ := Option.map_eq_some_iff.mp here
    rcases entriesAdd before with old | ⟨last, rfl⟩
    · cases e with
      | pushSubroutine site old' => exact .inr (.inr ⟨site, old', at'.symm, old, rfl⟩)
      | _ => exact .inl old
    · exact .inr (.inl ⟨last, rfl⟩)
  · exact (entriesAdd here).imp_right .inl

theorem Tallied.resume (tallied : Tallied l) (sub : OpenSubroutine) :
    Tallied (l.endSubroutine sub) := by
  have pushed : ∀ {k : Nat} {site : CallSiteId} {resume : Nat},
      (l.endSubroutine sub).entries[k]? = some (.pushSubroutine site resume) →
      ∃ old, l.entries[k]? = some (.pushSubroutine site old) := by
    intro k site resume here
    rcases endEntries here with before | ⟨-, same⟩ | ⟨site', old, -, before, same⟩
    · exact ⟨resume, before⟩
    · cases same
    · cases same
      exact ⟨old, before⟩
  have plain : ∀ {k : Nat} {x : LogEntry}, (l.endSubroutine sub).entries[k]? = some x →
      x ≠ .popSubroutine → (∀ site resume, x ≠ .pushSubroutine site resume) →
      l.entries[k]? = some x := by
    intro k x here pop push
    rcases endEntries here with before | ⟨-, same⟩ | ⟨site, old, -, -, same⟩
    · exact before
    · exact absurd same pop
    · exact absurd same (push _ _)
  have charted : Charted (l.endSubroutine sub) := tallied.charted.reshaped rfl rfl
    (fun _ d here => ⟨d, here, rfl, rfl, rfl⟩) (fun _ d here => ⟨d, here, rfl⟩)
  refine ⟨tallied.visits, charted, ?_, ?_, ?_, ?_, ?_, ?_, ?_, ?_, ?_⟩
  · intro k site resume here
    obtain ⟨old, before⟩ := pushed here
    exact tallied.sited k site old before
  · intro i j site a b here there
    obtain ⟨old, before⟩ := pushed here
    obtain ⟨old', before'⟩ := pushed there
    exact tallied.calledOnce i j site old old' before before'
  · exact fun k t here => tallied.traced k t (plain here (by simp) (by simp))
  · exact fun i j t here there => tallied.tracedOnce i j t (plain here (by simp) (by simp))
      (plain there (by simp) (by simp))
  · exact fun k ip here => tallied.reached k ip (plain here (by simp) (by simp))
  · exact fun k ip here => tallied.counted k ip (plain here (by simp) (by simp))
  · exact fun i j ip before here there => tallied.recounted i j ip before
      (plain here (by simp) (by simp)) (plain there (by simp) (by simp))
  · intro empty
    refine ⟨?_, (tallied.bare empty).2⟩
    have none : l.regions = #[] := Array.eq_empty_of_size_eq_zero empty
    simp only [endSubroutine, RootLog.add, none]
    rfl
  · intro some
    obtain ⟨k, site, resume, here⟩ := tallied.begun some
    have kept := entriesKept .popSubroutine (known here)
    by_cases at' : sub.entry = k
    · exact ⟨k, site, _, by rw [endEntry, if_pos at', kept, here]; rfl⟩
    · exact ⟨k, site, resume, by rw [endEntry, if_neg at', kept, here]⟩

def Readable (l : RootLog) (depth i j : Nat) : Prop := ∃ p, Reads l depth i p j

theorem Reads.deepen {depth depth' i j : Nat} {p : Passage} (reads : Reads l depth i p j)
    (deeper : depth ≤ depth') : Reads l depth' i p j := by
  induction reads generalizing depth' with
  | done => exact .done
  | mark here _ ih => exact .mark here (ih deeper)
  | clear here _ ih => exact .clear here (ih deeper)
  | visit here known _ ih => exact .visit here known (ih deeper)
  | trace here known _ ih => exact .trace here known (ih deeper)
  | context here _ close _ ihInside ihAfter => exact .context here (ihInside deeper) close (ihAfter deeper)
  | handler here _ close _ ihInside ihAfter => exact .handler here (ihInside deeper) close (ihAfter deeper)
  | call here onward known start same recorded _ close _ ihInside ihAfter =>
    obtain ⟨n, rfl⟩ := Nat.exists_eq_add_of_le' (Nat.le_trans (Nat.le_add_left 1 _) deeper)
    exact .call here onward known start same recorded (ihInside (Nat.le_of_succ_le_succ deeper)) close
      (ihAfter deeper)

theorem Readable.trans {depth i k j : Nat} (first : Readable l depth i k)
    (second : Readable l depth k j) : Readable l depth i j := by
  obtain ⟨p, reads⟩ := first
  induction reads with
  | done => exact second
  | mark here _ ih =>
    obtain ⟨q, reads⟩ := ih second
    exact ⟨_, .mark here reads⟩
  | clear here _ ih =>
    obtain ⟨q, reads⟩ := ih second
    exact ⟨_, .clear here reads⟩
  | visit here known _ ih =>
    obtain ⟨q, reads⟩ := ih second
    exact ⟨_, .visit here known reads⟩
  | trace here known _ ih =>
    obtain ⟨q, reads⟩ := ih second
    exact ⟨_, .trace here known reads⟩
  | context here inside close _ _ ih =>
    obtain ⟨q, reads⟩ := ih second
    exact ⟨_, .context here inside close reads⟩
  | handler here inside close _ _ ih =>
    obtain ⟨q, reads⟩ := ih second
    exact ⟨_, .handler here inside close reads⟩
  | call here onward known start same recorded inside close _ _ ih =>
    obtain ⟨q, reads⟩ := ih second
    exact ⟨_, .call here onward known start same recorded inside close reads⟩

structure Continues (l l' : RootLog) : Prop where
  entries : ∀ (k : Nat) e, l.entries[k]? = some e → (∀ c, e ≠ .pushSubroutine c 0) →
    l'.entries[k]? = some e
  maps : l.maps.size ≤ l'.maps.size
  traces : l.traces.size ≤ l'.traces.size
  calls : l.calls.size ≤ l'.calls.size
  callees : ∀ c : CallSiteId, c.index < l.calls.size → (l'.call c).region = (l.call c).region
  regions : l.regions.size ≤ l'.regions.size
  bodies : ∀ g : RegionId, g.index < l.regions.size → (l'.region g).body = (l.region g).body

theorem Readable.keep (continues : Continues l l') (tallied : Tallied l) {depth i j : Nat}
    (readable : Readable l depth i j) : Readable l' depth i j := by
  obtain ⟨p, reads⟩ := readable
  induction reads with
  | done => exact ⟨_, .done⟩
  | mark here _ ih =>
    obtain ⟨q, reads⟩ := ih
    exact ⟨_, .mark (continues.entries _ _ here (by simp)) reads⟩
  | clear here _ ih =>
    obtain ⟨q, reads⟩ := ih
    exact ⟨_, .clear (continues.entries _ _ here (by simp)) reads⟩
  | visit here known _ ih =>
    obtain ⟨q, reads⟩ := ih
    exact ⟨_, .visit (continues.entries _ _ here (by simp)) (Nat.lt_of_lt_of_le known continues.maps)
      reads⟩
  | trace here known _ ih =>
    obtain ⟨q, reads⟩ := ih
    exact ⟨_, .trace (continues.entries _ _ here (by simp))
      (Nat.lt_of_lt_of_le known continues.traces) reads⟩
  | context here _ close _ ihInside ihAfter =>
    obtain ⟨q, inside⟩ := ihInside
    obtain ⟨q', after⟩ := ihAfter
    exact ⟨_, .context (continues.entries _ _ here (by simp)) inside
      (continues.entries _ _ close (by simp)) after⟩
  | handler here _ close _ ihInside ihAfter =>
    obtain ⟨q, inside⟩ := ihInside
    obtain ⟨q', after⟩ := ihAfter
    exact ⟨_, .handler (continues.entries _ _ here (by simp)) inside
      (continues.entries _ _ close (by simp)) after⟩
  | call here onward known start same recorded _ close _ ihInside ihAfter =>
    obtain ⟨q, inside⟩ := ihInside
    obtain ⟨q', after⟩ := ihAfter
    have region := (tallied.sited _ _ _ here).2
    have initial := (tallied.sited _ _ _ start).1
    refine ⟨_, .call (continues.entries _ _ here ?_) onward (Nat.lt_of_lt_of_le known continues.calls)
      (continues.entries _ _ start (by simp)) ?_ ?_ inside (continues.entries _ _ close (by simp)) after⟩
    · intro c same
      cases same
      omega
    · rw [continues.callees _ initial, continues.callees _ known, same]
    · rw [continues.callees _ known, continues.bodies _ region, recorded]

def Bodied (l : RootLog) (depth g : Nat) : Prop :=
  ∃ first stop initial, l.entries[first]? = some (.pushSubroutine initial (stop + 1)) ∧
    (l.call initial).region = ⟨g⟩ ∧ (l.region ⟨g⟩).body = first + 1 ∧
    Readable l depth (first + 1) stop ∧ l.entries[stop]? = some .popSubroutine

def Spine (l : RootLog) (depth : Nat) : List Opening → Nat → Prop
  | [], stop => Readable l depth 0 stop
  | .context :: rest, stop => ∃ k,
    (l.entries[k]? = some .pushContext ∨ ∃ a b, l.entries[k]? = some (.pushHandler a b)) ∧
    Readable l depth (k + 1) stop ∧ Spine l depth rest k
  | .subroutine sub :: rest, stop =>
    (∃ site, l.entries[sub.entry]? = some (.pushSubroutine site 0) ∧
      (l.call site).region = sub.region) ∧
    Readable l depth (sub.entry + 1) stop ∧ Spine l depth rest sub.entry

theorem Spine.extend {depth stop stop' : Nat} (spine : Spine l depth opened stop)
    (more : Readable l depth stop stop') : Spine l depth opened stop' := by
  cases opened with
  | nil => exact Readable.trans spine more
  | cons o rest =>
    cases o with
    | context =>
      obtain ⟨k, here, inside, outer⟩ := spine
      exact ⟨k, here, inside.trans more, outer⟩
    | subroutine sub => exact ⟨spine.1, spine.2.1.trans more, spine.2.2⟩

theorem Spine.keep (continues : Continues l l') (tallied : Tallied l) {depth depth' : Nat}
    (deeper : depth ≤ depth') {opened : List Opening} : ∀ {stop : Nat},
    (∀ k < stop, l'.entries[k]? = l.entries[k]?) → Spine l depth opened stop →
      Spine l' depth' opened stop := by
  have read : ∀ {i j}, Readable l depth i j → Readable l' depth' i j := by
    intro i j readable
    obtain ⟨p, reads⟩ := readable.keep continues tallied
    exact ⟨p, reads.deepen deeper⟩
  induction opened with
  | nil => exact fun _ spine => read spine
  | cons o rest ih =>
    intro stop kept spine
    cases o with
    | context =>
      obtain ⟨k, here, inside, outer⟩ := spine
      obtain ⟨p, reads⟩ := inside
      have before : k < stop := reads.ordered
      refine ⟨k, ?_, read ⟨p, reads⟩, ih (fun i small => kept i (by omega)) outer⟩
      rw [kept k before]
      exact here
    | subroutine sub =>
      obtain ⟨⟨site, here, region⟩, inside, outer⟩ := spine
      obtain ⟨p, reads⟩ := inside
      have before : sub.entry < stop := reads.ordered
      refine ⟨⟨site, by rw [kept _ before]; exact here, ?_⟩, read ⟨p, reads⟩,
        ih (fun i small => kept i (by omega)) outer⟩
      rw [continues.callees _ (tallied.sited _ _ _ here).1, region]

theorem Bodied.keep (continues : Continues l l') (tallied : Tallied l) {depth g : Nat}
    (known : g < l.regions.size) (bodied : Bodied l depth g) : Bodied l' depth g := by
  obtain ⟨first, stop, initial, start, region, recorded, inside, close⟩ := bodied
  refine ⟨first, stop, initial, continues.entries _ _ start (by simp), ?_, ?_,
    inside.keep continues tallied, continues.entries _ _ close (by simp)⟩
  · rw [continues.callees _ (tallied.sited _ _ _ start).1, region]
  · rw [continues.bodies ⟨g⟩ known, recorded]

/-- How a recorded log is nested. `order` lists the subroutines whose first entry is closed, as they
were closed: each calls only those before it. -/
structure Nested (l : RootLog) (order : List Nat) (opened : List Opening) : Prop where
  nodup : order.Nodup
  known : ∀ g ∈ order, g < l.regions.size
  body : ∀ (n g : Nat), order[n]? = some g → Bodied l n g
  spine : Spine l order.length opened l.entries.size
  begun : ∀ sub, .subroutine sub ∈ opened → sub.region.index < l.regions.size ∧
    (sub.region.index ∈ order ∨ (l.region sub.region).body = sub.entry + 1)
  done : ∀ g < l.regions.size, g ∈ order ∨ ∃ sub, .subroutine sub ∈ opened ∧ sub.region.index = g

theorem Nested.step {order : List Nat} {opened' : List Opening} (nested : Nested l order opened)
    (tallied : Tallied l) (continues : Continues l l') (regions : l'.regions.size = l.regions.size)
    (kept : ∀ k < l.entries.size, l'.entries[k]? = l.entries[k]?)
    (same : ∀ sub, .subroutine sub ∈ opened' ↔ .subroutine sub ∈ opened)
    (more : Spine l' order.length opened l.entries.size →
      Spine l' order.length opened' l'.entries.size) : Nested l' order opened' where
  nodup := nested.nodup
  known g member := regions ▸ nested.known g member
  body n g at' := (nested.body n g at').keep continues tallied
    (nested.known g (List.mem_of_getElem? at'))
  spine := more (nested.spine.keep continues tallied (Nat.le_refl _) kept)
  begun sub member := by
    obtain ⟨known, where'⟩ := nested.begun sub ((same sub).mp member)
    refine ⟨regions ▸ known, ?_⟩
    rw [continues.bodies _ known]
    exact where'
  done g known := by
    rcases nested.done g (regions ▸ known) with closed | ⟨sub, member, at'⟩
    · exact .inl closed
    · exact .inr ⟨sub, (same sub).mpr member, at'⟩

theorem continuesAdd (l : RootLog) (e : LogEntry) : Continues l (l.add e) where
  entries _ _ here _ := (entriesKept e (RootLog.known here)).trans here
  maps := Nat.le_refl _
  traces := Nat.le_refl _
  calls := Nat.le_refl _
  callees _ _ := rfl
  regions := Nat.le_refl _
  bodies _ _ := rfl

theorem Nested.add {order : List Nat} {opened' : List Opening} (nested : Nested l order opened)
    (tallied : Tallied l) (e : LogEntry)
    (same : ∀ sub, .subroutine sub ∈ opened' ↔ .subroutine sub ∈ opened)
    (more : Spine (l.add e) order.length opened l.entries.size →
      Spine (l.add e) order.length opened' (l.entries.size + 1)) :
    Nested (l.add e) order opened' := by
  refine nested.step tallied (continuesAdd l e) rfl (fun k => entriesKept e) same fun spine => ?_
  have size : (l.add e).entries.size = l.entries.size + 1 := Array.size_push _
  rw [size]
  exact more spine

theorem Nested.leave {order : List Nat} (nested : Nested l order (.context :: opened))
    (tallied : Tallied l) : Nested (l.add .popContext) order opened := by
  refine nested.add tallied .popContext (by simp) ?_
  rintro ⟨k, here, ⟨p, inside⟩, outer⟩
  have close := entriesLast l .popContext
  refine outer.extend ?_
  rcases here with here | ⟨a, b, here⟩
  · exact ⟨_, .context here inside close .done⟩
  · exact ⟨_, .handler here inside close .done⟩

theorem Nested.visit {order : List Nat} (nested : Nested l order opened) (tallied : Tallied l)
    {ip : Nat} {first : Bool} (ok : l.visit ip = .ok (first, l')) : Nested l' order opened := by
  obtain ⟨inside, at', -, rfl⟩ := visitOk ok
  let m : RootLog := { l with
    visits := l.visits.modify ip (fun n => min (n + 1) maxVisits), regionAt := at' }
  have continues := continuesAdd m (.visit ip)
  refine nested.step tallied ⟨continues.entries, continues.maps, continues.traces, continues.calls,
    continues.callees, continues.regions, continues.bodies⟩ rfl (fun k => entriesKept (l := m) _)
    (fun _ => Iff.rfl) fun spine => ?_
  have size : (m.add (.visit ip)).entries.size = l.entries.size + 1 := Array.size_push _
  rw [size]
  exact spine.extend ⟨_, .visit (entriesLast m _) (tallied.visits ▸ inside) .done⟩

theorem Nested.trace {order : List Nat} (nested : Nested l order opened) (tallied : Tallied l)
    (ip : Nat) : Nested (l.trace ip).2 order opened := by
  let m : RootLog := { l with traces := l.traces.push ⟨ip, RootMap.empty l.mapSize, false, none, []⟩ }
  have continues := continuesAdd m (.trace ⟨l.traces.size⟩)
  have more : l.traces.size < m.traces.size := by
    show _ < (l.traces.push _).size
    rw [Array.size_push]
    exact Nat.lt_succ_self _
  refine nested.step tallied ⟨continues.entries, continues.maps,
    Nat.le_trans (Nat.le_of_lt more) continues.traces, continues.calls, continues.callees,
    continues.regions, continues.bodies⟩ rfl (fun k => entriesKept (l := m) _)
    (fun _ => Iff.rfl) fun spine => ?_
  have size : (l.trace ip).2.entries.size = l.entries.size + 1 := Array.size_push _
  rw [size]
  exact spine.extend ⟨_, .trace (entriesLast m _) more .done⟩

theorem Nested.still {order : List Nat} (nested : Nested l order opened) (tallied : Tallied l)
    (entries : l'.entries = l.entries) (maps : l'.maps.size = l.maps.size)
    (traces : l'.traces.size = l.traces.size) (calls : l'.calls.size = l.calls.size)
    (callees : ∀ c, (l'.call c).region = (l.call c).region)
    (regions : l'.regions.size = l.regions.size)
    (bodies : ∀ g, (l'.region g).body = (l.region g).body) : Nested l' order opened := by
  have continues : Continues l l' := ⟨fun _ _ here _ => entries ▸ here, Nat.le_of_eq maps.symm,
    Nat.le_of_eq traces.symm, Nat.le_of_eq calls.symm, fun c _ => callees c,
    Nat.le_of_eq regions.symm, fun g _ => bodies g⟩
  refine nested.step tallied continues regions (fun k _ => by rw [entries]) (fun _ => Iff.rfl) ?_
  rw [entries]
  exact id

theorem Starts.continues {ip : Nat} {sub : OpenSubroutine} (starts : Starts l l' ip sub) :
    Continues l l' where
  entries k x here _ := by
    rw [starts.entries]
    exact (entriesKept (l := l) _ (RootLog.known here)).trans here
  maps := Nat.le_of_eq (by rw [starts.maps])
  traces := Nat.le_of_eq (by rw [starts.traces])
  calls := Nat.le_of_lt (by rw [starts.size.1]; exact Nat.lt_succ_self _)
  callees c old := by rw [starts.callee old]
  regions := starts.size.2.1
  bodies := starts.bodies

theorem Nested.call {order : List Nat} (nested : Nested l order opened) (tallied : Tallied l)
    {ip : Nat} {sub : OpenSubroutine} (starts : Starts l l' ip sub)
    (closed : ∀ sub, .subroutine sub ∈ opened → (l.region sub.region).ip ≠ ip) :
    Nested l' order (.subroutine sub :: opened) where
  nodup := nested.nodup
  known g member := Nat.lt_of_lt_of_le (nested.known g member) starts.continues.regions
  body n g at' := (nested.body n g at').keep starts.continues tallied
    (nested.known g (List.mem_of_getElem? at'))
  spine := by
    have last : l'.entries[sub.entry]? = some (.pushSubroutine ⟨l.calls.size⟩ 0) := by
      rw [starts.entry, starts.entries, Array.getElem?_push_size]
    have size : l'.entries.size = sub.entry + 1 := by
      rw [starts.entries, Array.size_push, starts.entry]
    rw [size]
    refine ⟨⟨_, last, starts.called.1⟩, ⟨_, .done⟩, ?_⟩
    rw [starts.entry]
    refine nested.spine.keep starts.continues tallied (Nat.le_refl _) fun k small => ?_
    rw [starts.entries]
    exact entriesKept (l := l) _ small
  begun other member := by
    rcases List.mem_cons.mp member with same | before
    · cases same
      refine ⟨starts.size.2.2, ?_⟩
      rcases starts.region with ⟨old, at', -⟩ | ⟨-, -, body⟩
      · rcases nested.done _ old with done | ⟨other, opened', same⟩
        · exact .inl done
        · refine absurd ?_ (closed other opened')
          rw [← at', show other.region = sub.region from congrArg RegionId.mk same]
      · exact .inr (by rw [body, starts.entry])
    · obtain ⟨known, where'⟩ := nested.begun other before
      refine ⟨Nat.lt_of_lt_of_le known starts.continues.regions, ?_⟩
      rw [starts.bodies _ known]
      exact where'
  done g known := by
    by_cases old : g < l.regions.size
    · rcases nested.done g old with closed | ⟨other, member, at'⟩
      · exact .inl closed
      · exact .inr ⟨other, List.mem_cons_of_mem _ member, at'⟩
    · refine .inr ⟨sub, List.mem_cons_self, ?_⟩
      rcases starts.region with ⟨-, -, same⟩ | ⟨new, more, -⟩ <;> omega

theorem Bodied.call {depth d g i resume : Nat} {site : CallSiteId} (bodied : Bodied l d g)
    (shallow : d ≤ depth) (here : l.entries[i]? = some (.pushSubroutine site resume))
    (onward : i < resume) (known : site.index < l.calls.size) (region : (l.call site).region = ⟨g⟩) :
    Readable l (depth + 1) i resume := by
  obtain ⟨first, stop, initial, start, region', recorded, ⟨p, inside⟩, close⟩ := bodied
  exact ⟨_, .call here onward known start (region'.trans region.symm) (by rw [region, recorded])
    (inside.deepen shallow) close .done⟩

theorem Nested.resume {order : List Nat} {sub : OpenSubroutine}
    (nested : Nested l order (.subroutine sub :: opened)) (tallied : Tallied l) :
    ∃ order', Nested (l.endSubroutine sub) order' opened := by
  obtain ⟨⟨site, here, region⟩, ⟨p, inside⟩, outer⟩ := nested.spine
  obtain ⟨inTable, where'⟩ := nested.begun sub List.mem_cons_self
  have before : sub.entry < l.entries.size := inside.ordered
  have opening : (l.endSubroutine sub).entries[sub.entry]? =
      some (.pushSubroutine site (l.entries.size + 1)) := by
    rw [endEntry, if_pos rfl, entriesKept _ before, here]
    rfl
  have kept : ∀ k < l.entries.size, k ≠ sub.entry →
      (l.endSubroutine sub).entries[k]? = l.entries[k]? := by
    intro k small other
    rw [endEntry, if_neg other.symm, entriesKept _ small]
  have close : (l.endSubroutine sub).entries[l.entries.size]? = some .popSubroutine := by
    rw [endEntry, if_neg (by omega), entriesLast]
  have size : (l.endSubroutine sub).entries.size = l.entries.size + 1 := by
    simp [endSubroutine, RootLog.add]
  have continues : Continues l (l.endSubroutine sub) := by
    refine ⟨fun k e at' plain => ?_, Nat.le_refl _, Nat.le_refl _, Nat.le_refl _, fun _ _ => rfl,
      Nat.le_refl _, fun _ _ => rfl⟩
    by_cases same : k = sub.entry
    · subst same
      cases here.symm.trans at'
      exact absurd rfl (plain site)
    · rw [kept k (RootLog.known at') same, at']
  have known := (tallied.sited _ _ _ here).1
  have others : ∀ {g : Nat} {order' : List Nat}, (∀ g ∈ order, g ∈ order') →
      sub.region.index ∈ order' → g < l.regions.size →
      g ∈ order' ∨ ∃ sub, .subroutine sub ∈ opened ∧ sub.region.index = g := by
    intro g order' more closed inside
    rcases nested.done g inside with done | ⟨other, member, at'⟩
    · exact .inl (more g done)
    · rcases List.mem_cons.mp member with same | outer
      · cases same
        exact .inl (at' ▸ closed)
      · exact .inr ⟨other, outer, at'⟩
  have bodies : ∀ (n g : Nat), order[n]? = some g → Bodied (l.endSubroutine sub) n g :=
    fun n g at' => (nested.body n g at').keep continues tallied
      (nested.known g (List.mem_of_getElem? at'))
  have outside : ∀ depth, order.length ≤ depth → Spine (l.endSubroutine sub) depth opened sub.entry :=
    fun depth deeper => outer.keep continues tallied deeper fun k small =>
      kept k (by omega) (by omega)
  by_cases again : sub.region.index ∈ order
  · obtain ⟨n, short, at'⟩ := List.mem_iff_getElem.mp again
    have bodied := bodies n _ (List.getElem?_eq_some_iff.mpr ⟨short, at'⟩)
    refine ⟨order, nested.nodup, nested.known, bodies, ?_, fun other member =>
      nested.begun other (List.mem_cons_of_mem _ member), fun g => others (fun _ => id) again⟩
    obtain ⟨d, length⟩ := Nat.exists_eq_add_of_lt (Nat.lt_of_le_of_lt (Nat.zero_le n) short)
    rw [size]
    refine (outside _ (Nat.le_refl _)).extend ?_
    rw [length]
    exact bodied.call (by omega) opening (by omega) known region
  · have bodied : Bodied (l.endSubroutine sub) order.length sub.region.index :=
      ⟨_, _, _, opening, region, where'.resolve_left again,
        Readable.keep continues tallied ⟨p, inside⟩, close⟩
    refine ⟨order ++ [sub.region.index], ?_, ?_, ?_, ?_, ?_, fun g =>
      others (fun _ => List.mem_append_left _) (List.mem_append_right _ List.mem_cons_self)⟩
    · exact List.nodup_append.mpr ⟨nested.nodup, by simp, by simp; exact fun g member same => again (same ▸ member)⟩
    · intro g member
      rcases List.mem_append.mp member with old | new
      · exact nested.known g old
      · cases List.mem_singleton.mp new
        exact inTable
    · intro n g at'
      rw [List.getElem?_append] at at'
      split at at'
      · exact bodies n g at'
      · have last : n = order.length := by
          have := (List.getElem?_eq_some_iff.mp at').1
          simp at this
          omega
        subst last
        simp at at'
        rw [← at']
        exact bodied
    · rw [size, List.length_append]
      exact (outside _ (by simp)).extend (bodied.call (Nat.le_refl _) opening (by omega) known region)
    · intro other member
      obtain ⟨inside, where''⟩ := nested.begun other (List.mem_cons_of_mem _ member)
      exact ⟨inside, where''.imp_left (List.mem_append_left _)⟩

theorem Recorded.nested (recorded : Recorded l opened) :
    Tallied l ∧ ∃ order, Nested l order opened := by
  induction recorded with
  | new codeLength mapSize =>
    refine ⟨.new codeLength mapSize, [], .nil, by simp, by simp, ⟨_, .done⟩, by simp, ?_⟩
    exact fun g known => absurd known (Nat.not_lt_zero g)
  | visit _ reached ih =>
    obtain ⟨tallied, order, nested⟩ := ih
    exact ⟨tallied.visit reached, order, nested.visit tallied reached⟩
  | mark _ slot ih =>
    obtain ⟨tallied, order, nested⟩ := ih
    refine ⟨tallied.add (by simp) (by simp) (by simp), order, ?_⟩
    exact nested.add tallied _ (fun _ => Iff.rfl) fun spine =>
      spine.extend ⟨_, .mark (entriesLast ..) .done⟩
  | clear _ slot ih =>
    obtain ⟨tallied, order, nested⟩ := ih
    refine ⟨tallied.add (by simp) (by simp) (by simp), order, ?_⟩
    exact nested.add tallied _ (fun _ => Iff.rfl) fun spine =>
      spine.extend ⟨_, .clear (entriesLast ..) .done⟩
  | enter _ ih =>
    obtain ⟨tallied, order, nested⟩ := ih
    refine ⟨tallied.add (by simp) (by simp) (by simp), order, ?_⟩
    exact nested.add tallied _ (by simp) fun spine =>
      ⟨_, .inl (entriesLast ..), ⟨_, .done⟩, spine⟩
  | handle _ start stop ih =>
    obtain ⟨tallied, order, nested⟩ := ih
    refine ⟨tallied.add (by simp) (by simp) (by simp), order, ?_⟩
    exact nested.add tallied _ (by simp) fun spine =>
      ⟨_, .inr ⟨start, stop, entriesLast ..⟩, ⟨_, .done⟩, spine⟩
  | leave _ ih =>
    obtain ⟨tallied, order, nested⟩ := ih
    exact ⟨tallied.add (by simp) (by simp) (by simp), order, nested.leave tallied⟩
  | trace _ ip ih =>
    obtain ⟨tallied, order, nested⟩ := ih
    exact ⟨tallied.trace ip, order, nested.trace tallied ip⟩
  | attach _ t address argument ih =>
    obtain ⟨tallied, order, nested⟩ := ih
    exact ⟨tallied.attach t address argument, order,
      nested.still tallied rfl rfl (by simp [RootLog.attach]) rfl (fun _ => rfl) rfl (fun _ => rfl)⟩
  | @call l _ _ ip address closed ih =>
    obtain ⟨tallied, order, nested⟩ := ih
    have starts := startStarts l ip address
    exact ⟨tallied.call starts, order, nested.call tallied starts closed⟩
  | slot _ slot ih =>
    obtain ⟨tallied, order, nested⟩ := ih
    refine ⟨tallied.slot slot, order, ?_⟩
    unfold setReturnSlot
    split
    · refine nested.still tallied rfl rfl rfl rfl (fun _ => rfl) (by simp) fun g => ?_
      simp only [RootLog.region, getDModify]
      split <;> rfl
    · exact nested
  | resume _ ih =>
    obtain ⟨tallied, order, nested⟩ := ih
    exact ⟨tallied.resume _, nested.resume tallied⟩
  | solve _ s ih =>
    obtain ⟨tallied, order, nested⟩ := ih
    have kept := solveKept (fun k site resume here => (tallied.sited k site resume here).1)
      tallied.charted s
    have grows := kept.grows
    exact ⟨tallied.grow kept, order, nested.still tallied grows.entries grows.maps grows.traces
      grows.calls grows.callees (by rw [grows.regions]) (fun g => by rw [RootLog.region, grows.regions, RootLog.region])⟩

/-- An instruction that is reached again ends its context, or ends an entry of a subroutine other
than the first, which is not replayed. -/
def VisitsEnd (l : RootLog) : Prop :=
  ∀ (i ip : Nat), l.entries[i]? = some (.visit ip) → (∃ j < i, l.entries[j]? = some (.visit ip)) →
    l.entries[i + 1]? = none ∨ l.entries[i + 1]? = some .popContext ∨
      l.entries[i + 1]? = some .popSubroutine ∧ ∀ (k : Nat) (site : CallSiteId),
        l.entries[k]? = some (.pushSubroutine site (i + 2)) →
        (l.region (l.call site).region).body ≠ k + 1

/-- Handlers and subroutines keep apart: no handler protects an instruction of a subroutine, and none
is recorded inside one. -/
def HandlersApart (l : RootLog) : Prop :=
  l.HandlersOutside ∧ ∀ (k : Nat) (site : CallSiteId) (resume i start stop : Nat),
    l.entries[k]? = some (.pushSubroutine site resume) → k < i → i < resume →
    l.entries[i]? ≠ some (.pushHandler start stop)

def Place.entry : Place → LogEntry
  | .instruction ip => .visit ip
  | .trace t => .trace t

section Order

variable {depth i j : Nat} {p : Passage}

theorem Reads.noted (reads : Reads l depth i p j) :
    ∀ x ∈ p.notes, ∃ k, i ≤ k ∧ k < j ∧ l.entries[k]? = some x.entry := by
  induction reads with
  | done => exact fun x member => absurd member List.not_mem_nil
  | mark _ _ ih | clear _ _ ih =>
    intro x member
    obtain ⟨k, low, high, at'⟩ := ih x member
    exact ⟨k, by omega, high, at'⟩
  | visit here _ after ih | trace here _ after ih =>
    intro x member
    rcases List.mem_cons.mp member with rfl | later
    · exact ⟨_, Nat.le_refl _, after.ordered, here⟩
    · obtain ⟨k, low, high, at'⟩ := ih x later
      exact ⟨k, by omega, high, at'⟩
  | context _ inside _ after ihInside ihAfter | handler _ inside _ after ihInside ihAfter =>
    intro x member
    have := inside.ordered
    have := after.ordered
    rcases List.mem_append.mp member with first | later
    · obtain ⟨k, low, high, at'⟩ := ihInside x first
      exact ⟨k, by omega, by omega, at'⟩
    · obtain ⟨k, low, high, at'⟩ := ihAfter x later
      exact ⟨k, by omega, high, at'⟩
  | call _ onward _ _ _ _ _ _ _ _ ih =>
    intro x member
    obtain ⟨k, low, high, at'⟩ := ih x member
    exact ⟨k, by omega, high, at'⟩

theorem Reads.called (reads : Reads l depth i p j) :
    ∀ site ∈ p.calls, ∃ k resume, i ≤ k ∧ k < j ∧
      l.entries[k]? = some (.pushSubroutine site resume) := by
  induction reads with
  | done => exact fun x member => absurd member List.not_mem_nil
  | mark _ _ ih | clear _ _ ih | visit _ _ _ ih | trace _ _ _ ih =>
    intro site member
    obtain ⟨k, resume, low, high, at'⟩ := ih site member
    exact ⟨k, resume, by omega, high, at'⟩
  | context _ inside _ after ihInside ihAfter | handler _ inside _ after ihInside ihAfter =>
    intro site member
    have := inside.ordered
    have := after.ordered
    rcases List.mem_append.mp member with first | later
    · obtain ⟨k, resume, low, high, at'⟩ := ihInside site first
      exact ⟨k, resume, by omega, by omega, at'⟩
    · obtain ⟨k, resume, low, high, at'⟩ := ihAfter site later
      exact ⟨k, resume, by omega, high, at'⟩
  | call here onward _ _ _ _ _ _ after _ ih =>
    intro site member
    have := after.ordered
    rcases List.mem_cons.mp member with rfl | later
    · exact ⟨_, _, Nat.le_refl _, by omega, here⟩
    · obtain ⟨k, resume, low, high, at'⟩ := ih site later
      exact ⟨k, resume, by omega, high, at'⟩

theorem Reads.handlerless (reads : Reads l depth i p j)
    (none : ∀ k, i ≤ k → k < j → ∀ start stop, l.entries[k]? ≠ some (.pushHandler start stop)) :
    p.Handlerless := by
  induction reads with
  | done => trivial
  | mark _ _ ih | clear _ _ ih | visit _ _ _ ih | trace _ _ _ ih =>
    exact ih fun k low high => none k (by omega) high
  | context _ inside _ after ihInside ihAfter =>
    have := inside.ordered
    have := after.ordered
    exact ⟨ihInside fun k low high => none k (by omega) (by omega),
      ihAfter fun k low high => none k (by omega) high⟩
  | handler here inside _ after _ _ =>
    have := inside.ordered
    have := after.ordered
    exact absurd here (none _ (Nat.le_refl _) (by omega) _ _)
  | call _ onward _ _ _ _ _ _ _ _ ih => exact ih fun k low high => none k (by omega) high

def EndsBody (l : RootLog) (j : Nat) : Prop :=
  l.entries[j]? = some .popSubroutine → ∃ (first : Nat) (site : CallSiteId),
    l.entries[first]? = some (.pushSubroutine site (j + 1)) ∧
    (l.region (l.call site).region).body = first + 1

theorem Reads.opens {ip : Nat} {rest : Passage} (tallied : Tallied l) (ends : l.VisitsEnd)
    (here : l.entries[i]? = some (.visit ip)) (after : Reads l depth (i + 1) rest j)
    (body : l.EndsBody j) (opens : ¬ (l.endsAfter i ∧ 1 < l.visitCount ip)) :
    ∀ k < i, l.entries[k]? ≠ some (.visit ip) := by
  intro k before earlier
  have again := tallied.recounted k i ip before earlier here
  rcases ends i ip here ⟨k, before, earlier⟩ with last | last | ⟨last, later⟩
  · exact opens ⟨by simp [endsAfter, last], again⟩
  · exact opens ⟨by simp [endsAfter, last], again⟩
  · -- the subroutine ends here, so this is its body, and the body is its first entry
    have stop : j = i + 1 := by
      cases after with
      | done => rfl
      | _ => simp_all
    subst stop
    obtain ⟨first, site, start, recorded⟩ := body last
    exact later first site start recorded

theorem Reads.written (tallied : Tallied l) (ends : l.VisitsEnd) (reads : Reads l depth i p j)
    (body : l.EndsBody j) : ∀ x ∈ p.writes l, ∃ k, i ≤ k ∧ k < j ∧
      l.entries[k]? = some x.entry ∧ ∀ k' < k, l.entries[k']? ≠ some x.entry := by
  induction reads with
  | done => exact fun x member => absurd member List.not_mem_nil
  | mark _ _ ih | clear _ _ ih =>
    intro x member
    obtain ⟨k, low, high, at'⟩ := ih body x member
    exact ⟨k, by omega, high, at'⟩
  | visit here _ after ih =>
    intro x member
    have later : x ∈ _ → _ := ih body x
    simp only [Passage.writes] at member
    split at member
    · obtain ⟨k, low, high, at'⟩ := ih body x member
      exact ⟨k, by omega, high, at'⟩
    · rename_i opens
      rcases List.mem_cons.mp member with rfl | later
      · exact ⟨_, Nat.le_refl _, after.ordered, here,
          after.opens tallied ends here body (by simpa using opens)⟩
      · obtain ⟨k, low, high, at'⟩ := ih body x later
        exact ⟨k, by omega, high, at'⟩
  | trace here _ after ih =>
    intro x member
    rcases List.mem_cons.mp member with rfl | later
    · refine ⟨_, Nat.le_refl _, after.ordered, here, fun k before same => ?_⟩
      have := tallied.tracedOnce _ _ _ same here
      omega
    · obtain ⟨k, low, high, at'⟩ := ih body x later
      exact ⟨k, by omega, high, at'⟩
  | context _ inside close after ihInside ihAfter | handler _ inside close after ihInside ihAfter =>
    intro x member
    have := inside.ordered
    have := after.ordered
    rcases List.mem_append.mp member with first | later
    · obtain ⟨k, low, high, at'⟩ := ihInside (fun pop => by simp_all) x first
      exact ⟨k, by omega, by omega, at'⟩
    · obtain ⟨k, low, high, at'⟩ := ihAfter body x later
      exact ⟨k, by omega, high, at'⟩
  | call _ onward _ _ _ _ _ _ _ _ ih =>
    intro x member
    obtain ⟨k, low, high, at'⟩ := ih body x member
    exact ⟨k, by omega, high, at'⟩

theorem Reads.orderly (tallied : Tallied l) (ends : l.VisitsEnd) (apart : l.HandlersApart)
    (reads : Reads l depth i p j) (body : l.EndsBody j) : p.Orderly l := by
  induction reads with
  | done => trivial
  | mark _ _ ih | clear _ _ ih => exact ih body
  | visit here known after ih | trace here known after ih =>
    refine ⟨known, fun set => ?_, ih body⟩
    obtain ⟨k, low, -, -, first⟩ := after.written tallied ends body _ set
    exact first _ (by omega) here
  | context _ inside close after ihInside ihAfter | handler _ inside close after ihInside ihAfter =>
    refine ⟨fun x met set => ?_, fun site called again => ?_, ihInside fun pop => by simp_all,
      ihAfter body⟩
    · obtain ⟨k, -, high, at'⟩ := inside.noted x met
      obtain ⟨k', low, -, -, first⟩ := after.written tallied ends body x set
      exact first k (by omega) at'
    · obtain ⟨k, a, -, high, at'⟩ := inside.called site called
      obtain ⟨k', b, low, -, there⟩ := after.called site again
      have := tallied.calledOnce k k' site a b at' there
      omega
  | call here onward known start same recorded inside close after ihInside ihAfter =>
    refine ⟨known, fun again => ?_, inside.handlerless fun k low high => ?_, ihInside fun _ => ?_,
      ihAfter body⟩
    · obtain ⟨k, b, low, -, there⟩ := after.called _ again
      have := tallied.calledOnce _ k _ _ b here there
      omega
    · exact fun a b => apart.2 _ _ _ k a b start (by omega) (by omega)
    · exact ⟨_, _, start, by rw [same]; exact recorded⟩

theorem Recorded.legible (recorded : Recorded l []) (ends : l.VisitsEnd) (apart : l.HandlersApart) :
    ∃ p, l.Legible p := by
  obtain ⟨tallied, order, nested⟩ := recorded.nested
  obtain ⟨p, reads⟩ := nested.spine
  have shallow : order.length ≤ l.regions.size := by
    have inside : order ⊆ List.range l.regions.size :=
      fun g member => List.mem_range.mpr (nested.known g member)
    simpa using (nested.nodup.subperm inside).length_le
  refine ⟨p, ⟨_, shallow, reads⟩, reads.orderly tallied ends apart fun pop => ?_, tallied.charted,
    apart.1⟩
  simp at pop

end Order

end RootLog

end Lowering
