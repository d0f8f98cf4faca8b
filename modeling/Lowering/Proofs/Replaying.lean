import Lowering.FrameMap.Build
import Lowering.FrameMap.Solve
/-!
A well nested log and how it is replayed.

The entries of a log are flat; where they are properly nested they can be read as a passage, in
which every context and every call stands with its body. Replaying the flat entries and playing the
passage give the same maps.
-/
namespace Lowering

inductive Passage where
  | done
  | mark (slot : Nat) (rest : Passage)
  | clear (slot : Nat) (rest : Passage)
  | visit (ip : Nat) (last : Bool) (rest : Passage)
  | trace (t : TraceId) (rest : Passage)
  | context (body rest : Passage)
  | handler (start stop : Nat) (body rest : Passage)
  | call (site : CallSiteId) (body rest : Passage)

structure Cursor where
  roots : RootMap
  reached : Bool
  leaving : RootMap

def Cursor.final (c : Cursor) : RootMap := if c.reached then c.roots else c.leaving

namespace Cursor

def arrived (c : Cursor) (roots : RootMap) : Cursor := ⟨roots, true, c.leaving⟩

def entered (c : Cursor) : Cursor := { c with reached := false }

def left (c inner : Cursor) : Cursor := { c with leaving := inner.final }

def handling (roots : RootMap) : Cursor := ⟨roots, false, roots⟩

def called (c : Cursor) (l : RootLog) : Cursor := ⟨c.roots, false, RootMap.full l.mapSize⟩

def returned (c inner : Cursor) : Cursor := { c with roots := c.roots.inter inner.final }

end Cursor

namespace Passage

def play : Passage → Option PathId → Replay → Cursor → Replay × Cursor
  | .done, _, r, c => (r, c)
  | .mark slot rest, path, r, c => rest.play path r { c with roots := c.roots.mark slot }
  | .clear slot rest, path, r, c => rest.play path r { c with roots := c.roots.clear slot }
  | .visit ip last rest, path, r, c =>
    let (roots, r) := r.arrive path ip c.roots last
    rest.play path r (c.arrived roots)
  | .trace t rest, path, r, c => rest.play path (r.recordTrace t path c.roots) c
  | .context body rest, path, r, c =>
    let (r, inner) := body.play path r c.entered
    rest.play path r (c.left inner)
  | .handler start stop body rest, path, r, c =>
    let (roots, r) := r.handlerRoots none start stop
    let (r, _) := body.play none r (.handling roots)
    rest.play path r c
  | .call site body rest, path, r, c =>
    let (inner, r) := r.pathFor site path
    let (r, left) := body.play (some inner) r (c.called r.log)
    rest.play path r (c.returned left)

section

variable {path : Option PathId} {r : Replay} {c : Cursor} {body rest : Passage}

theorem playVisit {ip : Nat} {last : Bool} : (visit ip last rest).play path r c =
    rest.play path (r.arrive path ip c.roots last).2
      (c.arrived (r.arrive path ip c.roots last).1) := rfl

theorem playTrace {t : TraceId} :
    (trace t rest).play path r c = rest.play path (r.recordTrace t path c.roots) c := rfl

theorem playContext : (context body rest).play path r c =
    rest.play path (body.play path r c.entered).1 (c.left (body.play path r c.entered).2) := rfl

theorem playHandler {start stop : Nat} : (handler start stop body rest).play path r c =
    rest.play path (body.play none (r.handlerRoots none start stop).2
      (.handling (r.handlerRoots none start stop).1)).1 c := rfl

theorem playCall {site : CallSiteId} : (call site body rest).play path r c =
    rest.play path
      (body.play (some (r.pathFor site path).1) (r.pathFor site path).2
        (c.called (r.pathFor site path).2.log)).1
      (c.returned (body.play (some (r.pathFor site path).1) (r.pathFor site path).2
        (c.called (r.pathFor site path).2.log)).2) := rfl

end

def cost : Passage → Nat
  | .done => 1
  | .mark _ rest | .clear _ rest | .visit _ _ rest | .trace _ rest => rest.cost + 1
  | .context body rest | .handler _ _ body rest | .call _ body rest =>
    max body.cost rest.cost + 1

end Passage

namespace RootLog

def endsAfter (l : RootLog) (i : Nat) : Bool :=
  match l.entries[i + 1]? with
  | none => true
  | some e => e == .popContext

/-- The entries from `i` up to `j` are a passage. `depth` bounds how deep calls are nested in it. A
call is read with the body that its subroutine was first recorded with. -/
inductive Reads (l : RootLog) : Nat → Nat → Passage → Nat → Prop where
  | done {depth i} : Reads l depth i .done i
  | mark {depth i j slot rest} (here : l.entries[i]? = some (.mark slot))
      (after : Reads l depth (i + 1) rest j) : Reads l depth i (.mark slot rest) j
  | clear {depth i j slot rest} (here : l.entries[i]? = some (.clear slot))
      (after : Reads l depth (i + 1) rest j) : Reads l depth i (.clear slot rest) j
  | visit {depth i j ip rest} (here : l.entries[i]? = some (.visit ip)) (known : ip < l.maps.size)
      (after : Reads l depth (i + 1) rest j) : Reads l depth i (.visit ip (l.endsAfter i) rest) j
  | trace {depth i j t rest} (here : l.entries[i]? = some (.trace t))
      (known : t.index < l.traces.size)
      (after : Reads l depth (i + 1) rest j) : Reads l depth i (.trace t rest) j
  | context {depth i k j body rest} (here : l.entries[i]? = some .pushContext)
      (inside : Reads l depth (i + 1) body k) (close : l.entries[k]? = some .popContext)
      (after : Reads l depth (k + 1) rest j) : Reads l depth i (.context body rest) j
  | handler {depth i k j start stop body rest}
      (here : l.entries[i]? = some (.pushHandler start stop))
      (inside : Reads l depth (i + 1) body k) (close : l.entries[k]? = some .popContext)
      (after : Reads l depth (k + 1) rest j) : Reads l depth i (.handler start stop body rest) j
  | call {depth i first stop resume j site initial body rest}
      (here : l.entries[i]? = some (.pushSubroutine site resume)) (onward : i < resume)
      (known : site.index < l.calls.size)
      (start : l.entries[first]? = some (.pushSubroutine initial (stop + 1)))
      (same : (l.call initial).region = (l.call site).region)
      (recorded : (l.region (l.call site).region).body = first + 1)
      (inside : Reads l depth (first + 1) body stop)
      (close : l.entries[stop]? = some .popSubroutine)
      (after : Reads l (depth + 1) resume rest j) :
      Reads l (depth + 1) i (.call site body rest) j

variable {l l' l'' : RootLog}

theorem Reads.ordered {depth i j : Nat} {p : Passage} (reads : Reads l depth i p j) : i ≤ j := by
  induction reads <;> omega

theorem Reads.costBound {depth i j : Nat} {p : Passage} (reads : Reads l depth i p j) :
    p.cost ≤ j - i + 1 + (l.entries.size + 2) * depth := by
  induction reads with
  | done => simp [Passage.cost]
  | mark _ after ih | clear _ after ih | visit _ _ after ih | trace _ _ after ih =>
    have := after.ordered
    simp only [Passage.cost]
    omega
  | context _ inside _ after ihInside ihAfter | handler _ inside _ after ihInside ihAfter =>
    have := inside.ordered
    have := after.ordered
    simp only [Passage.cost]
    omega
  | call _ onward _ _ _ _ inside close after ihInside ihAfter =>
    have := inside.ordered
    have := after.ordered
    have := (Array.getElem?_eq_some_iff.mp close).1
    simp only [Passage.cost, Nat.mul_add]  at *
    omega

/-- What one log shares with an earlier state of itself while it is replayed: maps change, paths and
watched traces are added, nothing else happens. -/
structure Grows (l l' : RootLog) : Prop where
  entries : l'.entries = l.entries
  visits : l'.visits = l.visits
  regions : l'.regions = l.regions
  regionAt : l'.regionAt = l.regionAt
  current : l'.current = l.current
  mapSize : l'.mapSize = l.mapSize
  maps : l'.maps.size = l.maps.size
  traces : l'.traces.size = l.traces.size
  ips : ∀ t, (l'.traceAt t).ip = (l.traceAt t).ip
  watched : ∀ t, (l.traceAt t).watched → (l'.traceAt t).watched
  calls : l'.calls.size = l.calls.size
  callees : ∀ c, (l'.call c).region = (l.call c).region
  listed : ∀ c p, p ∈ (l.call c).paths → p ∈ (l'.call c).paths
  paths : ∀ (p : Nat) d, l.paths[p]? = some d → ∃ d', l'.paths[p]? = some d' ∧
    d'.call = d.call ∧ d'.outer = d.outer ∧ d'.maps.size = d.maps.size

namespace Grows

theorem refl (l : RootLog) : Grows l l :=
  ⟨rfl, rfl, rfl, rfl, rfl, rfl, rfl, rfl, fun _ => rfl, fun _ h => h, rfl, fun _ => rfl,
    fun _ _ h => h, fun _ d h => ⟨d, h, rfl, rfl, rfl⟩⟩

theorem trans (first : Grows l l') (second : Grows l' l'') : Grows l l'' where
  entries := second.entries.trans first.entries
  visits := second.visits.trans first.visits
  regions := second.regions.trans first.regions
  regionAt := second.regionAt.trans first.regionAt
  current := second.current.trans first.current
  mapSize := second.mapSize.trans first.mapSize
  maps := second.maps.trans first.maps
  traces := second.traces.trans first.traces
  ips t := (second.ips t).trans (first.ips t)
  watched t h := second.watched t (first.watched t h)
  calls := second.calls.trans first.calls
  callees c := (second.callees c).trans (first.callees c)
  listed c p h := second.listed c p (first.listed c p h)
  paths p d h := by
    obtain ⟨e, he, call, outer, size⟩ := first.paths p d h
    obtain ⟨f, hf, call', outer', size'⟩ := second.paths p e he
    exact ⟨f, hf, call'.trans call, outer'.trans outer, size'.trans size⟩

end Grows

theorem getDModify {α : Type} (xs : Array α) (i j : Nat) (f : α → α) (d : α) :
    (xs.modify i f).getD j d = if i = j ∧ j < xs.size then f (xs.getD j d) else xs.getD j d := by
  simp only [Array.getD_eq_getD_getElem?, Array.getElem?_modify]
  by_cases same : i = j
  · by_cases known : j < xs.size
    · simp [same, known]
    · simp [same, known]
  · simp [same]

end RootLog

namespace Replay

open RootLog

variable {r : Replay}

theorem setMapGrows (path : Option PathId) (ip : Nat) (m : RootMap) :
    Grows r.log (r.setMap path ip m).log := by
  cases path with
  | none => exact { Grows.refl r.log with maps := by simp [setMap] }
  | some p =>
    refine { Grows.refl r.log with paths := fun q d here => ?_ }
    simp only [setMap, Array.getElem?_modify]
    split
    · rw [here]
      exact ⟨_, rfl, rfl, rfl, by simp⟩
    · exact ⟨d, here, rfl, rfl, rfl⟩

theorem arriveGrows (path : Option PathId) (ip : Nat) (roots : RootMap) (last : Bool) :
    Grows r.log (r.arrive path ip roots last).2.log := by
  unfold arrive
  split
  · exact setMapGrows ..
  · exact setMapGrows ..

def retraced (d : Trace) (path : Option PathId) (roots : RootMap) : Trace :=
  match path with
  | none => { d with map := roots }
  | some p => { d with paths := (setPathMap p roots d.paths).1 }

@[simp] theorem retracedIp (d : Trace) (path : Option PathId) (roots : RootMap) :
    (retraced d path roots).ip = d.ip := by
  cases path <;> rfl

@[simp] theorem retracedWatched (d : Trace) (path : Option PathId) (roots : RootMap) :
    (retraced d path roots).watched = d.watched := by
  cases path <;> rfl

theorem recordTraceLog (t : TraceId) (path : Option PathId) (roots : RootMap) :
    (r.recordTrace t path roots).log =
      { r.log with
        traces := r.log.traces.modify t.index fun _ => retraced (r.log.traceAt t) path roots } := by
  cases path <;> rfl

theorem traceAtRecord (t u : TraceId) (path : Option PathId) (roots : RootMap)
    (known : t.index < r.log.traces.size) :
    (r.recordTrace t path roots).log.traceAt u =
      if u = t then retraced (r.log.traceAt t) path roots else r.log.traceAt u := by
  rw [recordTraceLog, traceAt, getDModify]
  by_cases same : u = t
  · subst same
    simp [known]
  · have apart : ¬ (t.index = u.index ∧ u.index < r.log.traces.size) := by
      rintro ⟨h, -⟩
      exact same (by cases u; cases t; simp_all)
    rw [if_neg apart, if_neg same, traceAt]

theorem recordTraceGrows (t : TraceId) (path : Option PathId) (roots : RootMap) :
    Grows r.log (r.recordTrace t path roots).log := by
  rw [recordTraceLog]
  refine { Grows.refl r.log with traces := by simp, ips := fun u => ?_, watched := fun u h => ?_ }
  · rw [traceAt, getDModify]
    split
    · rename_i same
      rw [retracedIp, traceAt, traceAt, same.1]
    · rfl
  · rw [traceAt, getDModify]
    split
    · rename_i same
      rw [retracedWatched, traceAt, same.1]
      exact h
    · exact h

def Covers (start stop : Nat) (t : Trace) : Prop := start ≤ t.ip ∧ t.ip < stop

instance (start stop : Nat) (t : Trace) : Decidable (Covers start stop t) :=
  inferInstanceAs (Decidable (_ ∧ _))

theorem traceAtHandler (start stop : Nat) (u : TraceId) :
    (r.handlerRoots none start stop).2.log.traceAt u =
      if Covers start stop (r.log.traceAt u) ∧ u.index < r.log.traces.size then
        { r.log.traceAt u with watched := true }
      else r.log.traceAt u := by
  simp only [handlerRoots, traceAt, Array.getD_eq_getD_getElem?, Array.getElem?_map, Covers]
  by_cases known : u.index < r.log.traces.size
  · simp [known]
  · simp [known]

theorem handlerRootsGrows (start stop : Nat) :
    Grows r.log (r.handlerRoots none start stop).2.log := by
  refine { Grows.refl r.log with traces := by simp [handlerRoots], ips := fun u => ?_, watched := fun u h => ?_ }
  · rw [traceAtHandler]
    split <;> rfl
  · rw [traceAtHandler]
    split
    · rfl
    · exact h

def withPath (l : RootLog) (site : CallSiteId) (path : Option PathId) : RootLog :=
  { l with
    paths := l.paths.push ⟨site, path, Array.replicate l.maps.size (RootMap.full l.mapSize)⟩
    calls := l.calls.modify site.index fun c => { c with paths := c.paths ++ [⟨l.paths.size⟩] } }

theorem pathForCases (site : CallSiteId) (path : Option PathId) :
    (∃ p ∈ (r.log.call site).paths, (r.log.path p).outer = path ∧ r.pathFor site path = (p, r)) ∨
    (∀ p ∈ (r.log.call site).paths, (r.log.path p).outer ≠ path) ∧
      r.pathFor site path = (⟨r.log.paths.size⟩, { r with log := withPath r.log site path }) := by
  cases found : (r.log.call site).paths.find? fun p => (r.log.path p).outer == path with
  | some p =>
    have member := List.mem_of_find?_eq_some found
    have outer := List.find?_some found
    refine .inl ⟨p, member, by simpa using outer, ?_⟩
    unfold pathFor
    simp only [call, RootLog.path] at found
    simp only [found]
  | none =>
    refine .inr ⟨fun p member => by simpa using List.find?_eq_none.mp found p member, ?_⟩
    unfold pathFor
    simp only [call, RootLog.path] at found
    simp only [found, withPath]

theorem callWithPath (l : RootLog) (site : CallSiteId) (path : Option PathId) (c : CallSiteId)
    (known : site.index < l.calls.size) :
    (withPath l site path).call c =
      if c = site then { l.call c with paths := (l.call c).paths ++ [⟨l.paths.size⟩] }
      else l.call c := by
  simp only [withPath, call, getDModify]
  by_cases same : c = site
  · subst same
    simp [known]
  · have apart : site.index ≠ c.index := fun h => same (by cases c; cases site; simp_all)
    simp [same, apart]

theorem pathsWithPath (l : RootLog) (site : CallSiteId) (path : Option PathId) :
    (withPath l site path).paths[l.paths.size]? =
      some ⟨site, path, Array.replicate l.maps.size (RootMap.full l.mapSize)⟩ :=
  Array.getElem?_push_size

theorem withPathGrows (l : RootLog) (site : CallSiteId) (path : Option PathId) :
    Grows l (withPath l site path) := by
  refine { Grows.refl l with
    calls := by simp [withPath]
    callees := fun c => ?_
    listed := fun c p here => ?_
    paths := fun p d here => ⟨d, ?_, rfl, rfl, rfl⟩ }
  · simp only [withPath, call, getDModify]
    split <;> rfl
  · simp only [withPath, call, getDModify] at here ⊢
    split
    · exact List.mem_append_left _ here
    · exact here
  · simp only [withPath]
    obtain ⟨known, same⟩ := Array.getElem?_eq_some_iff.mp here
    rw [Array.getElem?_push_lt known, same]

theorem pathForGrows (site : CallSiteId) (path : Option PathId) :
    Grows r.log (r.pathFor site path).2.log := by
  obtain ⟨p, -, -, known⟩ | ⟨-, fresh⟩ := r.pathForCases site path
  · rw [known]
    exact Grows.refl _
  · rw [fresh]
    exact withPathGrows ..

end Replay

open Replay RootLog

theorem Passage.playGrows (p : Passage) : ∀ (path : Option PathId) (r : Replay) (c : Cursor),
    Grows r.log (p.play path r c).1.log := by
  induction p with
  | done => exact fun _ _ _ => Grows.refl _
  | mark _ _ ih | clear _ _ ih => exact fun _ _ _ => ih ..
  | visit ip last rest ih => exact fun _ _ _ => (arriveGrows ..).trans (ih ..)
  | trace t rest ih => exact fun _ _ _ => (recordTraceGrows ..).trans (ih ..)
  | context body rest ihBody ihRest => exact fun _ _ _ => (ihBody ..).trans (ihRest ..)
  | handler start stop body rest ihBody ihRest =>
    exact fun _ _ _ => (handlerRootsGrows ..).trans ((ihBody ..).trans (ihRest ..))
  | call site body rest ihBody ihRest =>
    exact fun _ _ _ => (pathForGrows ..).trans ((ihBody ..).trans (ihRest ..))

def RootLog.HandlersOutside (l : RootLog) : Prop :=
  ∀ (i start stop : Nat), l.entries[i]? = some (.pushHandler start stop) →
    l.regionAt.getD start none = none

def Replay.runFrom (fuel : Nat) (r : Replay) (c : Cursor) (i : Nat) (path : Option PathId) :
    Outcome :=
  run fuel r c.roots i path c.reached c.leaving

theorem Replay.runFromPop {r : Replay} {c : Cursor} {path : Option PathId} {fuel i : Nat}
    (here : r.log.entries[i]? = some .popContext) (positive : 0 < fuel) :
    runFrom fuel r c i path = ⟨r, c.final, some (i + 1)⟩ := by
  obtain ⟨n, rfl⟩ := Nat.exists_eq_add_of_lt positive
  simp [runFrom, run, here, close, Cursor.final]

theorem Replay.runFromReturn {r : Replay} {c : Cursor} {path : Option PathId} {fuel i : Nat}
    (here : r.log.entries[i]? = some .popSubroutine) (positive : 0 < fuel) :
    runFrom fuel r c i path = ⟨r, c.final, none⟩ := by
  obtain ⟨n, rfl⟩ := Nat.exists_eq_add_of_lt positive
  simp [runFrom, run, here, close, Cursor.final]

/- Replaying the entries of a passage comes to what follows it, with what playing it gives. The
passage says how many steps are enough. -/
theorem RootLog.Reads.run {l : RootLog} (outside : l.HandlersOutside) {depth i j : Nat}
    {p : Passage} (reads : Reads l depth i p j) :
    ∀ (r : Replay) (c : Cursor) (path : Option PathId) (fuel : Nat), Grows l r.log →
      p.cost ≤ fuel → ∃ left, 0 < left ∧
        runFrom fuel r c i path = runFrom left (p.play path r c).1 (p.play path r c).2 j path := by
  induction reads with
  | done => exact fun _ _ _ _ _ enough => ⟨_, enough, rfl⟩
  | mark here _ ih | clear here _ ih =>
    intro r c path fuel grows enough
    obtain ⟨fuel, rfl⟩ := Nat.exists_eq_add_of_le' (Nat.le_trans (Nat.le_add_left 1 _) enough)
    obtain ⟨left, positive, same⟩ := ih _ _ _ _ grows (Nat.le_of_succ_le_succ enough)
    refine ⟨left, positive, Eq.trans ?_ same⟩
    rw [runFrom, Replay.run, grows.entries, here]
    rfl
  | visit here _ _ ih =>
    intro r c path fuel grows enough
    obtain ⟨fuel, rfl⟩ := Nat.exists_eq_add_of_le' (Nat.le_trans (Nat.le_add_left 1 _) enough)
    obtain ⟨left, positive, same⟩ :=
      ih _ _ _ _ (grows.trans (arriveGrows ..)) (Nat.le_of_succ_le_succ enough)
    refine ⟨left, positive, Eq.trans ?_ same⟩
    rw [runFrom, Replay.run, grows.entries, here]
    rfl
  | trace here _ _ ih =>
    intro r c path fuel grows enough
    obtain ⟨fuel, rfl⟩ := Nat.exists_eq_add_of_le' (Nat.le_trans (Nat.le_add_left 1 _) enough)
    obtain ⟨left, positive, same⟩ :=
      ih _ _ _ _ (grows.trans (recordTraceGrows ..)) (Nat.le_of_succ_le_succ enough)
    refine ⟨left, positive, Eq.trans ?_ same⟩
    rw [runFrom, Replay.run, grows.entries, here]
    rfl
  | @context _ _ _ _ body rest here _ close _ ihInside ihAfter =>
    intro r c path fuel grows enough
    obtain ⟨fuel, rfl⟩ := Nat.exists_eq_add_of_le' (Nat.le_trans (Nat.le_add_left 1 _) enough)
    have enough := Nat.max_le.mp (Nat.le_of_succ_le_succ enough)
    obtain ⟨left, positive, inner⟩ := ihInside r c.entered path fuel grows enough.1
    have grown := grows.trans (body.playGrows path r c.entered)
    rw [runFromPop (by rw [grown.entries, close]) positive, runFrom] at inner
    obtain ⟨left, positive, same⟩ := ihAfter _ _ path fuel grown enough.2
    refine ⟨left, positive, Eq.trans ?_ same⟩
    rw [runFrom, Replay.run, grows.entries, here]
    simp only [Cursor.entered] at inner
    simp only [inner]
    rfl
  | @handler _ _ _ _ start stop body rest here _ close _ ihInside ihAfter =>
    intro r c path fuel grows enough
    obtain ⟨fuel, rfl⟩ := Nat.exists_eq_add_of_le' (Nat.le_trans (Nat.le_add_left 1 _) enough)
    have enough := Nat.max_le.mp (Nat.le_of_succ_le_succ enough)
    let started := r.handlerRoots none start stop
    have watching := grows.trans (r.handlerRootsGrows start stop)
    obtain ⟨left, positive, inner⟩ :=
      ihInside started.2 (.handling started.1) none fuel watching enough.1
    have grown := watching.trans (body.playGrows none started.2 (.handling started.1))
    rw [runFromPop (by rw [grown.entries, close]) positive, runFrom] at inner
    obtain ⟨left, positive, same⟩ := ihAfter _ c path fuel grown enough.2
    refine ⟨left, positive, Eq.trans ?_ same⟩
    rw [runFrom, Replay.run, grows.entries, here]
    simp only [Cursor.handling, started] at inner
    simp only [grows.regionAt, outside _ _ _ here, inner]
    rfl
  | @call _ _ first _ _ _ site _ body rest here _ _ _ same recorded _ close _ ihInside ihAfter =>
    intro r c path fuel grows enough
    obtain ⟨fuel, rfl⟩ := Nat.exists_eq_add_of_le' (Nat.le_trans (Nat.le_add_left 1 _) enough)
    have enough := Nat.max_le.mp (Nat.le_of_succ_le_succ enough)
    let found := r.pathFor site path
    have pathed := grows.trans (r.pathForGrows site path)
    let entered := c.called found.2.log
    obtain ⟨left, positive, inner⟩ :=
      ihInside found.2 entered (some found.1) fuel pathed enough.1
    have grown := pathed.trans (body.playGrows (some found.1) found.2 entered)
    rw [runFromReturn (by rw [grown.entries, close]) positive, runFrom] at inner
    let returned := c.returned (body.play (some found.1) found.2 entered).2
    obtain ⟨left, positive, same⟩ := ihAfter _ returned path fuel grown enough.2
    refine ⟨left, positive, Eq.trans ?_ same⟩
    have begins : (found.2.log.region (found.2.log.call site).region).body = first + 1 := by
      rw [pathed.callees, RootLog.region, pathed.regions]
      exact recorded
    rw [runFrom, Replay.run, grows.entries, here]
    simp only [entered, Cursor.called, found, RootLog.call, RootLog.region] at inner begins
    simp only [begins, inner]
    rfl

def RootLog.beginning (l : RootLog) : Cursor := ⟨.empty l.mapSize, false, .empty l.mapSize⟩

theorem RootLog.Reads.pass {l : RootLog} (outside : l.HandlersOutside) {depth : Nat} {p : Passage}
    (reads : Reads l depth 0 p l.entries.size) (shallow : depth ≤ l.regions.size) :
    l.pass = (p.play none { log := l } l.beginning).1 := by
  have enough : p.cost ≤ l.replayFuel := by
    have bound := reads.costBound
    have deep := Nat.mul_le_mul_left (l.entries.size + 2) shallow
    unfold replayFuel
    rw [Nat.mul_add]
    omega
  obtain ⟨left, positive, same⟩ :=
    reads.run outside { log := l } l.beginning none _ (Grows.refl l) enough
  obtain ⟨left, rfl⟩ := Nat.exists_eq_add_of_lt positive
  have grown := p.playGrows none { log := l } l.beginning
  have ended : (p.play none { log := l } l.beginning).1.log.entries[l.entries.size]? = none := by
    rw [grown.entries]
    simp
  simp only [RootLog.pass, runFrom, beginning] at same ended ⊢
  rw [same, Replay.run, ended]
  rfl

end Lowering
